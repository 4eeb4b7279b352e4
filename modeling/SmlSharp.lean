import SmlSharp.ANormalize.Program
import SmlSharp.ArrayCopy
import SmlSharp.BinUtils
import SmlSharp.CML.Rendezvous
import SmlSharp.ConcurrencySupport.Coverage
import SmlSharp.DatatypeEval
import SmlSharp.FFICompilation.Eliminated
import SmlSharp.FFICompilation.Marshalling
import SmlSharp.Fixity
import SmlSharp.ForeachCommon.Sequential
import SmlSharp.FormatExpression.RoundTrip
import SmlSharp.Graph.SCCFun
import SmlSharp.LoadFile.AssocRuns
import SmlSharp.LoadFile.Circular
import SmlSharp.LoadFile.Inits
import SmlSharp.MatchCompiler.Rcexp
import SmlSharp.NameEvaluation.EqualityTypes
import SmlSharp.NameEvaluation.SharingSpecs
import SmlSharp.NameEvaluation.TypIdEquiv
import SmlSharp.ObjEqual.Correct
import SmlSharp.Poll
import SmlSharp.PrettyPrinter2.Flat
import SmlSharp.PrettyPrinter2.Parentheses
import SmlSharp.Real64.Exact
import SmlSharp.RecordLayout.Correct
import SmlSharp.RecordLayout.Sharing
import SmlSharp.SHA3.Digest
import SmlSharp.ScanChar.RoundTrip
import SmlSharp.StackAllocation.Slots
import SmlSharp.Substring
import SmlSharp.SwitchCompile
import SmlSharp.TypesBasics.FreshVariables
import SmlSharp.Truncator.Exact
import SmlSharp.TypesBasics.Generalizer
import SmlSharp.Unify.Renaming
import SmlSharp.UserTvarScope.Exact
import SmlSharp.VALRECOptimizer.Splits
import SmlSharp.WithType.Capture
import SmlSharp.WithType.Differ
