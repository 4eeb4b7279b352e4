/-
Names of files and interfaces, load modes, and the file dependency graph.
-/
import SmlSharp.Filename

namespace SmlSharp

/-- A source location; `none` is `Loc.noloc`. -/
abbrev Loc := Option Nat

/-- Whether a file was found in the system or in the user's directories. -/
inductive FilePlace where
  | stdpath
  | userpath
deriving DecidableEq, Repr

namespace InterfaceName

/-- The hexadecimal digits of a hash. -/
abbrev Hash := String

abbrev Source := FilePlace × Filename

end InterfaceName

structure InterfaceName where
  hash : InterfaceName.Hash
  source : InterfaceName.Source
deriving DecidableEq, Repr

namespace InterfaceName

inductive FileLoadMode where
  | nolocal
  | compile
  | link
  | compileAndLink
  | allUserpath
  | all
deriving DecidableEq, Repr

inductive FileType where
  | sml
  | includes
  | interface (hash : Hash)
deriving DecidableEq, Repr

inductive FileDependencyEdgeType where
  | require
  | localRequire
  | localUse
  | use
  | include
  | provide
deriving DecidableEq, Repr

mutual

/-- A file with the references it makes, each with the file it leads to. -/
inductive FileDependencyNode where
  | file (source : Source) (fileType : FileType)
      (edges : List FileDependencyEdge)

inductive FileDependencyEdge where
  | edge (edgeType : FileDependencyEdgeType) (node : FileDependencyNode)
      (loc : Loc)

end

def FileDependencyNode.source : FileDependencyNode → Source
  | .file source _ _ => source

def FileDependencyNode.fileType : FileDependencyNode → FileType
  | .file _ fileType _ => fileType

def FileDependencyNode.edges : FileDependencyNode → List FileDependencyEdge
  | .file _ _ edges => edges

def FileDependencyEdge.edgeType : FileDependencyEdge → FileDependencyEdgeType
  | .edge edgeType _ _ => edgeType

def FileDependencyEdge.node : FileDependencyEdge → FileDependencyNode
  | .edge _ node _ => node

/-- The real path that identifies a node's file. -/
def FileDependencyNode.filename (node : FileDependencyNode) : Filename :=
  node.source.2

inductive FileDependencyRootFileType where
  | rootSml (source : Option Source)
  | rootIncludes
deriving DecidableEq, Repr

structure FileDependencyRoot where
  fileType : FileDependencyRootFileType
  mode : FileLoadMode
  edges : List FileDependencyEdge

structure FileDependency where
  allNodes : List FileDependencyNode
  root : FileDependencyRoot

inductive InitRequisite where
  | initAlways
  | initIfneeded
deriving DecidableEq, Repr

structure ToplevelPrelude where
  toplevelName : Option InterfaceName
  initRequisites : List (InitRequisite × InterfaceName)

end InterfaceName

end SmlSharp
