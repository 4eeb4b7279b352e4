/-
Sharing specifications.  The paths of every list are resolved to type names
first; then each list in turn redirects its members to one of them.
-/
import SmlSharp.NameEvaluation.NormalizeTy
import SmlSharp.Lib.SortedMap
import Mathlib.Data.List.Lex
import Mathlib.Data.String.Basic

namespace SmlSharp.NameEvaluation

/-- A path of a sharing list with the type name it is resolved to. -/
abbrev PathTfv := Longsymbol × Tfv

/-- The entries whose cell is a datatype specification now. -/
def datatypeMembers (heap : Heap) (pathTfvList : List PathTfv) : List PathTfv :=
  pathTfvList.filter fun pathTfv =>
    match heap pathTfv.2 with
    | .tfvDty .. => true
    | _ => false

def getArityTfv (heap : Heap) (fuel : Nat) (tfv : Tfv) : Except Failure Nat :=
  match heap tfv with
  | .tfvSpec _ _ formals => .ok formals.length
  | .tfvDty _ _ formals _ _ => .ok formals.length
  | .realized _ tfun => tfunArity heap fuel tfun
  | _ => .error .bug

def checkEqtypeTfv (heap : Heap) (fuel : Nat) (tfv : Tfv) : Except Failure Bool :=
  match heap tfv with
  | .tfvSpec _ admitsEq _ => .ok admitsEq
  | .tfvDty .. => .ok false
  | .realized _ tfun => tfunAdmitsEq heap fuel tfun
  | _ => .error .bug

def checkEqtypeTfvList (heap : Heap) (fuel : Nat) : List Tfv → Except Failure Bool
  | [] => .ok false
  | h :: t => do
      if ← checkEqtypeTfv heap fuel h then return true
      else checkEqtypeTfvList heap fuel t

def checkArity (fuel : Nat) (pathTfvList : List PathTfv) : Norm Unit := do
  let arityList ← onHeap fun heap =>
    pathTfvList.mapM fun pathTfv => getArityTfv heap fuel pathTfv.2
  match arityList with
  | [] => return ()
  | h :: t => if t.all (· = h) then return () else throw .processShare

/-- An eqtype may be shared with a datatype only if the first datatype of the
list admits equality. -/
def checkEqtype (fuel : Nat) (pathTfvList datatypes : List PathTfv) : Norm Unit := do
  if ← onHeap fun heap => checkEqtypeTfvList heap fuel (pathTfvList.map Prod.snd) then
    match datatypes with
    | [] => return ()
    | (_, tfv) :: _ =>
      match (← get).heap tfv with
      | .tfvDty _ admitsEq _ _ _ => if admitsEq then return () else throw .processShare
      | _ => throw .bug
  else return ()

/-- The paths of the datatypes whose constructors differ from the first's. -/
def checkDatatypes (typIdEquiv : TypIdEquiv) (fuel : Nat) (formals : Formals)
    (conSpec : ConSpec) : List PathTfv → List Longsymbol → Norm (List Longsymbol)
  | [], errorPathList => return errorPathList
  | (path2, tfv2) :: rest, errorPathList => do
      match (← get).heap tfv2 with
      | .tfvDty _ _ formals2 conSpec2 _ =>
        if ← checkConSpec typIdEquiv fuel formals conSpec formals2 conSpec2 then
          checkDatatypes typIdEquiv fuel formals conSpec rest errorPathList
        else
          checkDatatypes typIdEquiv fuel formals conSpec rest (errorPathList ++ [path2])
      | _ => throw .bug

def errorPaths (typIdEquiv : TypIdEquiv) (fuel : Nat) :
    List PathTfv → Norm (List Longsymbol)
  | [] => return []
  | [_] => return []
  | (_, tfv) :: rest => do
      match (← get).heap tfv with
      | .tfvDty _ _ formals conSpec _ => checkDatatypes typIdEquiv fuel formals conSpec rest []
      | _ => throw .bug

/-- The member that the others are redirected to. -/
def firstTfv (pathTfvList datatypes : List PathTfv) : Option Tfv :=
  match datatypes with
  | [] =>
    match pathTfvList with
    | [] => none
    | (_, tfv) :: _ => some tfv
  | (_, tfv) :: _ => some tfv

def redirectMembers (fuel : Nat) (first : Tfv) (firstId : TypId) :
    List PathTfv → Norm Unit
  | [] => return ()
  | (_, tfv) :: rest => do
      let id ← onHeap fun heap => tfvId heap fuel tfv
      if id = firstId then
        redirectMembers fuel first firstId rest
      else
        assign tfv (.realized id (.tfunVar first))
        redirectMembers fuel first firstId rest

def processShareList (typIdEquiv : TypIdEquiv) (fuel : Nat) (pathTfvList : List PathTfv) :
    Norm Unit := do
  let datatypes := datatypeMembers (← get).heap pathTfvList
  if pathTfvList.isEmpty then throw .processShare
  else
    checkArity fuel pathTfvList
    checkEqtype fuel pathTfvList datatypes
    let errorPathList ← errorPaths typIdEquiv fuel datatypes
    if errorPathList.isEmpty then
      match firstTfv pathTfvList datatypes with
      | none => throw .bug
      | some first =>
        let firstId ← onHeap fun heap => tfvId heap fuel first
        redirectMembers fuel first firstId pathTfvList
    else throw .processShare

def getTfvTfun (heap : Heap) : Nat → Tfun → Except Failure (TypId × Tfv)
  | 0, _ => .error .diverges
  | _ + 1, .tfunDef .. => .error .rigid
  | fuel + 1, .tfunVar tfv =>
    match heap tfv with
    | .realized _ tfun => getTfvTfun heap fuel tfun
    | .tfvSpec id _ _ => .ok (id, tfv)
    | .tfvDty id _ _ _ _ => .ok (id, tfv)
    | .tfunDty .. => .error .rigid
    | .instantiated .. => .error .bug
    | .funDty _ => .error .bug

def getTfv (heap : Heap) (fuel : Nat) (specEnv : Env) (longsymbol : Longsymbol) :
    Except Failure (TypId × Tfv) := do
  match ← findTstr specEnv longsymbol with
  | none => .error .undef
  | some tstr => getTfvTfun heap fuel tstr.tfun

/-- A path that is rigid or undefined is reported as an error. -/
def reportImproper {α : Type} : Except Failure α → Except Failure α
  | .error .rigid => .error .processShare
  | .error .undef => .error .processShare
  | result => result

def resolvePaths (heap : Heap) (fuel : Nat) (specEnv : Env) :
    List Longsymbol → Except Failure (List PathTfv × List TypId)
  | [] => return ([], [])
  | longsymbol :: rest => do
      let (pathTfvList, idList) ← resolvePaths heap fuel specEnv rest
      let (id, tfv) ← reportImproper (getTfv heap fuel specEnv longsymbol)
      return ((longsymbol, tfv) :: pathTfvList, id :: idList)

def resolveLists (heap : Heap) (fuel : Nat) (specEnv : Env) :
    List (List Longsymbol) → Except Failure (List (List PathTfv) × List (List TypId))
  | [] => return ([], [])
  | longsymbolList :: rest => do
      let (pathTfvListList, idListList) ← resolveLists heap fuel specEnv rest
      let (pathTfvList, idList) ← resolvePaths heap fuel specEnv longsymbolList
      return (pathTfvList :: pathTfvListList, idList :: idListList)

def processShareLists (typIdEquiv : TypIdEquiv) (fuel : Nat) :
    List (List PathTfv) → Norm Unit
  | [] => return ()
  | pathTfvList :: rest => do
      processShareList typIdEquiv fuel pathTfvList
      processShareLists typIdEquiv fuel rest

/-- A specification with an error is not accepted; the failure `processShare`
stands for the errors that are reported. -/
def processShare (fuel : Nat) (specEnv : Env) (longsymbolListList : List (List Longsymbol)) :
    Norm Unit := do
  let (pathTfvListList, idListList) ← onHeap fun heap =>
    resolveLists heap fuel specEnv longsymbolListList
  processShareLists (makeTypIdEquiv idListList) fuel pathTfvListList

abbrev PathEnv := SortedMap Longsymbol (List Longsymbol)

def addToListEnv (pathEnv : PathEnv) (key x : Longsymbol) : PathEnv :=
  pathEnv.insert key ((pathEnv.find key).getD [] ++ [x])

def addTyE (path key : Longsymbol) (tyE : List (String × Tstr)) (pathEnv : PathEnv) :
    PathEnv :=
  tyE.foldl (fun pathEnv entry => addToListEnv pathEnv (key ++ [entry.1]) (path ++ [entry.1]))
    pathEnv

mutual

def addSpecEnv (path key : Longsymbol) : Env → PathEnv → PathEnv
  | .env tyE strE, pathEnv => addStrE path key strE (addTyE path key tyE pathEnv)

def addStrE (path key : Longsymbol) : List (String × Env) → PathEnv → PathEnv
  | [], pathEnv => pathEnv
  | (name, specEnv) :: rest, pathEnv =>
    addStrE path key rest (addSpecEnv (path ++ [name]) (key ++ [name]) specEnv pathEnv)

end

/-- The paths to the types of the structures, by the name of the type below the
structure. -/
def structurePaths (specEnv : Env) :
    List Longsymbol → PathEnv → Except Failure PathEnv
  | [], pathEnv => return pathEnv
  | longsymbol :: rest, pathEnv => do
      match ← findStr specEnv longsymbol with
      | none => .error .processShare
      | some env => structurePaths specEnv rest (addSpecEnv longsymbol [] env pathEnv)

/-- `<spec> sharing type path1 = path2` and `<spec> sharing path1 = path2`. -/
inductive ShareSpec where
  | plspecShare (longsymbolList : List Longsymbol)
  | plspecShareStr (longsymbolList : List Longsymbol)

def ShareSpec.pathLists (specEnv : Env) : ShareSpec → Except Failure (List (List Longsymbol))
  | .plspecShare longsymbolList => return [longsymbolList]
  | .plspecShareStr longsymbolList =>
    return (← structurePaths specEnv longsymbolList SortedMap.empty).items.map Prod.snd

/-- The sharing part of the evaluation of a specification, after the inner
specification has been evaluated to the environment. -/
def evalShare (fuel : Nat) (specEnv : Env) (spec : ShareSpec) : Norm Unit := do
  let longsymbolListList ← onHeap fun _ => spec.pathLists specEnv
  processShare fuel specEnv longsymbolListList

end SmlSharp.NameEvaluation
