/-
The decision trees of the match compiler and their construction from the
matrix of the rules, column by column.
-/
import SmlSharp.Lib.KeyedList
import SmlSharp.MatchCompiler.Pattern

namespace SmlSharp

namespace MatchCompiler

variable {τ : Type}

/-- The pattern variables met so far, with the variables that hold their
values. -/
abbrev Env (τ : Type) := List (VarInfo τ × VarInfo τ)

def Env.insert (env : Env τ) (x path : VarInfo τ) : Env τ :=
  (x, path) :: env.filter fun entry => entry.1.id ≠ x.id

/-- A rule of the matrix: the patterns that are left, the branch at their end,
and the variables bound so far. -/
structure Row (τ : Type) where
  pats : List (Pat τ)
  branch : Nat
  env : Env τ

abbrev DataKey (τ : Type) := ConInfo τ × Option (List τ) × Bool

abbrev ExnConKey (τ : Type) := ExnCon τ × Bool

def DataKey.id (key : DataKey τ) : Nat := key.1.id

def ExnConKey.key (key : ExnConKey τ) : ExnKey := key.1.key

inductive Tree (τ : Type) where
  | emptyNode
  | leafNode (branch : Nat) (env : Env τ)
  | eqNode (path : VarInfo τ) (branches : List (Const × Tree τ))
      (default : Tree τ)
  | dataConNode (path : VarInfo τ) (branches : List (DataKey τ × Tree τ))
      (default : Tree τ)
  | exnConNode (path : VarInfo τ) (branches : List (ExnConKey τ × Tree τ))
      (default : Tree τ)
  | recNode (path : VarInfo τ) (label : String) (child : Tree τ)
  | univNode (path : VarInfo τ) (child : Tree τ)

/-- The access path of the root of a tree. -/
def getPath : Tree τ → Option (VarInfo τ)
  | .eqNode path _ _ => some path
  | .dataConNode path _ _ => some path
  | .exnConNode path _ _ => some path
  | .recNode path _ _ => some path
  | .univNode path _ => some path
  | .emptyNode => none
  | .leafNode _ _ => none

/-- The effects of the construction: the next variable id, the branches whose
use count was incremented, and the flag of a match that is not exhaustive. -/
structure Build where
  nextId : Nat
  used : List Nat
  notExhaustive : Bool
deriving DecidableEq

def freshVar (ty : τ) (st : Build) : VarInfo τ × Build :=
  (⟨[], ty, st.nextId⟩, { st with nextId := st.nextId + 1 })

/-! ### Rows whose head needs no test -/

/-- The rows that a row becomes when variables and layers at its head are moved
to the environment and alternatives are split. -/
def removeHead (path : VarInfo τ) (branch : Nat) (rest : List (Pat τ)) :
    Pat τ → Env τ → List (Row τ)
  | .varPat x, env => [⟨.wildPat x.ty :: rest, branch, env.insert x path⟩]
  | .layerPat (.varPat x) pat, env =>
    removeHead path branch rest pat (env.insert x path)
  | .orPat left right, env =>
    removeHead path branch rest left env ++
      removeHead path branch rest right env
  | pat, env => [⟨pat :: rest, branch, env⟩]

def removeOtherPat (path : VarInfo τ) : List (Row τ) → List (Row τ)
  | [] => []
  | ⟨[], branch, env⟩ :: rows => ⟨[], branch, env⟩ :: rows
  | ⟨pat :: rest, branch, env⟩ :: rows =>
    removeHead path branch rest pat env ++ removeOtherPat path rows

/-! ### The branches of a column -/

/-- The rows of each constant of the column, and those of the others. -/
def constBranches :
    List (Row τ) → Except Failure (List (Const × List (Row τ)) × List (Row τ))
  | [] => .ok ([], [])
  | ⟨.constPat c _ :: rule, branch, env⟩ :: rows => do
      let (branches, defBranch) ← constBranches rows
      let old := ((KeyedList.find id c branches).map Prod.snd).getD defBranch
      .ok (KeyedList.insert id c (⟨rule, branch, env⟩ :: old) branches,
        defBranch)
  | ⟨.wildPat _ :: rule, branch, env⟩ :: rows => do
      let (branches, defBranch) ← constBranches rows
      let row : Row τ := ⟨rule, branch, env⟩
      .ok (KeyedList.mapValues (row :: ·) branches, row :: defBranch)
  | _ :: _ => .error (.bug "match comp, in makeEqTree")

/-- Put a wildcard of the column's type before the rows of a branch. -/
def addWild (rule : List (Pat τ)) (branch : Nat) (env : Env τ) :
    List (Row τ) → Except Failure (List (Row τ))
  | ⟨pat :: rest, b, e⟩ :: rows =>
    .ok (⟨.wildPat (getTyInPat pat) :: rule, branch, env⟩ ::
      ⟨pat :: rest, b, e⟩ :: rows)
  | _ => .error (.bug "match comp, in makeTagTree")

def addWildAll {K : Type} (rule : List (Pat τ)) (branch : Nat) (env : Env τ) :
    List (K × List (Row τ)) → Except Failure (List (K × List (Row τ)))
  | [] => .ok []
  | (key, rows) :: rest => do
      let rows ← addWild rule branch env rows
      let rest ← addWildAll rule branch env rest
      .ok ((key, rows) :: rest)

/-- The rows of each constructor of the column, and those of the others.  How a
pattern is read as a constructor with an argument is a parameter. -/
def conBranches {K κ : Type} [DecidableEq κ] (key : K → κ)
    (readCon : Pat τ → Option (K × Pat τ)) :
    List (Row τ) → Except Failure (List (K × List (Row τ)) × List (Row τ))
  | [] => .ok ([], [])
  | ⟨[], _, _⟩ :: _ => .error (.bug "match comp, in makeTagTree")
  | ⟨pat :: rule, branch, env⟩ :: rows => do
      let (branches, defBranch) ← conBranches key readCon rows
      match readCon pat, pat with
      | some (con, argPat), _ =>
        let wildPat : Pat τ := .wildPat (getTyInPat argPat)
        let old := ((KeyedList.find key (key con) branches).map
          Prod.snd).getD
            (defBranch.map fun row =>
              ⟨wildPat :: row.pats, row.branch, row.env⟩)
        .ok (KeyedList.insert key con (⟨argPat :: rule, branch, env⟩ :: old)
          branches, defBranch)
      | none, .wildPat _ =>
        let branches ← addWildAll rule branch env branches
        .ok (branches, ⟨rule, branch, env⟩ :: defBranch)
      | none, _ => .error (.bug "match comp, in makeTagTree")

def readDataCon : Pat τ → Option (DataKey τ × Pat τ)
  | .dataConPat con instTyList hasArg arg _ =>
    some ((con, instTyList, hasArg), arg)
  | _ => none

def readExnCon : Pat τ → Option (ExnConKey τ × Pat τ)
  | .exnConPat exn hasArg arg _ => some ((exn, hasArg), arg)
  | _ => none

/-! ### The trees of a column -/

section Trees

-- the construction of the tree of a smaller matrix
variable (matchToTree : List (VarInfo τ) → List (Row τ) → Build →
  Except Failure (Tree τ × Build))

/-- Build the trees of the branches of a map. -/
def buildAll {K : Type}
    (build : List (Row τ) → Build → Except Failure (Tree τ × Build)) :
    List (K × List (Row τ)) → Build →
      Except Failure (List (K × Tree τ) × Build)
  | [], st => .ok ([], st)
  | (key, rows) :: rest, st => do
      let (tree, st) ← build rows st
      let (trees, st) ← buildAll build rest st
      .ok ((key, tree) :: trees, st)

def makeEqTree (path : VarInfo τ) (paths : List (VarInfo τ))
    (rows : List (Row τ)) (st : Build) :
    Except Failure (Tree τ × Build) := do
  let (branches, defBranch) ← constBranches rows
  let (trees, st) ← buildAll (matchToTree paths) branches st
  let (default, st) ← matchToTree paths defBranch st
  .ok (.eqNode path trees default, st)

/-- The tree of a branch whose first column is the constructor's argument. -/
def argTree (paths : List (VarInfo τ)) (rows : List (Row τ)) (st : Build) :
    Except Failure (Tree τ × Build) :=
  match rows with
  | ⟨pat :: _, _, _⟩ :: _ =>
    let (arg, st) := freshVar (getTyInPat pat) st
    matchToTree (arg :: paths) rows st
  | _ => .error (.bug "match comp, in makeTagTree")

def makeDataConTree (spans : Nat) (path : VarInfo τ) (paths : List (VarInfo τ))
    (rows : List (Row τ)) (st : Build) :
    Except Failure (Tree τ × Build) := do
  let (branches, defBranch) ← conBranches DataKey.id readDataCon rows
  let (trees, st) ← buildAll (argTree matchToTree paths) branches st
  if branches.length = spans then .ok (.dataConNode path trees .emptyNode, st)
  else do
    let (default, st) ← matchToTree paths defBranch st
    .ok (.dataConNode path trees default, st)

/-- The spans of `exn` are infinite, so there is always a default. -/
def makeExnConTree (path : VarInfo τ) (paths : List (VarInfo τ))
    (rows : List (Row τ)) (st : Build) :
    Except Failure (Tree τ × Build) := do
  let (branches, defBranch) ← conBranches ExnConKey.key readExnCon rows
  let (trees, st) ← buildAll (argTree matchToTree paths) branches st
  let (default, st) ← matchToTree paths defBranch st
  .ok (.exnConNode path trees default, st)

/-- The row under the only field of a record. -/
def onlyField (fieldTy : τ) : Row τ → Except Failure (Row τ)
  | ⟨.recPat [(_, pat)] _ :: rule, branch, env⟩ =>
    .ok ⟨pat :: rule, branch, env⟩
  | ⟨.wildPat _ :: rule, branch, env⟩ =>
    .ok ⟨.wildPat fieldTy :: rule, branch, env⟩
  | _ => .error (.bug "match comp, in makeNRecTree")

def makeNRecTree (label : String) (fieldTy : τ) (path : VarInfo τ)
    (paths : List (VarInfo τ)) (rows : List (Row τ)) (st : Build) :
    Except Failure (Tree τ × Build) := do
  let (arg, st) := freshVar fieldTy st
  let rows ← rows.mapM (onlyField fieldTy)
  let (child, st) ← matchToTree (arg :: paths) rows st
  .ok (.recNode path label child, st)

/-- The row under the first field of a record, with the other fields after
it. -/
def firstField (recordTy fieldTy : τ) : Row τ → Except Failure (Row τ)
  | ⟨.recPat ((_, pat) :: fields) ty :: rule, branch, env⟩ =>
    .ok ⟨pat :: .recPat fields ty :: rule, branch, env⟩
  | ⟨.wildPat _ :: rule, branch, env⟩ =>
    .ok ⟨.wildPat fieldTy :: .wildPat recordTy :: rule, branch, env⟩
  | _ => .error (.bug "match comp, in makeIRecTree")

def makeIRecTree (recordTy : τ) (label : String) (fieldTy : τ)
    (path : VarInfo τ) (paths : List (VarInfo τ)) (rows : List (Row τ))
    (st : Build) :
    Except Failure (Tree τ × Build) := do
  let (arg, st) := freshVar fieldTy st
  let rows ← rows.mapM (firstField recordTy fieldTy)
  let (child, st) ← matchToTree (arg :: path :: paths) rows st
  .ok (.recNode path label child, st)

def dropHead : Row τ → Except Failure (Row τ)
  | ⟨_ :: rule, branch, env⟩ => .ok ⟨rule, branch, env⟩
  | _ => .error (.bug "makeUnivTree")

def makeUnivTree (path : VarInfo τ) (paths : List (VarInfo τ))
    (rows : List (Row τ)) (st : Build) :
    Except Failure (Tree τ × Build) := do
  let rows ← rows.mapM dropHead
  let (child, st) ← matchToTree paths rows st
  .ok (.univNode path child, st)

end Trees

/-- The kind of node that the first row with a test asks for. -/
inductive RootKind (τ : Type) where
  | univ
  | eq
  | dataCon (spans : Nat)
  | exnCon
  | unit
  | nrec (label : String) (fieldTy : τ)
  | irec (recordTy : τ) (label : String) (fieldTy : τ)

def decideRootNode (T : Types τ) : List (Row τ) → Except Failure (RootKind τ)
  | [] => .ok .univ
  | ⟨.wildPat _ :: _, _, _⟩ :: rows => decideRootNode T rows
  | ⟨.constPat _ _ :: _, _, _⟩ :: _ => .ok .eq
  | ⟨.dataConPat con _ _ _ _ :: _, _, _⟩ :: _ => do
      let spans ← getTagNums T con
      .ok (.dataCon spans)
  | ⟨.exnConPat _ _ _ _ :: _, _, _⟩ :: _ => .ok .exnCon
  | ⟨.recPat [] _ :: _, _, _⟩ :: _ => .ok .unit
  | ⟨.recPat [(label, pat)] _ :: _, _, _⟩ :: _ =>
    .ok (.nrec label (getTyInPat pat))
  | ⟨.recPat ((label, pat) :: _) recTy :: _, _, _⟩ :: _ =>
    .ok (.irec recTy label (getTyInPat pat))
  | _ => .error (.bug "match comp, decideRootNode")

def RootKind.make (kind : RootKind τ)
    (matchToTree : List (VarInfo τ) → List (Row τ) → Build →
      Except Failure (Tree τ × Build))
    (path : VarInfo τ) (paths : List (VarInfo τ)) (rows : List (Row τ))
    (st : Build) :
    Except Failure (Tree τ × Build) :=
  match kind with
  | .univ => makeUnivTree matchToTree path paths rows st
  | .eq => makeEqTree matchToTree path paths rows st
  | .dataCon spans => makeDataConTree matchToTree spans path paths rows st
  | .exnCon => makeExnConTree matchToTree path paths rows st
  | .unit => makeUnivTree matchToTree path paths rows st
  | .nrec label fieldTy =>
    makeNRecTree matchToTree label fieldTy path paths rows st
  | .irec recordTy label fieldTy =>
    makeIRecTree matchToTree recordTy label fieldTy path paths rows st

/-- The tree of a matrix over the variables that hold the columns, with a bound
on the depth of the recursion. -/
def matchToTree (T : Types τ) (branchEnv : List Nat) :
    Nat → List (VarInfo τ) → List (Row τ) → Build →
      Except Failure (Tree τ × Build)
  | 0, _, _, _ => .error .outOfFuel
  | _ + 1, _, [], st => .ok (.emptyNode, { st with notExhaustive := true })
  | _ + 1, [], ⟨[], branch, env⟩ :: _, st =>
    if branch ∈ branchEnv then
      .ok (.leafNode branch env, { st with used := branch :: st.used })
    else
      .error
        (.bug "incrementUseCount in MatchCompiler: BranchId not found")
  | _ + 1, [], ⟨_ :: _, _, _⟩ :: _, _ => .error .empty
  | fuel + 1, path :: paths, row :: rows, st => do
      let rows := removeOtherPat path (row :: rows)
      let kind ← decideRootNode T rows
      kind.make (matchToTree T branchEnv fuel) path paths rows st

/-- The matrix of the rules: every rule gets a branch of its own, the last rule
the first number. -/
def makeRules {β : Type} (firstId : Nat) :
    List (List (Pat τ) × β) → List (Nat × β) × List (Row τ)
  | [] => ([], [])
  | (pats, body) :: rules =>
    let (branchEnv, rows) := makeRules firstId rules
    let branchId := firstId + rules.length
    ((branchId, body) :: branchEnv, ⟨pats, branchId, []⟩ :: rows)

end MatchCompiler

end SmlSharp
