/-
The essentially free type variables of a type, and the generalizer.
-/
import SmlSharp.Lib.Except
import SmlSharp.TypesBasics.Syntax

namespace SmlSharp

namespace TypesBasics

/-- `(i, set, indexMap)` of the source: the variables of the set in the order of
their indices, the first `i` numbers. -/
abbrev Tvset := List Nat

section Traverse

variable (store : Store)

mutual

def traverseTy : Nat → Ty → Tvset → Except Exn Tvset
  | 0, _, _ => .error .outOfFuel
  | n + 1, ty, env =>
    match ty with
    | .singletonTy _ => .error (.bug "SINGLETONty to EFTV")
    | .backendTy => .error (.bug "BACKENDty to EFTV")
    | .errorTy => .ok env
    | .dummyTy _ kind => traverseKind n kind env
    | .existTy _ kind => traverseKind n kind env
    | .tyvarTy r =>
      match store.get r with
      | .substituted ty => traverseTy n ty env
      | .tvar tvKind =>
        match tvKind.kind.tvarKind with
        | .oconstKind _ => .ok env
        | _ =>
          if r ∈ env then .ok env
          else traverseKind n tvKind.kind (env ++ [r])
    | .boundvarTy _ => .ok env
    | .funmTy tyList ty => do
        let env ← tyList.foldlM (fun env ty => traverseTy n ty env) env
        traverseTy n ty env
    | .recordTy fields => fields.foldlM (fun env field => traverseTy n field.2 env) env
    | .constructTy _ args => args.foldlM (fun env ty => traverseTy n ty env) env
    | .polyTy boundtvars _ body => do
        let env ← boundtvars.foldlM (fun env boundtvar => traverseKind n boundtvar.2 env) env
        traverseTy n body env

def traverseKind : Nat → Kind → Tvset → Except Exn Tvset
  | 0, _, _ => .error .outOfFuel
  | n + 1, kind, env =>
    match kind.tvarKind with
    | .univ => .ok env
    | .record fields => fields.foldlM (fun env field => traverseTy n field.2 env) env
    | .oconstKind _ => .error (.bug "OCONSTkind to travseTvKind")
    | .oprimKind instances operators => do
        let env ← instances.foldlM (fun env ty => traverseTy n ty env) env
        operators.foldlM (fun env operator => traverseOprimSelector n operator env) env

def traverseOprimSelector : Nat → OprimSelector → Tvset → Except Exn Tvset
  | 0, _, _ => .error .outOfFuel
  | n + 1, .selector _ _ overload, env => traverseOverloadMatch n overload env

def traverseOverloadMatch : Nat → OverloadMatch → Tvset → Except Exn Tvset
  | 0, _, _ => .error .outOfFuel
  | n + 1, overload, env =>
    match overload with
    | .overloadExvar _ none => .ok env
    | .overloadExvar _ (some instTyList) =>
      instTyList.foldlM (fun env ty => traverseTy n ty env) env
    | .overloadPrim _ none => .ok env
    | .overloadPrim _ (some instTyList) =>
      instTyList.foldlM (fun env ty => traverseTy n ty env) env
    | .overloadCase ty rules => do
        let env ← traverseTy n ty env
        rules.foldlM (fun env rule => traverseOverloadMatch n rule.2 env) env

end

variable (fuel : Nat)

def eftvTy (ty : Ty) : Except Exn Tvset := traverseTy store fuel ty []

/-- The intersection of the two sets is not empty. -/
def meets (set set' : Tvset) : Bool := set.any (· ∈ set')

/-- One turn of `traverse`: a constraint with a variable of the set adds all of
its variables. -/
def traverseConstraint (env : Tvset) : Constraint → Except Exn Tvset
  | .join res arg1 arg2 _ => do
      let newTyset1 ← eftvTy store fuel arg1
      let newTyset2 ← eftvTy store fuel arg2
      let newTyset3 ← eftvTy store fuel res
      if meets env newTyset1 || meets env newTyset2 || meets env newTyset3 then do
        let env ← traverseTy store fuel res env
        let env ← traverseTy store fuel arg2 env
        traverseTy store fuel arg1 env
      else return env

/-- The constraints are traversed until nothing is new. -/
def traverseConstraints (constraints : List Constraint) : Nat → Tvset → Except Exn Tvset
  | 0, _ => .error .outOfFuel
  | n + 1, tyset => do
      let newTyset ← constraints.foldlM (traverseConstraint store fuel) tyset
      if newTyset.all (· ∈ tyset) then return newTyset
      else traverseConstraints constraints n newTyset

def eftv (ty : Ty) (constraints : List Constraint) : Except Exn Tvset := do
  let env ← eftvTy store fuel ty
  traverseConstraints store fuel constraints fuel env

end Traverse

/-! ### The generalizer -/

def youngerDepth (contextDepth tyvarDepth : Int) : Bool := decide (contextDepth ≤ tyvarDepth)

structure Generalized where
  boundEnv : List (Nat × Kind)
  removedTyIds : Tvset
  boundConstraints : List Constraint

/-- The store and the number of the next bound type variable. -/
structure State where
  store : Store
  next : Nat

section Generalizer

variable (store : Store) (contextLambdaDepth : Int)

def isFree (r : Nat) : Except Exn Bool :=
  match store.get r with
  | .tvar ⟨lambdaDepth, kind, _⟩ =>
    match kind.tvarKind with
    | .oconstKind _ => .error (.bug "OCONSTkind ty to generalizer")
    | _ => .ok (youngerDepth contextLambdaDepth lambdaDepth)
  | .substituted _ => .error (.bug "non TVAR found in freeTvs in generalizer")

def filterFree : Tvset → Except Exn Tvset
  | [] => .ok []
  | r :: freeTvs => do
      let free ← isFree store contextLambdaDepth r
      let newFreeTvs ← filterFree freeTvs
      return if free then r :: newFreeTvs else newFreeTvs

variable (fuel : Nat) (newFreeTvs : Tvset)

/-- The union is of the first set and twice the second one. -/
def toBeBound : Constraint → Except Exn Bool
  | .join res ty1 ty2 _ => do
      let tvarSet1 ← eftvTy store fuel res
      let tvarSet2 ← eftvTy store fuel ty1
      let _tvarSet3 ← eftvTy store fuel ty2
      let tvarSet := tvarSet1 ++ (tvarSet2 ++ tvarSet2)
      return tvarSet.all (· ∈ newFreeTvs)

def filterBound : List Constraint → Except Exn (List Constraint)
  | [] => .ok []
  | c :: constraints => do
      let bound ← toBeBound store fuel newFreeTvs c
      let bcs ← filterBound constraints
      return if bound then c :: bcs else bcs

end Generalizer

/-- Every variable becomes a bound type variable of its own. -/
def bindTvs : List Nat → State → List (Nat × Kind) → Except Exn (State × List (Nat × Kind))
  | [], state, btvs => .ok (state, btvs)
  | r :: rs, state, btvs =>
    match state.store.get r with
    | .tvar tvKind =>
      bindTvs rs
        ⟨state.store.set r (.substituted (.boundvarTy state.next)), state.next + 1⟩
        (btvs ++ [(state.next, tvKind.kind)])
    | .substituted _ => .error (.bug "generalizeTy")

def generalizer (fuel : Nat) (ty : Ty) (constraints : List Constraint)
    (contextLambdaDepth : Int) (state : State) : Except Exn (Generalized × State) := do
  let freeTvs ← eftv state.store fuel ty constraints
  let newFreeTvs ← filterFree state.store contextLambdaDepth freeTvs
  if newFreeTvs.isEmpty then return (⟨[], [], []⟩, state)
  else do
    let bcs ← filterBound state.store fuel newFreeTvs constraints
    let (state, btvs) ← bindTvs newFreeTvs state []
    return (⟨btvs, newFreeTvs, bcs⟩, state)

end TypesBasics

end SmlSharp
