/-
The equality flags of a group of datatypes: a flag is taken away when the
argument of a constructor does not admit equality, until no flag changes.
-/
import SmlSharp.NameEvaluation.IDCalc
import SmlSharp.Lib.Sweep

namespace SmlSharp.NameEvaluation

/-- The type function that a cell stands for, unless it is a type name. -/
def Tfunkind.refersTo : Tfunkind → Option Tfun
  | .realized _ tfun => some tfun
  | .instantiated _ tfun => some tfun
  | .funDty tfun => some tfun
  | .tfunDty .. => none
  | .tfvSpec .. => none
  | .tfvDty .. => none

def Refers (heap : Heap) (tfun' tfun : Tfun) : Prop :=
  ∃ tfv, tfun = .tfunVar tfv ∧ (heap tfv).refersTo = some tfun'

/-- A heap in which no cell stands for itself, through however many others. -/
structure AcyclicHeap where
  heap : Heap
  wellFounded : WellFounded (Refers heap)

/-- What the test takes from outside: the equality type variables, and the ids
of the array and the reference type. -/
structure EqBase where
  isEq : TvarId → Bool
  isEqFree : TvarId → Bool
  arrayTyCon : TypId
  refTyCon : TypId

/-- `tfunId` of the equality test. -/
def eqTfunId (heap : AcyclicHeap) (tfun : Tfun) : Option TypId :=
  match tfun with
  | .tfunDef .. => none
  | .tfunVar tfv =>
    match _hcell : heap.heap tfv with
    | .tfvSpec id _ _ => some id
    | .tfvDty id _ _ _ _ => some id
    | .tfunDty id _ _ _ _ _ => some id
    | .funDty tfun => eqTfunId heap tfun
    | .realized _ tfun => eqTfunId heap tfun
    | .instantiated _ tfun => eqTfunId heap tfun
termination_by heap.wellFounded.wrap tfun
decreasing_by
  all_goals exact ⟨tfv, rfl, by rw [_hcell]; rfl⟩

section AdmitEqMaker

variable (heap : AcyclicHeap) (base : EqBase) (tfuneq : Tfun → Bool) (tvarList : List Tvar)

def eqtvar (tvar : Tvar) : Bool :=
  tvarList.any (fun tvar' => tvar'.id == tvar.id) || base.isEq tvar.id

/-- References and arrays admit equality whatever they hold. -/
def isRefOrArray (tfun : Tfun) : Bool :=
  match eqTfunId heap tfun with
  | some id => id == base.arrayTyCon || id == base.refTyCon
  | none => false

mutual

def eqTy : Ty → Except Failure Bool
  | .tyWild => .ok false
  | .tyError => .ok false
  | .tyVar tvar => .ok (eqtvar base tvarList tvar)
  | .tyFreeTyvar id => .ok (base.isEqFree id)
  | .tyRecord _ fields => eqFields fields
  | .tyConstruct tfun args =>
    if isRefOrArray heap base tfun then .ok true
    else if tfuneq tfun then eqList args
    else .ok false
  | .tyFunM _ _ => .ok false
  | .tyPoly _ _ => .error .bug
  | .inferredTy => .error .bug

def eqFields : List (String × Ty) → Except Failure Bool
  | [] => .ok true
  | (_, ty) :: fields => do
      if ← eqTy ty then eqFields fields else .ok false

def eqList : List Ty → Except Failure Bool
  | [] => .ok true
  | ty :: rest => do
      if ← eqTy ty then eqList rest else .ok false

end

/-- `admitEqList` of one datatype; a constructor without an argument admits
equality. -/
def admitEqList : List (Option Ty) → Except Failure Bool
  | [] => .ok true
  | none :: rest => admitEqList rest
  | some ty :: rest => do
      if ← eqTy heap base tfuneq tvarList ty then admitEqList rest else .ok false

end AdmitEqMaker

/-- The address of an `admitsEqRef`. -/
abbrev EqRef := Nat

structure Datadecl where
  id : TypId
  admitsEqRef : EqRef
  args : Formals
  conSpec : ConSpec

def eqEnv (datadeclList : List Datadecl) : List (TypId × EqRef) :=
  datadeclList.map fun datadecl => (datadecl.id, datadecl.admitsEqRef)

/-- `tfunAdmitsEq` of `setEq`: the flag of a datatype of the group is the
contents of its reference. -/
def groupAdmitsEq (heap : AcyclicHeap) (datadeclList : List Datadecl) (refs : EqRef → Bool)
    (tfun : Tfun) : Bool :=
  match tfun with
  | .tfunDef admitsEq _ _ => admitsEq
  | .tfunVar tfv =>
    match _hcell : heap.heap tfv with
    | .tfvSpec _ admitsEq _ => admitsEq
    | .tfvDty id admitsEq _ _ _ =>
      match (eqEnv datadeclList).lookup id with
      | some eqref => refs eqref
      | none => admitsEq
    | .tfunDty id admitsEq _ _ _ _ =>
      match (eqEnv datadeclList).lookup id with
      | some eqref => refs eqref
      | none => admitsEq
    | .realized _ tfun => groupAdmitsEq heap datadeclList refs tfun
    | .instantiated _ tfun => groupAdmitsEq heap datadeclList refs tfun
    | .funDty tfun => groupAdmitsEq heap datadeclList refs tfun
termination_by heap.wellFounded.wrap tfun
decreasing_by
  all_goals exact ⟨tfv, rfl, by rw [_hcell]; rfl⟩

/-- The test of one datatype under the flags in the references. -/
def datadeclTest (heap : AcyclicHeap) (base : EqBase) (datadeclList : List Datadecl)
    (refs : EqRef → Bool) (datadecl : Datadecl) : Except Failure Bool :=
  admitEqList heap base (groupAdmitsEq heap datadeclList refs) datadecl.args
    (datadecl.conSpec.map Prod.snd)

/-- The contents of the references after `setEq`, if at most `fuel` rounds over
the group are needed. -/
def setEq (heap : AcyclicHeap) (base : EqBase) (fuel : Nat) (refs : EqRef → Bool)
    (datadeclList : List Datadecl) : Except Failure (EqRef → Bool) :=
  sweeps Datadecl.admitsEqRef (datadeclTest heap base datadeclList) .diverges datadeclList fuel
    refs

end SmlSharp.NameEvaluation
