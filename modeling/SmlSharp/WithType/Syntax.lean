/-
Types as the parser hands them over, and types up to the names of their bound
variables.
-/
import Mathlib.Data.List.Basic

namespace SmlSharp

namespace WithType

structure Tvar (ν : Type) where
  symbol : ν
  isEq : Bool
deriving DecidableEq

mutual

/-- The types of the abstract syntax, over the names of their variables. -/
inductive Ty (ν : Type) where
  | wild
  | id (tvar : Tvar ν)
  | freeId (freeTvar : Tvar ν) (tvarKind : TvarKind ν)
  | record (ifFlex : Bool) (fields : List (String × Ty ν))
  | construct (args : List (Ty ν)) (tyCon : List String)
  | tuple (tys : List (Ty ν))
  | func (dom ran : Ty ν)
  | poly (tvars : List (Tvar ν × TvarKind ν)) (body : Ty ν)

inductive TvarKind (ν : Type) where
  | univ (properties : List String)
  | recKind (properties : List String) (recordKind : List (String × Ty ν))

end

abbrev KindedTvar (ν : Type) := Tvar ν × TvarKind ν

/-- `type` declarations after `withtype`. -/
structure TypBind where
  tyvars : List (Tvar String)
  symbol : String
  ty : Ty String

structure ConBind where
  symbol : String
  ty : Option (Ty String)

structure DatBind where
  tyvars : List (Tvar String)
  symbol : String
  conbind : List ConBind

/-- The names that a polytype binds. -/
def boundNames {ν : Type} (tvars : List (KindedTvar ν)) : List ν :=
  tvars.map fun tvar => tvar.1.symbol

/-! ### Bound variables without names -/

/-- A variable is a bound one, by its place among the binders around it, or a
free one. -/
def canonName (ctx : List String) (symbol : String) : Nat ⊕ String :=
  match ctx.idxOf? symbol with
  | some i => .inl i
  | none => .inr symbol

def canonTvar (ctx : List String) (tvar : Tvar String) : Tvar (Nat ⊕ String) :=
  ⟨canonName ctx tvar.symbol, tvar.isEq⟩

mutual

/-- A type without the names of its bound variables. -/
def Ty.canon (ctx : List String) : Ty String → Ty (Nat ⊕ String)
  | .wild => .wild
  | .id tvar => .id (canonTvar ctx tvar)
  | .freeId tvar kind => .freeId (canonTvar ctx tvar) (kind.canon ctx)
  | .record ifFlex fields => .record ifFlex (canonFields ctx fields)
  | .construct args tyCon => .construct (canonTys ctx args) tyCon
  | .tuple tys => .tuple (canonTys ctx tys)
  | .func dom ran => .func (dom.canon ctx) (ran.canon ctx)
  | .poly tvars body =>
    .poly (canonTvars (boundNames tvars ++ ctx) tvars)
      (body.canon (boundNames tvars ++ ctx))

def canonTys (ctx : List String) : List (Ty String) → List (Ty (Nat ⊕ String))
  | [] => []
  | ty :: tys => ty.canon ctx :: canonTys ctx tys

def canonFields (ctx : List String) :
    List (String × Ty String) → List (String × Ty (Nat ⊕ String))
  | [] => []
  | (label, ty) :: fields => (label, ty.canon ctx) :: canonFields ctx fields

def TvarKind.canon (ctx : List String) :
    TvarKind String → TvarKind (Nat ⊕ String)
  | .univ properties => .univ properties
  | .recKind properties fields => .recKind properties (canonFields ctx fields)

/-- The kinds of bound variables, in the scope of the binder. -/
def canonTvars (ctx : List String) :
    List (KindedTvar String) → List (KindedTvar (Nat ⊕ String))
  | [] => []
  | (tvar, kind) :: tvars =>
    (⟨.inl 0, tvar.isEq⟩, kind.canon ctx) :: canonTvars ctx tvars

end

/-- Equality of types up to renaming of bound variables. -/
def SameUpToRenaming (left right : Ty String) : Prop :=
  left.canon [] = right.canon []

theorem canonTvar_injective {ctx : List String} {left right : Tvar String}
    (heq : canonTvar ctx left = canonTvar ctx right) : left = right := by
  obtain ⟨a, e⟩ := left
  obtain ⟨b, f⟩ := right
  obtain ⟨hname, rfl⟩ : canonName ctx a = canonName ctx b ∧ e = f := by
    simpa [canonTvar] using heq
  unfold canonName at hname
  cases ha : ctx.idxOf? a with
  | none =>
    cases hb : ctx.idxOf? b with
    | none =>
      obtain rfl : a = b := by simpa [ha, hb] using hname
      rfl
    | some j => simp [ha, hb] at hname
  | some i =>
    cases hb : ctx.idxOf? b with
    | none => simp [ha, hb] at hname
    | some j =>
      obtain rfl : i = j := by simpa [ha, hb] using hname
      obtain ⟨_, hget, -⟩ := List.idxOf?_eq_some_iff.mp ha
      obtain ⟨_, hget', -⟩ := List.idxOf?_eq_some_iff.mp hb
      obtain rfl : a = b := by simpa using hget.symm.trans hget'
      rfl

/-! ### Sizes -/

section Size

variable {ν : Type}

mutual

def Ty.size : Ty ν → Nat
  | .wild => 1
  | .id _ => 1
  | .freeId _ kind => 1 + kind.size
  | .record _ fields => 1 + sizeFields fields
  | .construct args _ => 1 + sizeTys args
  | .tuple tys => 1 + sizeTys tys
  | .func dom ran => 1 + dom.size + ran.size
  | .poly tvars body => 1 + sizeTvars tvars + body.size

def sizeTys : List (Ty ν) → Nat
  | [] => 0
  | ty :: tys => ty.size + sizeTys tys

def sizeFields : List (String × Ty ν) → Nat
  | [] => 0
  | (_, ty) :: fields => ty.size + sizeFields fields

def TvarKind.size : TvarKind ν → Nat
  | .univ _ => 0
  | .recKind _ fields => sizeFields fields

def sizeTvars : List (KindedTvar ν) → Nat
  | [] => 0
  | (_, kind) :: tvars => kind.size + sizeTvars tvars

end

theorem size_le_sizeTys {ty : Ty ν} {tys : List (Ty ν)} (hmem : ty ∈ tys) :
    ty.size ≤ sizeTys tys := by
  induction tys with
  | nil => simp at hmem
  | cons head tys ih =>
    simp only [sizeTys]
    rcases List.mem_cons.mp hmem with rfl | hmem
    · omega
    · have hle := ih hmem
      omega

end Size

mutual

theorem Ty.size_canon (ctx : List String) (ty : Ty String) :
    (ty.canon ctx).size = ty.size := by
  cases ty with
  | wild => rfl
  | id tvar => rfl
  | freeId tvar kind => simp [Ty.canon, Ty.size, TvarKind.size_canon ctx kind]
  | record ifFlex fields =>
    simp [Ty.canon, Ty.size, sizeFields_canon ctx fields]
  | construct args tyCon => simp [Ty.canon, Ty.size, sizeTys_canon ctx args]
  | tuple tys => simp [Ty.canon, Ty.size, sizeTys_canon ctx tys]
  | func dom ran =>
    simp [Ty.canon, Ty.size, Ty.size_canon ctx dom, Ty.size_canon ctx ran]
  | poly tvars body =>
    simp [Ty.canon, Ty.size, sizeTvars_canon, Ty.size_canon _ body]

theorem sizeTys_canon (ctx : List String) (tys : List (Ty String)) :
    sizeTys (canonTys ctx tys) = sizeTys tys := by
  cases tys with
  | nil => rfl
  | cons ty tys =>
    simp [canonTys, sizeTys, Ty.size_canon ctx ty, sizeTys_canon ctx tys]

theorem sizeFields_canon (ctx : List String)
    (fields : List (String × Ty String)) :
    sizeFields (canonFields ctx fields) = sizeFields fields := by
  cases fields with
  | nil => rfl
  | cons field fields =>
    obtain ⟨label, ty⟩ := field
    simp [canonFields, sizeFields, Ty.size_canon ctx ty,
      sizeFields_canon ctx fields]

theorem TvarKind.size_canon (ctx : List String) (kind : TvarKind String) :
    (kind.canon ctx).size = kind.size := by
  cases kind with
  | univ properties => rfl
  | recKind properties fields =>
    simp [TvarKind.canon, TvarKind.size, sizeFields_canon ctx fields]

theorem sizeTvars_canon (ctx : List String) (tvars : List (KindedTvar String)) :
    sizeTvars (canonTvars ctx tvars) = sizeTvars tvars := by
  cases tvars with
  | nil => rfl
  | cons tvar tvars =>
    obtain ⟨tvar, kind⟩ := tvar
    simp [canonTvars, sizeTvars, TvarKind.size_canon ctx kind,
      sizeTvars_canon ctx tvars]

end

end WithType

end SmlSharp
