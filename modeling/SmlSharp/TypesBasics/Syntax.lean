/-
The types of the type checker: syntax trees whose type variables are reference
cells, and the store of the cells.
-/
import Mathlib.Data.List.Basic
import SmlSharp.RuntimeTypes

namespace SmlSharp

namespace TypesBasics

structure Properties where
  reify : Bool
  boxed : Bool
  unboxed : Bool
  eq : Bool
deriving DecidableEq

def emptyProperties : Properties := ⟨false, false, false, false⟩

structure DynamicKind where
  tag : RuntimeTypes.TagProp
  size : RuntimeTypes.SizeProp
  record : List (String × Nat)

structure Utvar where
  symbol : String
  id : Nat
  isEq : Bool
  lifted : Bool

mutual

inductive Ty where
  | singletonTy (sty : SingletonTy)
  | backendTy
  | errorTy
  | dummyTy (id : Nat) (kind : Kind)
  | existTy (id : Nat) (kind : Kind)
  /-- A type variable: the number of its cell in the store. -/
  | tyvarTy (r : Nat)
  | boundvarTy (id : Nat)
  | funmTy (tyList : List Ty) (ty : Ty)
  | recordTy (fields : List (String × Ty))
  | constructTy (tyCon : TyCon) (args : List Ty)
  | polyTy (boundtvars : List (Nat × Kind)) (constraints : List Constraint) (body : Ty)

inductive Kind where
  | kind (tvarKind : TvarKind) (properties : Properties) (dynamicKind : Option DynamicKind)

inductive TvarKind where
  | oconstKind (tyList : List Ty)
  | oprimKind (instances : List Ty) (operators : List OprimSelector)
  | univ
  | record (fields : List (String × Ty))

inductive OprimSelector where
  | selector (oprimId : Nat) (longsymbol : String) (overload : OverloadMatch)

inductive OverloadMatch where
  | overloadExvar (exVarInfo : String) (instTyList : Option (List Ty))
  | overloadPrim (primInfo : String) (instTyList : Option (List Ty))
  | overloadCase (ty : Ty) (rules : List (Nat × OverloadMatch))

inductive SingletonTy where
  | instcodeTy (selector : OprimSelector)
  | indexTy (label : String) (ty : Ty)
  | tagTy (ty : Ty)
  | sizeTy (ty : Ty)
  | reifyTy (ty : Ty)

inductive TyCon where
  | tyCon (id : Nat) (longsymbol : String) (admitsEq : Bool) (arity : Nat)
      (extraArgs : List Ty) (dtyKind : DtyKind)

inductive DtyKind where
  | dty (property : String)
  | opaqueDty (opaqueRep : OpaqueRep) (revealKey : Nat)
  | interfaceDty (opaqueRep : OpaqueRep)

inductive OpaqueRep where
  | tycon (tyCon : TyCon)
  | tfundef (admitsEq : Bool) (arity : Nat) (polyTy : Ty)

inductive Constraint where
  | join (res arg1 arg2 : Ty) (loc : Nat)

end

def Kind.tvarKind : Kind → TvarKind
  | .kind tvarKind _ _ => tvarKind

def univKind : Kind := .kind .univ emptyProperties none

/-! ### The store -/

/-- A type variable, whose identifier is the number of its cell. -/
structure TvKind where
  lambdaDepth : Int
  kind : Kind
  utvarOpt : Option Utvar

inductive TvState where
  | tvar (tvKind : TvKind)
  | substituted (ty : Ty)

/-- The cells in the order in which they were made. -/
abbrev Store := List TvState

/-- No type mentions a cell that has not been made. -/
def Store.get (store : Store) (r : Nat) : TvState := store.getD r (.substituted .errorTy)

section Store

variable {store : Store}

theorem lt_length_of_tvar {r : Nat} {tvKind : TvKind} (hget : store.get r = .tvar tvKind) :
    r < store.length := by
  by_contra hge
  rw [Store.get, List.getD, List.getElem?_eq_none (Nat.le_of_not_lt hge)] at hget
  nomatch hget

theorem get_set_self {r : Nat} (hr : r < store.length) (cell : TvState) :
    Store.get (store.set r cell) r = cell := by
  simp [Store.get, List.getD, hr]

theorem get_set_ne {r v : Nat} (hne : r ≠ v) (cell : TvState) :
    Store.get (store.set r cell) v = store.get v := by
  simp [Store.get, List.getD, hne]

end Store

inductive Exn where
  | bug (message : String)
  /-- the recursion was cut off -/
  | outOfFuel
deriving DecidableEq

/-! ### Finite types -/

section Within

variable (store : Store) (backend : Prop)

/- With the links of its variables followed, a type has at most this depth, and no
types of the back end unless they are let in; a variable without a link has no
parts. -/
mutual

def Ty.within : Nat → Ty → Prop
  | 0, _ => False
  | n + 1, ty =>
    match ty with
    | .singletonTy sty => SingletonTy.within n sty
    | .backendTy => backend
    | .errorTy => True
    | .dummyTy _ kind => Kind.within n kind
    | .existTy _ kind => Kind.within n kind
    | .tyvarTy r =>
      match store.get r with
      | .substituted ty => Ty.within n ty
      | .tvar _ => True
    | .boundvarTy _ => True
    | .funmTy tyList ty => (∀ arg ∈ tyList, Ty.within n arg) ∧ Ty.within n ty
    | .recordTy fields => ∀ field ∈ fields, Ty.within n field.2
    | .constructTy tyCon args => TyCon.within n tyCon ∧ ∀ arg ∈ args, Ty.within n arg
    | .polyTy boundtvars constraints body =>
      (∀ boundtvar ∈ boundtvars, Kind.within n boundtvar.2) ∧
        (∀ c ∈ constraints, Constraint.within n c) ∧ Ty.within n body

def Kind.within : Nat → Kind → Prop
  | 0, _ => False
  | n + 1, kind => TvarKind.within n kind.tvarKind

def TvarKind.within : Nat → TvarKind → Prop
  | 0, _ => False
  | n + 1, tvarKind =>
    match tvarKind with
    | .oconstKind tyList => ∀ ty ∈ tyList, Ty.within n ty
    | .oprimKind instances operators =>
      (∀ ty ∈ instances, Ty.within n ty) ∧
        ∀ operator ∈ operators, OprimSelector.within n operator
    | .univ => True
    | .record fields => ∀ field ∈ fields, Ty.within n field.2

def OprimSelector.within : Nat → OprimSelector → Prop
  | 0, _ => False
  | n + 1, .selector _ _ overload => OverloadMatch.within n overload

def OverloadMatch.within : Nat → OverloadMatch → Prop
  | 0, _ => False
  | n + 1, overload =>
    match overload with
    | .overloadExvar _ instTyList => ∀ tyList ∈ instTyList, ∀ ty ∈ tyList, Ty.within n ty
    | .overloadPrim _ instTyList => ∀ tyList ∈ instTyList, ∀ ty ∈ tyList, Ty.within n ty
    | .overloadCase ty rules =>
      Ty.within n ty ∧ ∀ rule ∈ rules, OverloadMatch.within n rule.2

def SingletonTy.within : Nat → SingletonTy → Prop
  | 0, _ => False
  | n + 1, sty =>
    match sty with
    | .instcodeTy selector => OprimSelector.within n selector
    | .indexTy _ ty => Ty.within n ty
    | .tagTy ty => Ty.within n ty
    | .sizeTy ty => Ty.within n ty
    | .reifyTy ty => Ty.within n ty

def TyCon.within : Nat → TyCon → Prop
  | 0, _ => False
  | n + 1, .tyCon _ _ _ _ extraArgs dtyKind =>
    (∀ ty ∈ extraArgs, Ty.within n ty) ∧ DtyKind.within n dtyKind

def DtyKind.within : Nat → DtyKind → Prop
  | 0, _ => False
  | n + 1, dtyKind =>
    match dtyKind with
    | .dty _ => True
    | .opaqueDty opaqueRep _ => OpaqueRep.within n opaqueRep
    | .interfaceDty opaqueRep => OpaqueRep.within n opaqueRep

def OpaqueRep.within : Nat → OpaqueRep → Prop
  | 0, _ => False
  | n + 1, opaqueRep =>
    match opaqueRep with
    | .tycon tyCon => TyCon.within n tyCon
    | .tfundef _ _ polyTy => Ty.within n polyTy

def Constraint.within : Nat → Constraint → Prop
  | 0, _ => False
  | n + 1, .join res arg1 arg2 _ => Ty.within n res ∧ Ty.within n arg1 ∧ Ty.within n arg2

end

/-- No chain of parts and links is endless. -/
def Store.Acyclic : Prop := ∀ ty, ∃ n, Ty.within store True n ty

/-- What has a depth of at most `n` has one of at most `m` in the other store. -/
structure WithinLe (store' : Store) (n m : Nat) : Prop where
  ty : ∀ ty, Ty.within store backend n ty → Ty.within store' backend m ty
  kind : ∀ kind, Kind.within store backend n kind → Kind.within store' backend m kind
  tvarKind : ∀ tvarKind, TvarKind.within store backend n tvarKind →
    TvarKind.within store' backend m tvarKind
  selector : ∀ selector,
    OprimSelector.within store backend n selector → OprimSelector.within store' backend m selector
  overload : ∀ overload,
    OverloadMatch.within store backend n overload → OverloadMatch.within store' backend m overload
  singletonTy : ∀ sty, SingletonTy.within store backend n sty →
    SingletonTy.within store' backend m sty
  tyCon : ∀ tyCon, TyCon.within store backend n tyCon → TyCon.within store' backend m tyCon
  dtyKind : ∀ dtyKind, DtyKind.within store backend n dtyKind →
    DtyKind.within store' backend m dtyKind
  opaqueRep : ∀ rep, OpaqueRep.within store backend n rep → OpaqueRep.within store' backend m rep
  constraint : ∀ c, Constraint.within store backend n c → Constraint.within store' backend m c

variable {store} {backend} {store' : Store}

theorem WithinLe.zero (m : Nat) : WithinLe store backend store' 0 m := by
  constructor <;> intro x hx <;> exact hx.elim

theorem WithinLe.succ
    (hlinks : ∀ r ty, store'.get r = .substituted ty → store.get r = .substituted ty)
    {n m : Nat} (h : WithinLe store backend store' n m) :
    WithinLe store backend store' (n + 1) (m + 1) where
  ty ty hty := by
    cases ty with
    | singletonTy sty => exact h.singletonTy sty hty
    | backendTy => exact hty
    | errorTy => trivial
    | dummyTy id kind => exact h.kind kind hty
    | existTy id kind => exact h.kind kind hty
    | tyvarTy r =>
      unfold Ty.within at hty ⊢
      dsimp only at hty ⊢
      split
      · next ty hget =>
          rw [hlinks r ty hget] at hty
          exact h.ty ty hty
      · trivial
    | boundvarTy id => trivial
    | funmTy tyList ty => exact ⟨fun arg harg => h.ty arg (hty.1 arg harg), h.ty ty hty.2⟩
    | recordTy fields => exact fun field hfield => h.ty field.2 (hty field hfield)
    | constructTy tyCon args =>
      exact ⟨h.tyCon tyCon hty.1, fun arg harg => h.ty arg (hty.2 arg harg)⟩
    | polyTy boundtvars constraints body =>
      exact ⟨fun boundtvar hmem => h.kind boundtvar.2 (hty.1 boundtvar hmem),
        fun c hc => h.constraint c (hty.2.1 c hc), h.ty body hty.2.2⟩
  kind kind hkind := h.tvarKind kind.tvarKind hkind
  tvarKind tvarKind hkind := by
    cases tvarKind with
    | oconstKind tyList => exact fun ty hmem => h.ty ty (hkind ty hmem)
    | oprimKind instances operators =>
      exact ⟨fun ty hmem => h.ty ty (hkind.1 ty hmem),
        fun operator hmem => h.selector operator (hkind.2 operator hmem)⟩
    | univ => trivial
    | record fields => exact fun field hfield => h.ty field.2 (hkind field hfield)
  selector selector hselector := by
    cases selector with
    | selector oprimId longsymbol overload => exact h.overload overload hselector
  overload overload hoverload := by
    cases overload with
    | overloadExvar info tys =>
      exact fun tyList htys ty hmem => h.ty ty (hoverload tyList htys ty hmem)
    | overloadPrim info tys =>
      exact fun tyList htys ty hmem => h.ty ty (hoverload tyList htys ty hmem)
    | overloadCase ty rules =>
      exact ⟨h.ty ty hoverload.1,
        fun rule hrule => h.overload rule.2 (hoverload.2 rule hrule)⟩
  singletonTy sty hsty := by
    cases sty with
    | instcodeTy selector => exact h.selector selector hsty
    | indexTy label ty => exact h.ty ty hsty
    | tagTy ty => exact h.ty ty hsty
    | sizeTy ty => exact h.ty ty hsty
    | reifyTy ty => exact h.ty ty hsty
  tyCon tyCon htyCon := by
    cases tyCon with
    | tyCon id longsymbol admitsEq arity extraArgs dtyKind =>
      exact ⟨fun ty hmem => h.ty ty (htyCon.1 ty hmem), h.dtyKind dtyKind htyCon.2⟩
  dtyKind dtyKind hdty := by
    cases dtyKind with
    | dty property => trivial
    | opaqueDty rep key => exact h.opaqueRep rep hdty
    | interfaceDty rep => exact h.opaqueRep rep hdty
  opaqueRep rep hrep := by
    cases rep with
    | tycon tyCon => exact h.tyCon tyCon hrep
    | tfundef admitsEq arity polyTy => exact h.ty polyTy hrep
  constraint c hc := by
    cases c with
    | join res arg1 arg2 loc =>
      exact ⟨h.ty res hc.1, h.ty arg1 hc.2.1, h.ty arg2 hc.2.2⟩

theorem withinLe
    (hlinks : ∀ r ty, store'.get r = .substituted ty → store.get r = .substituted ty)
    {n m : Nat} (hle : n ≤ m) : WithinLe store backend store' n m := by
  induction n generalizing m with
  | zero => exact WithinLe.zero m
  | succ n ih =>
    cases m with
    | zero => exact absurd hle (Nat.not_succ_le_zero n)
    | succ m => exact (ih (Nat.le_of_succ_le_succ hle)).succ hlinks

theorem Ty.within_mono {n m : Nat} (hle : n ≤ m) {ty : Ty} (h : Ty.within store backend n ty) :
    Ty.within store backend m ty := (withinLe (fun _ _ hget => hget) hle).ty ty h

end Within

end TypesBasics

end SmlSharp
