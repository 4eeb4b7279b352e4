/-
Types as trees with binders, and what the equality of types decides about them.
-/
import SmlSharp.Lib.BindingTree
import SmlSharp.Unify.EqTy

namespace SmlSharp

namespace Unify

open BindingTree TypesBasics FFICompilation

/-! ### Types as trees

The constraints of a polytype are left out. -/

inductive Label where
  | singleton
  | instcode
  | index (label : String)
  | tag
  | size
  | reify
  | backend
  | recordSize
  | recordBitmap (n : Int)
  | recordBitmapIndex (n : Int)
  | foreignFunPtr (attributes : Attributes)
  | code
  | funm
  | record
  | field (label : String)
  | construct (tyConId : Nat)
  | kind (properties : Properties)
  | oconst
  | oprim
  | univ
  | recordKind
  | selector (oprimId : Nat) (longsymbol : String)
  | exvar (path : String)
  | prim (primitive : String)
  | overloadCase (tyConIds : List Nat)
  | list (length : Nat)
  | absent
  | present

abbrev Tree := BindingTree Nat Label

mutual

def Ty.tree : Ty → Tree
  | .singletonTy sty => .node .singleton [sty.tree]
  | .backendTy bty => .node .backend [bty.tree]
  | .tyvarTy ty => ty.tree
  | .boundvarTy bid => .var bid
  | .funmTy tyList ty => .node .funm [.node (.list tyList.length) (tyTrees tyList), ty.tree]
  | .recordTy tyMap => .node .record (fieldTrees tyMap)
  | .constructTy tyConId args =>
    .node (.construct tyConId) [.node (.list args.length) (tyTrees args)]
  | .polyTy boundtvars _ body => .binder (kindTrees boundtvars) body.tree

def tyTrees : List Ty → List Tree
  | [] => []
  | ty :: tyList => ty.tree :: tyTrees tyList

def tyListOptTree : Option (List Ty) → Tree
  | none => .node .absent []
  | some tyList => .node .present [.node (.list tyList.length) (tyTrees tyList)]

def tyOptTree : Option Ty → Tree
  | none => .node .absent []
  | some ty => .node .present [ty.tree]

def fieldTrees : List (String × Ty) → List Tree
  | [] => []
  | (label, ty) :: fields => .node (.field label) [ty.tree] :: fieldTrees fields

def kindTrees : List (Nat × Kind) → List (Nat × Tree)
  | [] => []
  | (id, kind) :: boundtvars => (id, kind.tree) :: kindTrees boundtvars

def Kind.tree : Kind → Tree
  | .kind properties tvarKind => .node (.kind properties) [tvarKind.tree]

def TvarKind.tree : TvarKind → Tree
  | .oconstKind tyList => .node .oconst [.node (.list tyList.length) (tyTrees tyList)]
  | .oprimKind instances operators =>
    .node .oprim [.node (.list instances.length) (tyTrees instances),
      .node (.list operators.length) (selectorTrees operators)]
  | .univ => .node .univ []
  | .record tyMap => .node .recordKind (fieldTrees tyMap)

def OprimSelector.tree : OprimSelector → Tree
  | .selector oprimId longsymbol overload =>
    .node (.selector oprimId longsymbol) [overload.tree]

def selectorTrees : List OprimSelector → List Tree
  | [] => []
  | selector :: selectors => selector.tree :: selectorTrees selectors

def OverloadMatch.tree : OverloadMatch → Tree
  | .overloadExvar path instTyList => .node (.exvar path) [tyListOptTree instTyList]
  | .overloadPrim primitive instTyList => .node (.prim primitive) [tyListOptTree instTyList]
  | .overloadCase ty rules =>
    .node (.overloadCase (rules.map Prod.fst)) (ty.tree :: ruleTrees rules)

def ruleTrees : List (Nat × OverloadMatch) → List Tree
  | [] => []
  | (_, overload) :: rules => overload.tree :: ruleTrees rules

def SingletonTy.tree : SingletonTy → Tree
  | .instcodeTy selector => .node .instcode [selector.tree]
  | .indexTy label ty => .node (.index label) [ty.tree]
  | .tagTy ty => .node .tag [ty.tree]
  | .sizeTy ty => .node .size [ty.tree]
  | .reifyTy ty => .node .reify [ty.tree]

def BackendTy.tree : BackendTy → Tree
  | .recordSizeTy ty => .node .recordSize [ty.tree]
  | .recordBitmapTy n ty => .node (.recordBitmap n) [ty.tree]
  | .recordBitmapIndexTy n ty => .node (.recordBitmapIndex n) [ty.tree]
  | .foreignFunPtrTy argTyList varArgTyList resultTy attributes =>
    .node (.foreignFunPtr attributes) [.node (.list argTyList.length) (tyTrees argTyList),
      tyListOptTree varArgTyList, tyOptTree resultTy]
  | .cconvTagTy => .node .code []
  | .funEntryTy => .node .code []
  | .callbackEntryTy => .node .code []
  | .someFunEntryTy => .node .code []
  | .someFunWrapperTy => .node .code []
  | .someClosureEnvTy => .node .code []
  | .someCconvTagTy => .node .code []

end

/-- Without the types of entries and tags, for which `eqBTy` raises an exception. -/
def Comparable (ty : Ty) : Prop := EveryLabel (· ≠ .code) ty.tree

@[simp] theorem derefTy_tree (ty : Ty) : (derefTy ty).tree = ty.tree := by
  match ty with
  | .tyvarTy ty =>
    rw [derefTy, Ty.tree]
    exact derefTy_tree ty
  | .singletonTy _ => rfl
  | .backendTy _ => rfl
  | .boundvarTy _ => rfl
  | .funmTy _ _ => rfl
  | .recordTy _ => rfl
  | .constructTy _ _ => rfl
  | .polyTy _ _ _ => rfl

theorem derefTy_ne (ty ty' : Ty) : derefTy ty ≠ .tyvarTy ty' := by
  match ty with
  | .tyvarTy ty =>
    rw [derefTy]
    exact derefTy_ne ty ty'
  | .singletonTy _ => simp [derefTy]
  | .backendTy _ => simp [derefTy]
  | .boundvarTy _ => simp [derefTy]
  | .funmTy _ _ => simp [derefTy]
  | .recordTy _ => simp [derefTy]
  | .constructTy _ _ => simp [derefTy]
  | .polyTy _ _ _ => simp [derefTy]

/-! ### Deciding -/

/-- The result is the answer whether the proposition holds. -/
def Decides (result : Result) (P : Prop) : Prop := ∃ b, result = .ok b ∧ (b = true ↔ P)

section Decides

variable {result left right : Result} {P Q : Prop}

theorem Decides.congr (h : Decides result P) (hiff : P ↔ Q) : Decides result Q := by
  obtain ⟨b, hresult, hb⟩ := h
  exact ⟨b, hresult, hb.trans hiff⟩

theorem Decides.bool (b : Bool) : Decides (.ok b) (b = true) := ⟨b, rfl, Iff.rfl⟩

theorem Decides.yes (h : P) : Decides (.ok true) P := ⟨true, rfl, iff_of_true rfl h⟩

theorem Decides.no (h : ¬ P) : Decides (.ok false) P := ⟨false, rfl, iff_of_false (by simp) h⟩

theorem Decides.andalso (hleft : Decides left P) (hright : Decides right Q) :
    Decides (Unify.andalso left right) (P ∧ Q) := by
  obtain ⟨b, rfl, hb⟩ := hleft
  cases b with
  | false => exact Decides.no fun h => Bool.false_ne_true (hb.mpr h.1)
  | true => exact hright.congr (iff_and_self.mpr fun _ => hb.mp rfl)

theorem Decides.ite {c : Prop} [Decidable c] (h : c → Decides result P) :
    Decides (if c then result else .ok false) (c ∧ P) := by
  by_cases hc : c
  · rw [if_pos hc]
    exact (h hc).congr (iff_and_self.mpr fun _ => hc)
  · rw [if_neg hc]
    exact Decides.no fun h => hc h.1

end Decides

/-- The variables that `btvEq` takes for the same. -/
def BtvEq (btvEquiv : BtvEquiv) (id1 id2 : Nat) : Prop := btvEq btvEquiv id1 id2 = true

abbrev EqualByBtvEq : BtvEquiv → Tree → Tree → Prop := Equal BtvEq Eq

theorem btvMap_eq (btvEquiv : BtvEquiv) (btv1 btv2 : List (Nat × Kind)) :
    btvMap btvEquiv btv1 btv2 = bind btvEquiv (kindTrees btv1) (kindTrees btv2) := by
  rw [btvMap, BindingTree.bind]
  induction btv1 generalizing btvEquiv btv2 with
  | nil => rfl
  | cons x btv1 ih =>
    cases btv2 with
    | nil => rfl
    | cons y btv2 => exact ih ((x.1, y.1) :: btvEquiv) btv2

theorem kindTrees_length (boundtvars : List (Nat × Kind)) :
    (kindTrees boundtvars).length = boundtvars.length := by
  induction boundtvars with
  | nil => rfl
  | cons x boundtvars ih => rw [kindTrees, List.length_cons, ih, List.length_cons]

mutual

theorem eqTy_decides (btvEquiv : BtvEquiv) (ty1 ty2 : Ty) (h : EveryLabel (· ≠ .code) ty1.tree) :
    Decides (eqTy btvEquiv ty1 ty2) (EqualByBtvEq btvEquiv ty1.tree ty2.tree) := by
  have hderef := derefTy_ne ty2
  rw [← derefTy_tree ty2, eqTy.eq_def]
  generalize derefTy ty2 = ty2' at hderef ⊢
  match ty1 with
  | .tyvarTy ty1 => exact eqTy_decides btvEquiv ty1 ty2' h
  | .boundvarTy bid1 =>
    cases ty2' with
    | boundvarTy bid2 => exact Decides.bool _
    | tyvarTy ty2 => exact absurd rfl (hderef ty2)
    | _ => exact Decides.no (by simp [Ty.tree])
  | .singletonTy sty1 =>
    cases ty2' with
    | singletonTy sty2 => exact (eqSTy_decides btvEquiv sty1 sty2 h.2.1).congr (by simp [Ty.tree])
    | tyvarTy ty2 => exact absurd rfl (hderef ty2)
    | _ => exact Decides.no (by simp [Ty.tree])
  | .backendTy bty1 =>
    cases ty2' with
    | backendTy bty2 => exact (eqBTy_decides btvEquiv bty1 bty2 h.2.1).congr (by simp [Ty.tree])
    | tyvarTy ty2 => exact absurd rfl (hderef ty2)
    | _ => exact Decides.no (by simp [Ty.tree])
  | .polyTy btv1 constraints1 body1 =>
    cases ty2' with
    | polyTy btv2 constraints2 body2 =>
      have hkinds := fun hlength => eqKindPairs_decides (btvMap btvEquiv btv1 btv2) btv1 btv2
        h.1 hlength
      have hbody := eqTy_decides (btvMap btvEquiv btv1 btv2) body1 body2 h.2
      apply (Decides.ite fun hlength => (hkinds hlength).andalso hbody).congr
      rw [btvMap_eq, ← kindTrees_length btv1, ← kindTrees_length btv2]
      exact equal_binder_eq.symm
    | tyvarTy ty2 => exact absurd rfl (hderef ty2)
    | _ => exact Decides.no (by simp [Ty.tree])
  | .funmTy tyList1 ty1 =>
    cases ty2' with
    | funmTy tyList2 ty2 =>
      exact ((eqTyList_decides btvEquiv tyList1 tyList2 h.2.1.2).andalso
        (eqTy_decides btvEquiv ty1 ty2 h.2.2.1)).congr (by simp [Ty.tree])
    | tyvarTy ty2 => exact absurd rfl (hderef ty2)
    | _ => exact Decides.no (by simp [Ty.tree])
  | .recordTy tyMap1 =>
    cases ty2' with
    | recordTy tyMap2 =>
      exact (eqTyFields_decides btvEquiv tyMap1 tyMap2 h.2).congr (by simp [Ty.tree])
    | tyvarTy ty2 => exact absurd rfl (hderef ty2)
    | _ => exact Decides.no (by simp [Ty.tree])
  | .constructTy tyCon1 args1 =>
    cases ty2' with
    | constructTy tyCon2 args2 =>
      exact (Decides.ite fun _ => eqTyList_decides btvEquiv args1 args2 h.2.1.2).congr
        (by simp [Ty.tree])
    | tyvarTy ty2 => exact absurd rfl (hderef ty2)
    | _ => exact Decides.no (by simp [Ty.tree])

theorem eqTyFields_decides (btvEquiv : BtvEquiv) (tyF1 tyF2 : List (String × Ty))
    (h : EveryLabelAll (· ≠ .code) (fieldTrees tyF1)) :
    Decides (eqTyFields btvEquiv tyF1 tyF2)
      (EqualAll BtvEq Eq btvEquiv (fieldTrees tyF1) (fieldTrees tyF2)) := by
  rw [eqTyFields.eq_def]
  match tyF1, tyF2 with
  | [], [] => exact Decides.yes (by simp [fieldTrees])
  | (l1, ty1) :: tl1, (l2, ty2) :: tl2 =>
    exact (Decides.ite fun _ => (eqTy_decides btvEquiv ty1 ty2 h.1.2.1).andalso
      (eqTyFields_decides btvEquiv tl1 tl2 h.2)).congr (by simp [fieldTrees, and_assoc])
  | _ :: _, [] => exact Decides.no (by simp [fieldTrees])
  | [], _ :: _ => exact Decides.no (by simp [fieldTrees])

theorem eqTyList_decides (btvEquiv : BtvEquiv) (tyList1 tyList2 : List Ty)
    (h : EveryLabelAll (· ≠ .code) (tyTrees tyList1)) :
    Decides (eqList tyList1 tyList2 (eqTyPairs btvEquiv tyList1 tyList2))
      (EqualByBtvEq btvEquiv (.node (.list tyList1.length) (tyTrees tyList1))
        (.node (.list tyList2.length) (tyTrees tyList2))) := by
  rw [eqList]
  exact (Decides.ite (eqTyPairs_decides btvEquiv tyList1 tyList2 h)).congr (by simp)

theorem eqTyPairs_decides (btvEquiv : BtvEquiv) (tyList1 tyList2 : List Ty)
    (h : EveryLabelAll (· ≠ .code) (tyTrees tyList1))
    (hlength : tyList1.length = tyList2.length) :
    Decides (eqTyPairs btvEquiv tyList1 tyList2)
      (EqualAll BtvEq Eq btvEquiv (tyTrees tyList1) (tyTrees tyList2)) := by
  rw [eqTyPairs.eq_def]
  match tyList1, tyList2 with
  | [], [] => exact Decides.yes (by simp [tyTrees])
  | ty1 :: tyList1, ty2 :: tyList2 =>
    exact ((eqTy_decides btvEquiv ty1 ty2 h.1).andalso
      (eqTyPairs_decides btvEquiv tyList1 tyList2 h.2 (Nat.succ.inj hlength))).congr Iff.rfl
  | _ :: _, [] => nomatch hlength
  | [], _ :: _ => nomatch hlength

theorem eqTyListOpt_decides (btvEquiv : BtvEquiv) (tyList1 tyList2 : Option (List Ty))
    (h : EveryLabel (· ≠ .code) (tyListOptTree tyList1)) :
    Decides (eqTyListOpt btvEquiv tyList1 tyList2)
      (EqualByBtvEq btvEquiv (tyListOptTree tyList1) (tyListOptTree tyList2)) := by
  rw [eqTyListOpt.eq_def]
  match tyList1, tyList2 with
  | none, none => exact Decides.yes (by simp [tyListOptTree])
  | none, some _ => exact Decides.no (by simp [tyListOptTree])
  | some _, none => exact Decides.no (by simp [tyListOptTree])
  | some l1, some l2 =>
    exact (eqTyList_decides btvEquiv l1 l2 h.2.1.2).congr (by simp [tyListOptTree])

theorem eqTyOpt_decides (btvEquiv : BtvEquiv) (ty1 ty2 : Option Ty)
    (h : EveryLabel (· ≠ .code) (tyOptTree ty1)) :
    Decides (eqTyOpt btvEquiv ty1 ty2)
      (EqualByBtvEq btvEquiv (tyOptTree ty1) (tyOptTree ty2)) := by
  rw [eqTyOpt.eq_def]
  match ty1, ty2 with
  | none, none => exact Decides.yes (by simp [tyOptTree])
  | none, some _ => exact Decides.no (by simp [tyOptTree])
  | some _, none => exact Decides.no (by simp [tyOptTree])
  | some ty1, some ty2 => exact (eqTy_decides btvEquiv ty1 ty2 h.2.1).congr (by simp [tyOptTree])

theorem eqSTy_decides (btvEquiv : BtvEquiv) (sty1 sty2 : SingletonTy)
    (h : EveryLabel (· ≠ .code) sty1.tree) :
    Decides (eqSTy btvEquiv sty1 sty2) (EqualByBtvEq btvEquiv sty1.tree sty2.tree) := by
  rw [eqSTy.eq_def]
  match sty1 with
  | .instcodeTy selector1 =>
    cases sty2 with
    | instcodeTy selector2 =>
      exact (eqOprimSelector_decides btvEquiv selector1 selector2 h.2.1).congr
        (by simp [SingletonTy.tree])
    | _ => exact Decides.no (by simp [SingletonTy.tree])
  | .indexTy label1 ty1 =>
    cases sty2 with
    | indexTy label2 ty2 =>
      exact (Decides.ite fun _ => eqTy_decides btvEquiv ty1 ty2 h.2.1).congr
        (by simp [SingletonTy.tree])
    | _ => exact Decides.no (by simp [SingletonTy.tree])
  | .tagTy ty1 =>
    cases sty2 with
    | tagTy ty2 =>
      exact (eqTy_decides btvEquiv ty1 ty2 h.2.1).congr (by simp [SingletonTy.tree])
    | _ => exact Decides.no (by simp [SingletonTy.tree])
  | .sizeTy ty1 =>
    cases sty2 with
    | sizeTy ty2 =>
      exact (eqTy_decides btvEquiv ty1 ty2 h.2.1).congr (by simp [SingletonTy.tree])
    | _ => exact Decides.no (by simp [SingletonTy.tree])
  | .reifyTy ty1 =>
    cases sty2 with
    | reifyTy ty2 =>
      exact (eqTy_decides btvEquiv ty1 ty2 h.2.1).congr (by simp [SingletonTy.tree])
    | _ => exact Decides.no (by simp [SingletonTy.tree])

theorem eqOprimSelector_decides (btvEquiv : BtvEquiv) (selector1 selector2 : OprimSelector)
    (h : EveryLabel (· ≠ .code) selector1.tree) :
    Decides (eqOprimSelector btvEquiv selector1 selector2)
      (EqualByBtvEq btvEquiv selector1.tree selector2.tree) := by
  rw [eqOprimSelector.eq_def]
  match selector1, selector2 with
  | .selector id1 longsymbol1 m1, .selector id2 longsymbol2 m2 =>
    exact (Decides.ite fun _ => eqOverloadMatch_decides btvEquiv m1 m2 h.2.1).congr
      (by simp [OprimSelector.tree])

theorem eqOverloadMatch_decides (btvEquiv : BtvEquiv) (match1 match2 : OverloadMatch)
    (h : EveryLabel (· ≠ .code) match1.tree) :
    Decides (eqOverloadMatch btvEquiv match1 match2)
      (EqualByBtvEq btvEquiv match1.tree match2.tree) := by
  rw [eqOverloadMatch.eq_def]
  match match1 with
  | .overloadCase ty1 matches1 =>
    cases match2 with
    | overloadCase ty2 matches2 =>
      exact ((eqTy_decides btvEquiv ty1 ty2 h.2.1).andalso
        (Decides.ite (eqRules_decides btvEquiv matches1 matches2 h.2.2))).congr
        (by simp [OverloadMatch.tree, and_left_comm])
    | _ => exact Decides.no (by simp [OverloadMatch.tree])
  | .overloadExvar path1 i1 =>
    cases match2 with
    | overloadExvar path2 i2 =>
      exact (Decides.ite fun _ => eqTyListOpt_decides btvEquiv i1 i2 h.2.1).congr
        (by simp [OverloadMatch.tree])
    | _ => exact Decides.no (by simp [OverloadMatch.tree])
  | .overloadPrim p1 i1 =>
    cases match2 with
    | overloadPrim p2 i2 =>
      exact (Decides.ite fun _ => eqTyListOpt_decides btvEquiv i1 i2 h.2.1).congr
        (by simp [OverloadMatch.tree])
    | _ => exact Decides.no (by simp [OverloadMatch.tree])

theorem eqRules_decides (btvEquiv : BtvEquiv) (matches1 matches2 : List (Nat × OverloadMatch))
    (h : EveryLabelAll (· ≠ .code) (ruleTrees matches1))
    (hkeys : matches1.map Prod.fst = matches2.map Prod.fst) :
    Decides (eqRules btvEquiv matches1 matches2)
      (EqualAll BtvEq Eq btvEquiv (ruleTrees matches1) (ruleTrees matches2)) := by
  rw [eqRules.eq_def]
  match matches1, matches2 with
  | [], [] => exact Decides.yes (by simp [ruleTrees])
  | (_, m1) :: matches1, (_, m2) :: matches2 =>
    exact ((eqOverloadMatch_decides btvEquiv m1 m2 h.1).andalso
      (eqRules_decides btvEquiv matches1 matches2 h.2 (List.cons.inj hkeys).2)).congr Iff.rfl
  | _ :: _, [] => nomatch hkeys
  | [], _ :: _ => nomatch hkeys

theorem eqOprimSelectorList_decides (btvEquiv : BtvEquiv) (opList1 opList2 : List OprimSelector)
    (h : EveryLabelAll (· ≠ .code) (selectorTrees opList1)) :
    Decides (eqList opList1 opList2 (eqOprimSelectorPairs btvEquiv opList1 opList2))
      (EqualByBtvEq btvEquiv (.node (.list opList1.length) (selectorTrees opList1))
        (.node (.list opList2.length) (selectorTrees opList2))) := by
  rw [eqList]
  exact (Decides.ite (eqOprimSelectorPairs_decides btvEquiv opList1 opList2 h)).congr (by simp)

theorem eqOprimSelectorPairs_decides (btvEquiv : BtvEquiv) (opList1 opList2 : List OprimSelector)
    (h : EveryLabelAll (· ≠ .code) (selectorTrees opList1))
    (hlength : opList1.length = opList2.length) :
    Decides (eqOprimSelectorPairs btvEquiv opList1 opList2)
      (EqualAll BtvEq Eq btvEquiv (selectorTrees opList1) (selectorTrees opList2)) := by
  rw [eqOprimSelectorPairs.eq_def]
  match opList1, opList2 with
  | [], [] => exact Decides.yes (by simp [selectorTrees])
  | op1 :: opList1, op2 :: opList2 =>
    exact ((eqOprimSelector_decides btvEquiv op1 op2 h.1).andalso
      (eqOprimSelectorPairs_decides btvEquiv opList1 opList2 h.2
        (Nat.succ.inj hlength))).congr Iff.rfl
  | _ :: _, [] => nomatch hlength
  | [], _ :: _ => nomatch hlength

theorem eqKind_decides (btvEquiv : BtvEquiv) (kind1 kind2 : Kind)
    (h : EveryLabel (· ≠ .code) kind1.tree) :
    Decides (eqKind btvEquiv kind1 kind2) (EqualByBtvEq btvEquiv kind1.tree kind2.tree) := by
  rw [eqKind.eq_def]
  match kind1, kind2 with
  | .kind prop1 tvK1, .kind prop2 tvK2 =>
    exact (Decides.ite fun _ => eqTvarKind_decides btvEquiv tvK1 tvK2 h.2.1).congr
      (by simp [Kind.tree])

theorem eqKindPairs_decides (btvEquiv : BtvEquiv) (btv1 btv2 : List (Nat × Kind))
    (h : EveryLabelVars (· ≠ .code) (kindTrees btv1)) (hlength : btv1.length = btv2.length) :
    Decides (eqKindPairs btvEquiv btv1 btv2)
      (EqualVars BtvEq Eq btvEquiv (kindTrees btv1) (kindTrees btv2)) := by
  rw [eqKindPairs.eq_def]
  match btv1, btv2 with
  | [], [] => exact Decides.yes (by simp [kindTrees])
  | (_, kind1) :: btv1, (_, kind2) :: btv2 =>
    exact ((eqKind_decides btvEquiv kind1 kind2 h.1).andalso
      (eqKindPairs_decides btvEquiv btv1 btv2 h.2 (Nat.succ.inj hlength))).congr Iff.rfl
  | _ :: _, [] => nomatch hlength
  | [], _ :: _ => nomatch hlength

theorem eqTvarKind_decides (btvEquiv : BtvEquiv) (tvK1 tvK2 : TvarKind)
    (h : EveryLabel (· ≠ .code) tvK1.tree) :
    Decides (eqTvarKind btvEquiv tvK1 tvK2) (EqualByBtvEq btvEquiv tvK1.tree tvK2.tree) := by
  rw [eqTvarKind.eq_def]
  match tvK1 with
  | .oconstKind tyL1 =>
    cases tvK2 with
    | oconstKind tyL2 =>
      exact (eqTyList_decides btvEquiv tyL1 tyL2 h.2.1.2).congr (by simp [TvarKind.tree])
    | _ => exact Decides.no (by simp [TvarKind.tree])
  | .oprimKind tyL1 opL1 =>
    cases tvK2 with
    | oprimKind tyL2 opL2 =>
      exact ((eqTyList_decides btvEquiv tyL1 tyL2 h.2.1.2).andalso
        (eqOprimSelectorList_decides btvEquiv opL1 opL2 h.2.2.1.2)).congr
        (by simp [TvarKind.tree])
    | _ => exact Decides.no (by simp [TvarKind.tree])
  | .univ =>
    cases tvK2 with
    | univ => exact Decides.yes (by simp [TvarKind.tree])
    | _ => exact Decides.no (by simp [TvarKind.tree])
  | .record smap1 =>
    cases tvK2 with
    | record smap2 =>
      exact (eqTyFields_decides btvEquiv smap1 smap2 h.2).congr (by simp [TvarKind.tree])
    | _ => exact Decides.no (by simp [TvarKind.tree])

theorem eqBTy_decides (btvEquiv : BtvEquiv) (bty1 bty2 : BackendTy)
    (h : EveryLabel (· ≠ .code) bty1.tree) :
    Decides (eqBTy btvEquiv bty1 bty2) (EqualByBtvEq btvEquiv bty1.tree bty2.tree) := by
  rw [eqBTy.eq_def]
  match bty1 with
  | .recordSizeTy ty1 =>
    cases bty2 with
    | recordSizeTy ty2 =>
      exact (eqTy_decides btvEquiv ty1 ty2 h.2.1).congr (by simp [BackendTy.tree])
    | _ => exact Decides.no (by simp [BackendTy.tree])
  | .recordBitmapTy n1 ty1 =>
    cases bty2 with
    | recordBitmapTy n2 ty2 =>
      exact (Decides.ite fun _ => eqTy_decides btvEquiv ty1 ty2 h.2.1).congr
        (by simp [BackendTy.tree])
    | _ => exact Decides.no (by simp [BackendTy.tree])
  | .recordBitmapIndexTy n1 ty1 =>
    cases bty2 with
    | recordBitmapIndexTy n2 ty2 =>
      exact (Decides.ite fun _ => eqTy_decides btvEquiv ty1 ty2 h.2.1).congr
        (by simp [BackendTy.tree])
    | _ => exact Decides.no (by simp [BackendTy.tree])
  | .foreignFunPtrTy a1 v1 r1 t1 =>
    cases bty2 with
    | foreignFunPtrTy a2 v2 r2 t2 =>
      have hattributes : Decides (.ok (t1 = t2)) (t1 = t2) :=
        (Decides.bool _).congr (by simp)
      exact ((eqTyList_decides btvEquiv a1 a2 h.2.1.2).andalso
        ((eqTyListOpt_decides btvEquiv v1 v2 h.2.2.1).andalso
          ((eqTyOpt_decides btvEquiv r1 r2 h.2.2.2.1).andalso hattributes))).congr
        (by simp [BackendTy.tree]; tauto)
    | _ => exact Decides.no (by simp [BackendTy.tree])
  | .cconvTagTy => exact absurd rfl h.1
  | .funEntryTy => exact absurd rfl h.1
  | .callbackEntryTy => exact absurd rfl h.1
  | .someFunEntryTy => exact absurd rfl h.1
  | .someFunWrapperTy => exact absurd rfl h.1
  | .someClosureEnvTy => exact absurd rfl h.1
  | .someCconvTagTy => exact absurd rfl h.1

end

/-! ### Scopes -/

theorem lookup_of_paired {btvEquiv : BtvEquiv} {id1 id2 : Nat} (h : Paired btvEquiv id1 id2) :
    btvEquiv.lookup id1 = some id2 ∨ (btvEquiv.lookup id1 = none ∧ id1 = id2) := by
  induction btvEquiv with
  | nil => exact Or.inr ⟨rfl, h⟩
  | cons pair btvEquiv ih =>
    obtain ⟨i1, i2⟩ := pair
    rcases h with ⟨rfl, rfl⟩ | ⟨hne, -, h⟩
    · exact Or.inl (by simp)
    · have hlookup : List.lookup id1 ((i1, i2) :: btvEquiv) = btvEquiv.lookup id1 := by
        rw [List.lookup_cons, beq_false_of_ne hne]
      rw [hlookup]
      exact ih h

/-- Variables that are bound together are taken for the same. -/
theorem btvEq_of_paired {btvEquiv : BtvEquiv} {id1 id2 : Nat} (h : Paired btvEquiv id1 id2) :
    BtvEq btvEquiv id1 id2 := by
  rw [BtvEq, btvEq]
  rcases lookup_of_paired h with hlookup | ⟨-, rfl⟩
  · simp [hlookup]
  · simp

/-- At a place where both types have a variable: the second one is bound at most once
above the place, and an identifier that the other type binds there is bound together
with itself. -/
structure IdsApart (btvEquiv : BtvEquiv) (id1 id2 : Nat) : Prop where
  once : (btvEquiv.map Prod.snd).count id2 ≤ 1
  first : ∀ pair ∈ btvEquiv, pair.2 = id1 → pair.1 = id1
  second : ∀ pair ∈ btvEquiv, pair.1 = id2 → pair.2 = id2

/-- No identifier is bound twice where it would be mistaken for another one. -/
def BindsApart (ty1 ty2 : Ty) : Prop := AtVariables IdsApart [] ty1.tree ty2.tree

theorem paired_self {btvEquiv : BtvEquiv} {id : Nat}
    (hids : ∀ pair ∈ btvEquiv, pair.1 = id ↔ pair.2 = id) : Paired btvEquiv id id := by
  induction btvEquiv with
  | nil => rfl
  | cons pair btvEquiv ih =>
    obtain ⟨hpair, hrest⟩ := List.forall_mem_cons.mp hids
    by_cases hbound : pair.1 = id
    · exact Or.inl ⟨hbound.symm, (hpair.mp hbound).symm⟩
    · exact Or.inr ⟨Ne.symm hbound, Ne.symm (mt hpair.mpr hbound), ih hrest⟩

theorem mem_of_lookup {btvEquiv : BtvEquiv} {id1 id2 : Nat}
    (hlookup : btvEquiv.lookup id1 = some id2) : (id1, id2) ∈ btvEquiv := by
  obtain ⟨before, after, rfl, -⟩ := List.lookup_eq_some_iff.mp hlookup
  simp

/-- The environment binds them together where the second one is not bound again. -/
theorem paired_of_lookup {btvEquiv : BtvEquiv} {id1 id2 : Nat}
    (hlookup : btvEquiv.lookup id1 = some id2)
    (honce : (btvEquiv.map Prod.snd).count id2 ≤ 1) : Paired btvEquiv id1 id2 := by
  induction btvEquiv with
  | nil => nomatch hlookup
  | cons pair btvEquiv ih =>
    obtain ⟨i1, i2⟩ := pair
    by_cases hid : id1 = i1
    · rw [List.lookup_cons, beq_iff_eq.mpr hid] at hlookup
      exact Or.inl ⟨hid, (Option.some.inj hlookup).symm⟩
    · rw [List.lookup_cons, beq_false_of_ne hid] at hlookup
      have hmem : id2 ∈ btvEquiv.map Prod.snd :=
        List.mem_map_of_mem (f := Prod.snd) (mem_of_lookup hlookup)
      have hpos := List.count_pos_iff.mpr hmem
      rw [List.map_cons, List.count_cons] at honce
      have hne : id2 ≠ i2 := by
        rintro rfl
        simp at honce
        omega
      exact Or.inr ⟨hid, hne, ih hlookup (by omega)⟩

/-- Where the identifiers are apart, `btvEq` takes no others for the same. -/
theorem paired_of_btvEq {btvEquiv : BtvEquiv} {id1 id2 : Nat}
    (hids : IdsApart btvEquiv id1 id2) (h : BtvEq btvEquiv id1 id2) :
    Paired btvEquiv id1 id2 := by
  by_cases hid : id1 = id2
  · subst hid
    exact paired_self fun pair hpair => ⟨hids.second pair hpair, hids.first pair hpair⟩
  · rw [BtvEq, btvEq, beq_false_of_ne hid, Bool.false_or] at h
    split at h
    · next id11 hlookup =>
      rw [beq_iff_eq.mp h] at hlookup
      exact paired_of_lookup hlookup hids.once
    · split at h
      · next id21 hlookup =>
        exact absurd (hids.first _ (mem_of_lookup hlookup) (beq_iff_eq.mp h).symm).symm hid
      · nomatch h

/-- `['a, 'b. 'a -> 'b]` and a type to compare with it. -/
def exampleTy (id1 id2 arg result : Nat) : Ty :=
  .polyTy [(id1, .kind emptyProperties .univ), (id2, .kind emptyProperties .univ)] []
    (.funmTy [.boundvarTy arg] (.boundvarTy result))

/-- `['a, 'b. 'a -> ['c. 'b -> 'c]]`. -/
def nestedTy (id1 id2 id3 : Nat) : Ty :=
  .polyTy [(id1, .kind emptyProperties .univ), (id2, .kind emptyProperties .univ)] []
    (.funmTy [.boundvarTy id1] (.polyTy [(id3, .kind emptyProperties .univ)] []
      (.funmTy [.boundvarTy id2] (.boundvarTy id3))))

/-- `btvEq` does not see that the inner polytype binds the variable again. -/
example :
    let univKind := Kind.kind emptyProperties .univ
    eqTy [] (.polyTy [(0, univKind)] [] (.polyTy [(1, univKind)] [] (.boundvarTy 0)))
      (.polyTy [(2, univKind)] [] (.polyTy [(2, univKind)] [] (.boundvarTy 2))) = .ok true := rfl

end Unify

end SmlSharp
