/-
The type variables that cells denote, and that the normalisation of types,
which assigns to cells, changes none of them.
-/
import SmlSharp.NameEvaluation.NormalizeTy
import SmlSharp.Lib.Links

namespace SmlSharp.NameEvaluation

/-- What the specification of a type name says of it. -/
structure TypeVariable where
  isDatatype : Bool
  id : TypId
  admitsEq : Bool
  formals : Formals
deriving DecidableEq

namespace Tfunkind

def typeVariable : Tfunkind → Option TypeVariable
  | .tfvSpec id admitsEq formals => some ⟨false, id, admitsEq, formals⟩
  | .tfvDty id admitsEq formals _ _ => some ⟨true, id, admitsEq, formals⟩
  | _ => none

def isRealized : Tfunkind → Bool
  | .realized .. => true
  | _ => false

def link : Tfunkind → Option Tfv
  | .realized _ (.tfunVar tfv) => some tfv
  | _ => none

variable {tfunkind : Tfunkind} {tfv : Tfv} {v : TypeVariable} {heap : Heap} {r c : Tfv}
  {fuel : Nat} {ifInterface : Bool}

theorem link_eq_some :
    tfunkind.link = some tfv ↔ ∃ id, tfunkind = .realized id (.tfunVar tfv) := by
  fun_cases link tfunkind <;> simp_all

theorem link_of_not_realized (hnot : tfunkind.isRealized = false) :
    tfunkind.link = none := by
  fun_cases link tfunkind <;> simp_all [isRealized]

theorem not_realized_of_typeVariable
    (hvar : tfunkind.typeVariable = some v) : tfunkind.isRealized = false := by
  cases tfunkind <;> simp_all [typeVariable, isRealized]

end Tfunkind

namespace Heap

def link (heap : Heap) : Tfv → Option Tfv := fun tfv => (heap tfv).link

theorem link_update (heap : Heap) (tfv : Tfv) (tfunkind : Tfunkind) :
    Heap.link (Function.update heap tfv tfunkind) =
      Function.update (Heap.link heap) tfv tfunkind.link := by
  funext c
  by_cases hc : c = tfv
  · subst hc
    simp [link]
  · simp [link, hc]

end Heap

/-- The realisations of a cell end at a type name of the signature. -/
def Denotes (heap : Heap) (tfv root : Tfv) : Prop :=
  Root (Heap.link heap) tfv root ∧ ∃ v, (heap root).typeVariable = some v

theorem denotes_self (hvar : (heap tfv).typeVariable = some v) : Denotes heap tfv tfv :=
  ⟨.here (Tfunkind.link_of_not_realized (Tfunkind.not_realized_of_typeVariable hvar)), v, hvar⟩

theorem Denotes.unique {heap : Heap} {tfv r s : Tfv} (hr : Denotes heap tfv r)
    (hs : Denotes heap tfv s) : r = s :=
  hr.1.unique hs.1

theorem Denotes.eq_of_typeVariable
    (hr : Denotes heap tfv r) (hvar : (heap tfv).typeVariable = some v) : r = tfv :=
  hr.unique (denotes_self hvar)

/-- A cell that denotes a type name is one, or is realised by another cell that
does. -/
theorem Denotes.cases (hr : Denotes heap tfv r) :
    (r = tfv ∧ ∃ v, (heap tfv).typeVariable = some v) ∨
      ∃ id d, heap tfv = .realized id (.tfunVar d) ∧ Denotes heap d r := by
  obtain ⟨hroot, hvar⟩ := hr
  cases hroot with
  | here hnone => exact Or.inl ⟨rfl, hvar⟩
  | next hlink hroot =>
    obtain ⟨id, hcell⟩ := Tfunkind.link_eq_some.1 hlink
    exact Or.inr ⟨id, _, hcell, hroot, hvar⟩

/-- Assignments that leave the type names and what denotes them as they are: a
cell that denotes a type name may be made to refer to it directly. -/
structure Kept (heap heap' : Heap) : Prop where
  typeVariable : ∀ c, (heap' c).typeVariable = (heap c).typeVariable
  isRealized : ∀ c, (heap' c).isRealized = (heap c).isRealized
  link : ∀ c r, Denotes heap c r →
    Heap.link heap' c = Heap.link heap c ∨ Heap.link heap' c = some r

theorem Kept.refl (heap : Heap) : Kept heap heap :=
  ⟨fun _ => rfl, fun _ => rfl, fun _ _ _ => Or.inl rfl⟩

theorem Kept.denotes_self {heap heap' : Heap} (h : Kept heap heap') {c r : Tfv}
    (hr : Denotes heap c r) : Denotes heap' r r := by
  obtain ⟨v, hv⟩ := hr.2
  exact NameEvaluation.denotes_self ((h.typeVariable r).trans hv)

theorem Kept.denotes (h : Kept heap heap')
    (hr : Denotes heap c r) : Denotes heap' c r := by
  obtain ⟨hroot, hvar⟩ := hr
  induction hroot with
  | here hnone => exact h.denotes_self ⟨.here hnone, hvar⟩
  | @next c d r hlink hroot ih =>
    refine ⟨?_, (ih hvar).2⟩
    rcases h.link c r ⟨.next hlink hroot, hvar⟩ with hlink' | hlink'
    · exact .next (hlink'.trans hlink) (ih hvar).1
    · exact .next hlink' (h.denotes_self ⟨hroot, hvar⟩).1

theorem Kept.trans {heap heap' heap'' : Heap} (h : Kept heap heap') (h' : Kept heap' heap'') :
    Kept heap heap'' := by
  refine ⟨fun c => (h'.typeVariable c).trans (h.typeVariable c),
    fun c => (h'.isRealized c).trans (h.isRealized c), fun c r hr => ?_⟩
  rcases h'.link c r (h.denotes hr) with hlink' | hlink'
  · rw [hlink']
    exact h.link c r hr
  · exact Or.inr hlink'

theorem Kept.assign {middle : Heap} (h : Kept heap middle)
    (hvar : tfunkind.typeVariable = (heap c).typeVariable)
    (hreal : tfunkind.isRealized = (heap c).isRealized)
    (hlink : (heap c).isRealized = true → ∀ r, Denotes heap c r → tfunkind.link = some r) :
    Kept heap (Function.update middle c tfunkind) := by
  refine ⟨fun d => ?_, fun d => ?_, fun d r hr => ?_⟩
  · by_cases hd : d = c
    · subst hd
      simpa using hvar
    · simpa [hd] using h.typeVariable d
  · by_cases hd : d = c
    · subst hd
      simpa using hreal
    · simpa [hd] using h.isRealized d
  · rw [Heap.link_update]
    by_cases hd : d = c
    · subst hd
      rw [Function.update_self]
      cases hrealized : (heap d).isRealized with
      | true => exact Or.inr (hlink hrealized r hr)
      | false =>
        refine Or.inl ?_
        rw [Tfunkind.link_of_not_realized (hreal.trans hrealized)]
        exact (Tfunkind.link_of_not_realized hrealized).symm
    · rw [Function.update_of_ne hd]
      exact h.link d r hr

theorem onHeap_ok {α : Type} {f : Heap → Except Failure α} {state state' : NormState}
    {value : α} :
    onHeap f state = .ok (value, state') ↔ f state.heap = .ok value ∧ state' = state := by
  rw [onHeap, stateT_bind_ok]
  constructor
  · rintro ⟨_, _, hget, hrun⟩
    cases stateT_get_ok.1 hget
    cases hres : f state.heap with
    | error failure =>
      simp only [hres] at hrun
      exact absurd hrun stateT_throw_ok
    | ok value' =>
      simp only [hres] at hrun
      cases stateT_pure_ok.1 hrun
      exact ⟨rfl, rfl⟩
  · rintro ⟨hres, rfl⟩
    refine ⟨state', state', rfl, ?_⟩
    simp only [hres]
    rfl

/-- Every run of the computation leaves the type names as they are. -/
def Keeps {α : Type} (m : Norm α) : Prop :=
  ∀ state value state', m state = .ok (value, state') → Kept state.heap state'.heap

namespace Keeps

variable {α β : Type}

theorem pure (value : α) : Keeps (pure value : Norm α) := by
  intro state value' state' hrun
  cases stateT_pure_ok.1 hrun
  exact Kept.refl _

theorem throw (failure : Failure) : Keeps (throw failure : Norm α) := fun _ _ _ hrun =>
  absurd hrun stateT_throw_ok

theorem get : Keeps (get : Norm NormState) := by
  intro state value' state' hrun
  cases stateT_get_ok.1 hrun
  exact Kept.refl _

theorem bind {m : Norm α} {f : α → Norm β} (hm : Keeps m) (hf : ∀ value, Keeps (f value)) :
    Keeps (m >>= f) := by
  intro state value state' hrun
  obtain ⟨value', middle, hrun, hrun'⟩ := stateT_bind_ok.1 hrun
  exact (hm _ _ _ hrun).trans (hf _ _ _ _ hrun')

theorem ite {condition : Prop} [Decidable condition] {m m' : Norm α} (hm : Keeps m)
    (hm' : Keeps m') : Keeps (if condition then m else m') := by
  split
  · exact hm
  · exact hm'

theorem mapM {f : α → Norm β} (hf : ∀ value, Keeps (f value)) :
    ∀ values : List α, Keeps (values.mapM f)
  | [] => by
      rw [List.mapM_nil]
      exact pure []
  | value :: values => by
      rw [List.mapM_cons]
      exact bind (hf value) fun _ => bind (mapM hf values) fun _ => pure _

theorem onHeap (f : Heap → Except Failure α) : Keeps (onHeap f) := by
  refine bind get fun state => ?_
  cases f state.heap with
  | ok value => exact pure value
  | error failure => exact throw failure

theorem resetSet : Keeps resetSet := by
  intro state value state' hrun
  cases stateT_modify_ok.1 hrun
  exact Kept.refl _

theorem visit (tfv : Tfv) : Keeps (visit tfv) := by
  intro state value state' hrun
  cases stateT_modify_ok.1 hrun
  exact Kept.refl _

end Keeps

/-- The normalisation of a type function keeps the type names and returns the
type name that a cell denotes. -/
def NormalizesTfun (ifInterface : Bool) (fuel : Nat) : Prop :=
  ∀ tvarEnv tfun state value state',
    redTfun ifInterface fuel tvarEnv tfun state = .ok (value, state') →
      Kept state.heap state'.heap ∧
        ∀ c r, tfun = .tfunVar c → Denotes state.heap c r → value = .tfunVar r

theorem visiting_keeps {tvarEnv : TvarEnv}
    {conSpec : ConSpec} (make : ConSpec → Tfunkind) {state : NormState}
    (hkeeps : Keeps (redConSpec ifInterface fuel tvarEnv conSpec))
    (hvar : ∀ conSpec', (make conSpec').typeVariable = (state.heap tfv).typeVariable)
    (hreal : ∀ conSpec', (make conSpec').isRealized = (state.heap tfv).isRealized)
    (hnot : (state.heap tfv).isRealized = false) {value : Tfun} {state' : NormState}
    (hrun : (do
      if ← isVisited tfv then return .tfunVar tfv
      else
        visit tfv
        let conSpec ← redConSpec ifInterface fuel tvarEnv conSpec
        assign tfv (make conSpec)
        return .tfunVar tfv : Norm Tfun) state = .ok (value, state')) :
    Kept state.heap state'.heap ∧ value = .tfunVar tfv := by
  obtain ⟨visited, state1, hvisited, hrun⟩ := stateT_bind_ok.1 hrun
  obtain ⟨state2, _, hget, hpure⟩ := stateT_bind_ok.1 hvisited
  cases stateT_get_ok.1 hget
  cases stateT_pure_ok.1 hpure
  split at hrun
  · cases stateT_pure_ok.1 hrun
    exact ⟨Kept.refl _, rfl⟩
  · obtain ⟨_, state3, hvisit, hrun⟩ := stateT_bind_ok.1 hrun
    obtain ⟨conSpec', state4, hred, hrun⟩ := stateT_bind_ok.1 hrun
    obtain ⟨_, state5, hassign, hrun⟩ := stateT_bind_ok.1 hrun
    cases stateT_pure_ok.1 hrun
    cases stateT_modify_ok.1 hassign
    have hkept : Kept state.heap state4.heap :=
      (Keeps.visit tfv _ _ _ hvisit).trans (hkeeps _ _ _ hred)
    exact ⟨hkept.assign (hvar _) (hreal _) fun htrue => absurd (htrue.symm.trans hnot) (by simp),
      rfl⟩

theorem redTfun_normalizes (hty : ∀ tvarEnv ty, Keeps (redTy ifInterface fuel tvarEnv ty))
    (htfun : NormalizesTfun ifInterface fuel)
    (hconSpec : ∀ tvarEnv conSpec, Keeps (redConSpec ifInterface fuel tvarEnv conSpec)) :
    NormalizesTfun ifInterface (fuel + 1) := by
  intro tvarEnv tfun state value state' hrun
  cases tfun with
  | tfunDef admitsEq formals realizerTy =>
    rw [redTfun] at hrun
    obtain ⟨realizerTy', middle, hred, hrun⟩ := stateT_bind_ok.1 hrun
    refine ⟨?_, by simp⟩
    cases hform : tyForm formals realizerTy' with
    | tyName tfun' =>
      simp only [hform] at hrun
      cases stateT_pure_ok.1 hrun
      exact hty _ _ _ _ _ hred
    | tyTerm ty =>
      simp only [hform] at hrun
      cases stateT_pure_ok.1 hrun
      exact hty _ _ _ _ _ hred
  | tfunVar tfv =>
    rw [redTfun] at hrun
    obtain ⟨_, _, hget, hrun⟩ := stateT_bind_ok.1 hrun
    cases stateT_get_ok.1 hget
    have hself : ∀ {r}, (state.heap tfv).isRealized = false → Denotes state.heap tfv r →
        r = tfv := fun hnot hr => hr.1.eq_of_none (Tfunkind.link_of_not_realized hnot)
    cases hcell : state.heap tfv with
    | tfvSpec id admitsEq formals =>
      simp only [hcell] at hrun
      cases stateT_pure_ok.1 hrun
      refine ⟨Kept.refl _, fun c r hc hr => ?_⟩
      cases hc
      rw [hself (by simp [hcell, Tfunkind.isRealized]) hr]
    | tfunDty id admitsEq formals conSpec liftedTys dtyKind =>
      simp only [hcell] at hrun
      obtain ⟨hkept, hvalue⟩ := visiting_keeps
        (fun conSpec => .tfunDty id admitsEq formals conSpec liftedTys dtyKind) (hconSpec _ _)
        (by simp [hcell, Tfunkind.typeVariable]) (by simp [hcell, Tfunkind.isRealized])
        (by simp [hcell, Tfunkind.isRealized]) hrun
      refine ⟨hkept, fun c r hc hr => ?_⟩
      cases hc
      rw [hvalue, hself (by simp [hcell, Tfunkind.isRealized]) hr]
    | tfvDty id admitsEq formals conSpec liftedTys =>
      simp only [hcell] at hrun
      obtain ⟨hkept, hvalue⟩ := visiting_keeps
        (fun conSpec => .tfvDty id admitsEq formals conSpec liftedTys) (hconSpec _ _)
        (by simp [hcell, Tfunkind.typeVariable]) (by simp [hcell, Tfunkind.isRealized])
        (by simp [hcell, Tfunkind.isRealized]) hrun
      refine ⟨hkept, fun c r hc hr => ?_⟩
      cases hc
      rw [hvalue, hself (by simp [hcell, Tfunkind.isRealized]) hr]
    | realized id newTfun =>
      simp only [hcell] at hrun
      obtain ⟨value, middle, hred, hrun⟩ := stateT_bind_ok.1 hrun
      obtain ⟨_, _, hassign, hrun⟩ := stateT_bind_ok.1 hrun
      cases stateT_pure_ok.1 hrun
      cases stateT_modify_ok.1 hassign
      obtain ⟨hkept, hvalue⟩ := htfun _ _ _ _ _ hred
      -- a realised cell that denotes a type name is realised by a cell that does
      have hresult : ∀ r, Denotes state.heap tfv r → value = .tfunVar r := by
        intro r hr
        rcases hr.cases with ⟨rfl, v, hv⟩ | ⟨id', d, hcell', hd⟩
        · simp [hcell, Tfunkind.typeVariable] at hv
        · rw [hcell] at hcell'
          cases hcell'
          exact hvalue d r rfl hd
      refine ⟨hkept.assign ?_ ?_ fun _ r hr => ?_, fun c r hc hr => ?_⟩
      · simp [hcell, Tfunkind.typeVariable]
      · simp [hcell, Tfunkind.isRealized]
      · rw [hresult r hr, Tfunkind.link]
      · cases hc
        exact hresult r hr
    | instantiated tfunkind newTfun =>
      simp only [hcell] at hrun
      obtain ⟨newTfun', middle, hred, hrun⟩ := stateT_bind_ok.1 hrun
      obtain ⟨_, _, hassign, hrun⟩ := stateT_bind_ok.1 hrun
      cases stateT_pure_ok.1 hrun
      cases stateT_modify_ok.1 hassign
      obtain ⟨hkept, _⟩ := htfun _ _ _ _ _ hred
      have hnot : (state.heap tfv).isRealized = false := by simp [hcell, Tfunkind.isRealized]
      refine ⟨hkept.assign ?_ ?_ fun htrue => ?_, fun c r hc hr => ?_⟩
      · simp [hcell, Tfunkind.typeVariable]
      · simp [hcell, Tfunkind.isRealized]
      · exact absurd (htrue.symm.trans hnot) (by simp)
      · cases hc
        rw [hself hnot hr]
    | funDty tfun =>
      simp only [hcell] at hrun
      cases stateT_pure_ok.1 hrun
      refine ⟨Kept.refl _, fun c r hc hr => ?_⟩
      cases hc
      rw [hself (by simp [hcell, Tfunkind.isRealized]) hr]

theorem redTy_keeps (hty : ∀ tvarEnv ty, Keeps (redTy ifInterface fuel tvarEnv ty))
    (htfun : NormalizesTfun ifInterface fuel) (tvarEnv : TvarEnv) (ty : Ty) :
    Keeps (redTy ifInterface (fuel + 1) tvarEnv ty) := by
  cases ty with
  | tyWild => exact Keeps.pure _
  | tyError => exact Keeps.pure _
  | tyVar tvar =>
    rw [redTy]
    cases tvarEnv.lookup tvar.id with
    | none => exact Keeps.pure _
    | some ty => exact Keeps.pure _
  | tyFreeTyvar id => exact Keeps.pure _
  | tyRecord ifFlex fields =>
    rw [redTy]
    exact Keeps.bind (Keeps.mapM (fun field => Keeps.bind (hty _ _) fun _ => Keeps.pure _) _)
      fun _ => Keeps.pure _
  | tyConstruct tfun args =>
    rw [redTy]
    refine Keeps.bind Keeps.get fun state0 => ?_
    refine Keeps.bind (Keeps.mapM (fun arg => hty _ _) _) fun args => ?_
    refine Keeps.bind (fun _ _ _ hrun => (htfun _ _ _ _ _ hrun).1) fun tfun => ?_
    refine Keeps.bind (Keeps.onHeap _) fun pruned => ?_
    cases pruned with
    | tfunDef admitsEq formals realizerTy => exact hty _ _
    | tfunVar tfv =>
      refine Keeps.bind Keeps.get fun state => ?_
      split
      · exact Keeps.pure _
      · exact Keeps.pure _
      · exact Keeps.pure _
      · exact Keeps.throw _
      · exact Keeps.pure _
      · exact Keeps.pure _
  | tyFunM tyList ty2 =>
    rw [redTy]
    exact Keeps.bind (Keeps.mapM (fun ty => hty _ _) _) fun _ =>
      Keeps.bind (hty _ _) fun _ => Keeps.pure _
  | tyPoly kindedTvarList ty =>
    rw [redTy]
    exact Keeps.bind (hty _ _) fun _ => Keeps.pure _
  | inferredTy => exact Keeps.pure _

theorem normalization_keeps (ifInterface : Bool) (fuel : Nat) :
    (∀ tvarEnv ty, Keeps (redTy ifInterface fuel tvarEnv ty)) ∧
      NormalizesTfun ifInterface fuel ∧
      ∀ tvarEnv conSpec, Keeps (redConSpec ifInterface fuel tvarEnv conSpec) := by
  induction fuel with
  | zero =>
    refine ⟨fun tvarEnv ty => ?_, fun tvarEnv tfun state value state' hrun => ?_,
      fun tvarEnv conSpec => ?_⟩
    · rw [redTy]
      exact Keeps.throw _
    · rw [redTfun] at hrun
      exact absurd hrun stateT_throw_ok
    · rw [redConSpec]
      exact Keeps.throw _
  | succ fuel ih =>
    obtain ⟨ihTy, ihTfun, ihConSpec⟩ := ih
    refine ⟨redTy_keeps ihTy ihTfun, redTfun_normalizes ihTy ihTfun ihConSpec,
      fun tvarEnv conSpec => ?_⟩
    rw [redConSpec]
    refine Keeps.mapM (fun con => ?_) _
    cases con.2 with
    | none => exact Keeps.pure _
    | some ty => exact Keeps.bind (ihTy _ _) fun _ => Keeps.pure _

theorem reduceTy_keeps (ifInterface : Bool) (fuel : Nat) (tvarEnv : TvarEnv) (ty : Ty) :
    Keeps (reduceTy ifInterface fuel tvarEnv ty) :=
  Keeps.bind Keeps.resetSet fun _ => (normalization_keeps ifInterface fuel).1 tvarEnv ty

/-- The comparisons of types keep the type names. -/
structure ComparisonKeeps (ifInterface : Bool) (typIdEquiv : TypIdEquiv) (fuel : Nat) :
    Prop where
  tfun : ∀ tfun1 tfun2, Keeps (equalTfun ifInterface typIdEquiv fuel tfun1 tfun2)
  ty : ∀ equiv ty1 ty2, Keeps (equalTy ifInterface typIdEquiv fuel equiv ty1 ty2)
  tys : ∀ equiv tys, Keeps (equalTys ifInterface typIdEquiv fuel equiv tys)
  kinds : ∀ equiv kinds, Keeps (equalKinds ifInterface typIdEquiv fuel equiv kinds)
  kind : ∀ equiv kind1 kind2, Keeps (equalKind ifInterface typIdEquiv fuel equiv kind1 kind2)
  fields : ∀ equiv fields1 fields2 left,
    Keeps (equalFields ifInterface typIdEquiv fuel equiv fields1 fields2 left)

/-- The second computation runs if the first one says so. -/
theorem Keeps.andalso {m m' : Norm Bool} (hm : Keeps m) (hm' : Keeps m') :
    Keeps (do if ← m then m' else return false) :=
  Keeps.bind hm fun _ => Keeps.ite hm' (Keeps.pure _)

theorem equalTfun_keeps {typIdEquiv : TypIdEquiv}
    (ih : ComparisonKeeps ifInterface typIdEquiv fuel) (tfun1 tfun2 : Tfun) :
    Keeps (equalTfun ifInterface typIdEquiv (fuel + 1) tfun1 tfun2) := by
  have hinterface : ∀ tfun1 tfun2, Keeps (if ifInterface = true then
      equalTfun ifInterface typIdEquiv fuel tfun1 tfun2 else pure false) :=
    fun tfun1 tfun2 => Keeps.ite (ih.tfun tfun1 tfun2) (Keeps.pure _)
  rw [equalTfun]
  refine Keeps.bind Keeps.get fun state => Keeps.bind Keeps.get fun state' => ?_
  split
  · exact ih.tfun _ _
  · exact ih.tfun _ _
  · exact ih.tfun _ _
  · exact ih.tfun _ _
  · exact ih.ty _ _ _
  · exact Keeps.pure _
  · exact Keeps.pure _
  · exact Keeps.ite (Keeps.pure _) (hinterface _ _)
  · exact hinterface _ _
  · exact Keeps.ite (Keeps.pure _) (hinterface _ _)
  · exact hinterface _ _
  · exact Keeps.pure _
  · exact ih.tfun _ _
  · exact ih.tfun _ _
  · exact Keeps.pure _

theorem equalTy_keeps {typIdEquiv : TypIdEquiv}
    (ih : ComparisonKeeps ifInterface typIdEquiv fuel) (equiv : TvarIdEquiv) (ty1 ty2 : Ty) :
    Keeps (equalTy ifInterface typIdEquiv (fuel + 1) equiv ty1 ty2) := by
  have hsame : ∀ (lengths : Prop) [Decidable lengths] (m : Norm Bool), Keeps m →
      Keeps (if lengths then m else pure false) :=
    fun lengths _ m hm => Keeps.ite hm (Keeps.pure _)
  rw [equalTy]
  refine Keeps.bind (reduceTy_keeps _ _ _ _) fun ty1 => ?_
  refine Keeps.bind (reduceTy_keeps _ _ _ _) fun ty2 => ?_
  split
  · exact Keeps.pure _
  · exact Keeps.pure _
  · exact Keeps.pure _
  · exact Keeps.pure _
  · exact Keeps.pure _
  · exact ih.fields _ _ _ _
  · exact Keeps.andalso (ih.ty _ _ _) (hsame _ _ (ih.tys _ _))
  · exact hsame _ _ (Keeps.andalso (ih.kinds _ _) (ih.ty _ _ _))
  · exact Keeps.andalso (ih.tfun _ _) (hsame _ _ (ih.tys _ _))
  · exact Keeps.pure _

theorem comparison_keeps (ifInterface : Bool) (typIdEquiv : TypIdEquiv) (fuel : Nat) :
    ComparisonKeeps ifInterface typIdEquiv fuel := by
  induction fuel with
  | zero =>
    refine ⟨fun _ _ => ?_, fun _ _ _ => ?_, fun _ _ => ?_, fun _ _ => ?_, fun _ _ _ => ?_,
      fun _ _ _ _ => ?_⟩
    · rw [equalTfun]
      exact Keeps.throw _
    · rw [equalTy]
      exact Keeps.throw _
    · rw [equalTys]
      exact Keeps.throw _
    · rw [equalKinds]
      exact Keeps.throw _
    · rw [equalKind]
      exact Keeps.throw _
    · rw [equalFields]
      exact Keeps.throw _
  | succ fuel ih =>
    refine ⟨equalTfun_keeps ih, equalTy_keeps ih, fun equiv tys => ?_, fun equiv kinds => ?_,
      fun equiv kind1 kind2 => ?_, fun equiv fields1 fields2 left => ?_⟩
    · cases tys with
      | nil => exact Keeps.pure _
      | cons pair rest =>
        rw [equalTys]
        exact Keeps.andalso (ih.ty _ _ _) (ih.tys _ _)
    · cases kinds with
      | nil => exact Keeps.pure _
      | cons pair rest =>
        rw [equalKinds]
        exact Keeps.andalso (ih.kind _ _ _) (ih.kinds _ _)
    · cases kind1 with
      | univ prop1 =>
        cases kind2 with
        | univ prop2 => exact Keeps.pure _
        | recKind prop2 fields2 => exact Keeps.pure _
      | recKind prop1 fields1 =>
        cases kind2 with
        | univ prop2 => exact Keeps.pure _
        | recKind prop2 fields2 =>
          rw [equalKind]
          exact Keeps.ite (ih.fields _ _ _ _) (Keeps.pure _)
    · cases fields1 with
      | nil => exact Keeps.pure _
      | cons field rest =>
        rw [equalFields]
        cases fields2.lookup field.1 with
        | none => exact Keeps.pure _
        | some ty2 => exact Keeps.andalso (ih.ty _ _ _) (ih.fields _ _ _ _)

theorem compareCons_keeps (typIdEquiv : TypIdEquiv) (fuel : Nat) (equiv : TvarIdEquiv)
    (conSpec1 : ConSpec) (found : List String × List String × ConSpec) :
    Keeps (compareCons typIdEquiv fuel equiv conSpec1 found) := by
  induction conSpec1 generalizing found with
  | nil => exact Keeps.pure _
  | cons con rest ih =>
    obtain ⟨name, tyopt1⟩ := con
    obtain ⟨tyerrors, nameList1, conSpec2⟩ := found
    rw [compareCons]
    cases conSpec2.lookup name with
    | none => exact ih _
    | some tyopt2 =>
      have hsame : ∀ (same : Bool) found found',
          Keeps (if same = true then compareCons typIdEquiv fuel equiv rest found
            else compareCons typIdEquiv fuel equiv rest found') :=
        fun same found found' => Keeps.ite (ih found) (ih found')
      cases tyopt1 with
      | none =>
        cases tyopt2 with
        | none => exact Keeps.bind (Keeps.pure _) fun _ => hsame _ _ _
        | some ty2 => exact Keeps.bind (Keeps.pure _) fun _ => hsame _ _ _
      | some ty1 =>
        cases tyopt2 with
        | none => exact Keeps.bind (Keeps.pure _) fun _ => hsame _ _ _
        | some ty2 =>
          exact Keeps.bind ((comparison_keeps _ _ _).ty _ _ _) fun _ => hsame _ _ _

theorem checkConSpec_keeps (typIdEquiv : TypIdEquiv) (fuel : Nat) (formals1 : Formals)
    (conSpec1 : ConSpec) (formals2 : Formals) (conSpec2 : ConSpec) :
    Keeps (checkConSpec typIdEquiv fuel formals1 conSpec1 formals2 conSpec2) :=
  Keeps.bind (compareCons_keeps _ _ _ _ _) fun _ => Keeps.pure _

end SmlSharp.NameEvaluation
