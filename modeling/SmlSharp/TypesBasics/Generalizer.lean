/-
What the generalizer quantifies, and when it carries over the right constraints.
-/
import SmlSharp.TypesBasics.Terminates

namespace SmlSharp

namespace TypesBasics

section Specification

variable (store : Store) (ty : Ty) (constraints : List Constraint) (contextLambdaDepth : Int)

/-- The variable is younger than the context. -/
def Young (v : Nat) : Prop :=
  ∃ tvKind, store.get v = .tvar tvKind ∧ contextLambdaDepth ≤ tvKind.lambdaDepth

/-- The variables that are to be quantified. -/
def Quantified (v : Nat) : Prop :=
  FreeUnder store ty constraints v ∧ Young store contextLambdaDepth v

/-- The cell is now linked to the bound variable, which has its kind. -/
def BoundTo (store store' : Store) (v : Nat) (btv : Nat × Kind) : Prop :=
  store'.get v = .substituted (.boundvarTy btv.1) ∧
    ∃ tvKind, store.get v = .tvar tvKind ∧ tvKind.kind = btv.2

structure Generalizes (state : State) (generalized : Generalized) (state' : State) :
    Prop where
  removed : ∀ v, v ∈ generalized.removedTyIds ↔
    Quantified state.store ty constraints contextLambdaDepth v
  once : generalized.removedTyIds.Nodup
  bound : List.Forall₂ (BoundTo state.store state'.store) generalized.removedTyIds
    generalized.boundEnv
  distinct : (generalized.boundEnv.map Prod.fst).Nodup
  fresh : ∀ btv ∈ generalized.boundEnv, state.next ≤ btv.1 ∧ btv.1 < state'.next
  others : ∀ v, v ∉ generalized.removedTyIds → state'.store.get v = state.store.get v
  left : ∀ v, FreeUnder state.store ty constraints v → v ∉ generalized.removedTyIds →
    ∃ tvKind, state'.store.get v = .tvar tvKind ∧ tvKind.lambdaDepth < contextLambdaDepth
  constraints : generalized.boundEnv ≠ [] → ∀ c, c ∈ generalized.boundConstraints ↔
    c ∈ constraints ∧ ∀ v, c.Free state.store v → v ∈ generalized.removedTyIds

/-- If anything is quantified, no constraint has a second argument type with a
variable that is left while its other types have none. -/
def NoStray : Prop :=
  (∃ v, Quantified store ty constraints contextLambdaDepth v) →
    ∀ res arg1 arg2 loc, .join res arg1 arg2 loc ∈ constraints →
      (∀ v, Free store res v ∨ Free store arg1 v →
        Quantified store ty constraints contextLambdaDepth v) →
      ∀ v, Free store arg2 v → Quantified store ty constraints contextLambdaDepth v

end Specification

section Proof

variable {store : Store} {contextLambdaDepth : Int} {freeTvs : Tvset}

theorem youngerDepth_iff {contextDepth tyvarDepth : Int} :
    youngerDepth contextDepth tyvarDepth = true ↔ contextDepth ≤ tyvarDepth :=
  decide_eq_true_iff

theorem isFree_ok {r : Nat} {tvKind : TvKind} (hget : store.get r = .tvar tvKind)
    (hkind : ¬ tvKind.kind.IsOconst) : isFree store contextLambdaDepth r =
      .ok (youngerDepth contextLambdaDepth tvKind.lambdaDepth) := by
  unfold isFree
  rw [hget]
  dsimp only
  split
  · next tyList heq => exact absurd ⟨tyList, heq⟩ hkind
  · rfl

theorem youngerDepth_iff_young (contextLambdaDepth : Int) {r : Nat} {tvKind : TvKind}
    (hget : store.get r = .tvar tvKind) :
    youngerDepth contextLambdaDepth tvKind.lambdaDepth = true ↔
      Young store contextLambdaDepth r := by
  rw [youngerDepth_iff]
  constructor
  · intro hyoung
    exact ⟨tvKind, hget, hyoung⟩
  · rintro ⟨tvKind', hget', hyoung⟩
    rw [hget] at hget'
    cases hget'
    exact hyoung

/-- The young variables, in their order. -/
theorem filterFree_ok (contextLambdaDepth : Int) (h : ∀ v ∈ freeTvs, ∃ tvKind,
    store.get v = .tvar tvKind ∧ ¬ tvKind.kind.IsOconst) :
    ∃ newFreeTvs, filterFree store contextLambdaDepth freeTvs = .ok newFreeTvs ∧
      newFreeTvs.Sublist freeTvs ∧
      ∀ v, v ∈ newFreeTvs ↔ v ∈ freeTvs ∧ Young store contextLambdaDepth v := by
  induction freeTvs with
  | nil => exact ⟨[], rfl, List.Sublist.refl [], by simp⟩
  | cons r freeTvs ih =>
    obtain ⟨newFreeTvs, hrest, hsub, hmem⟩ := ih fun v hv => h v (List.mem_cons_of_mem r hv)
    obtain ⟨tvKind, hget, hkind⟩ := h r List.mem_cons_self
    rw [filterFree, isFree_ok hget hkind, except_ok_bind, hrest, except_ok_bind]
    have hyoung := youngerDepth_iff_young contextLambdaDepth hget
    by_cases hr : youngerDepth contextLambdaDepth tvKind.lambdaDepth = true
    · refine ⟨r :: newFreeTvs, by rw [if_pos hr]; rfl, hsub.cons_cons r, fun v => ?_⟩
      rw [List.mem_cons, hmem, List.mem_cons]
      constructor
      · rintro (rfl | ⟨hv, hvyoung⟩)
        · exact ⟨Or.inl rfl, hyoung.mp hr⟩
        · exact ⟨Or.inr hv, hvyoung⟩
      · rintro ⟨rfl | hv, hvyoung⟩
        · exact Or.inl rfl
        · exact Or.inr ⟨hv, hvyoung⟩
    · refine ⟨newFreeTvs, by rw [if_neg hr]; rfl, hsub.cons r, fun v => ?_⟩
      rw [hmem, List.mem_cons]
      constructor
      · rintro ⟨hv, hvyoung⟩
        exact ⟨Or.inr hv, hvyoung⟩
      · rintro ⟨rfl | hv, hvyoung⟩
        · exact absurd (hyoung.mpr hvyoung) hr
        · exact ⟨hv, hvyoung⟩

/-- The test looks at the result type and the first argument type. -/
def Constraint.Kept (store : Store) (newFreeTvs : Tvset) : Constraint → Prop
  | .join res arg1 _ _ =>
    ∀ v, TypesBasics.Free store res v ∨ TypesBasics.Free store arg1 v → v ∈ newFreeTvs

theorem toBeBound_converges (newFreeTvs : Tvset) (hacyclic : store.Acyclic) {c : Constraint}
    (hclean : c.Clean store) :
    ∃ b, Converges (fun fuel => toBeBound store fuel newFreeTvs c) b ∧
      (b = true ↔ c.Kept store newFreeTvs) := by
  cases c with
  | join res arg1 arg2 loc =>
    obtain ⟨tvarSet1, h₁⟩ := eftvTy_converges hacyclic hclean.1
    obtain ⟨tvarSet2, h₂⟩ := eftvTy_converges hacyclic hclean.2.1
    obtain ⟨tvarSet3, h₃⟩ := eftvTy_converges hacyclic hclean.2.2
    refine ⟨_, h₁.bind (h₂.bind (h₃.bind (Converges.pure fun _ => rfl))), ?_⟩
    obtain ⟨enough₁, h₁⟩ := h₁
    obtain ⟨enough₂, h₂⟩ := h₂
    have hmem₁ := (eftvTy_ok (h₁ enough₁ (Nat.le_refl _))).2
    have hmem₂ := (eftvTy_ok (h₂ enough₂ (Nat.le_refl _))).2
    simp only [List.all_eq_true, List.mem_append, hmem₁, hmem₂, or_self, decide_eq_true_eq]
    rfl

theorem filterBound_converges (newFreeTvs : Tvset) (hacyclic : store.Acyclic)
    {constraints : List Constraint}
    (hclean : ∀ c ∈ constraints, c.Clean store) :
    ∃ bcs, Converges (fun fuel => filterBound store fuel newFreeTvs constraints) bcs ∧
      ∀ c, c ∈ bcs ↔ c ∈ constraints ∧ c.Kept store newFreeTvs := by
  induction constraints with
  | nil => exact ⟨[], Converges.pure fun _ => rfl, by simp⟩
  | cons c constraints ih =>
    obtain ⟨bcs, hrest, hmem⟩ := ih fun c' hc' => hclean c' (List.mem_cons_of_mem c hc')
    obtain ⟨b, hb, hkept⟩ := toBeBound_converges newFreeTvs hacyclic
      (hclean c List.mem_cons_self)
    refine ⟨if b then c :: bcs else bcs,
      hb.bind (hrest.bind (Converges.pure fun _ => rfl)), fun c' => ?_⟩
    cases b with
    | true =>
      rw [if_pos rfl, List.mem_cons, hmem, List.mem_cons]
      constructor
      · rintro (rfl | ⟨hc', hkept'⟩)
        · exact ⟨Or.inl rfl, hkept.mp rfl⟩
        · exact ⟨Or.inr hc', hkept'⟩
      · rintro ⟨rfl | hc', hkept'⟩
        · exact Or.inl rfl
        · exact Or.inr ⟨hc', hkept'⟩
    | false =>
      rw [if_neg Bool.false_ne_true, hmem, List.mem_cons]
      constructor
      · rintro ⟨hc', hkept'⟩
        exact ⟨Or.inr hc', hkept'⟩
      · rintro ⟨rfl | hc', hkept'⟩
        · exact absurd (hkept.mpr hkept') Bool.false_ne_true
        · exact ⟨hc', hkept'⟩

/-! ### Binding -/

/-- What binding the variables one after another does. -/
structure Binds (rs : List Nat) (state : State) (new : List (Nat × Kind)) (state' : State) :
    Prop where
  bound : List.Forall₂ (BoundTo state.store state'.store) rs new
  distinct : (new.map Prod.fst).Nodup
  next : state.next ≤ state'.next
  fresh : ∀ btv ∈ new, state.next ≤ btv.1 ∧ btv.1 < state'.next
  others : ∀ v, v ∉ rs → state'.store.get v = state.store.get v

theorem bindTvs_ok {rs : List Nat} (hnodup : rs.Nodup) (state : State)
    (htvar : ∀ r ∈ rs, ∃ tvKind, state.store.get r = .tvar tvKind) (btvs : List (Nat × Kind)) :
    ∃ new state', bindTvs rs state btvs = .ok (state', btvs ++ new) ∧
      Binds rs state new state' := by
  induction rs generalizing state btvs with
  | nil =>
    refine ⟨[], state, by rw [List.append_nil]; rfl, ?_⟩
    exact ⟨.nil, List.nodup_nil, Nat.le_refl _, by simp, fun v _ => rfl⟩
  | cons r rs ih =>
    obtain ⟨hr, hnodup⟩ := List.nodup_cons.mp hnodup
    obtain ⟨tvKind, hget⟩ := htvar r List.mem_cons_self
    have hother : ∀ v, v ≠ r → Store.get
        (state.store.set r (.substituted (.boundvarTy state.next))) v = state.store.get v :=
      fun v hv => get_set_ne hv.symm _
    have hne : ∀ v ∈ rs, v ≠ r := fun v hv heq => hr (heq ▸ hv)
    obtain ⟨new, state', hrun, hbinds⟩ := ih hnodup
      ⟨state.store.set r (.substituted (.boundvarTy state.next)), state.next + 1⟩
      (fun v hv => by
        rw [hother v (hne v hv)]
        exact htvar v (List.mem_cons_of_mem r hv))
      (btvs ++ [(state.next, tvKind.kind)])
    refine ⟨(state.next, tvKind.kind) :: new, state', ?_, ?_⟩
    · rw [bindTvs, hget]
      dsimp only
      rw [hrun, List.append_assoc]
      rfl
    · refine ⟨.cons ⟨?_, tvKind, hget, rfl⟩ ?_, ?_, Nat.le_of_succ_le hbinds.next, ?_, ?_⟩
      · rw [hbinds.others r hr, get_set_self (lt_length_of_tvar hget)]
      · apply ((List.forall₂_and_left _ _).mpr ⟨hne, hbinds.bound⟩).imp
        rintro v btv ⟨hv, hbound, tvKind', hget', hkind⟩
        exact ⟨hbound, tvKind', (hother v hv).symm.trans hget', hkind⟩
      · rw [List.map_cons, List.nodup_cons]
        refine ⟨fun hmem => ?_, hbinds.distinct⟩
        obtain ⟨btv, hbtv, heq⟩ := List.mem_map.mp hmem
        have hle := (hbinds.fresh btv hbtv).1
        dsimp only at hle heq
        omega
      · intro btv hbtv
        have hnext := hbinds.next
        rcases List.mem_cons.mp hbtv with rfl | hbtv
        · exact ⟨Nat.le_refl _, hnext⟩
        · have hfresh := hbinds.fresh btv hbtv
          dsimp only at hfresh
          omega
      · intro v hv
        rw [List.mem_cons, not_or] at hv
        rw [hbinds.others v hv.2, hother v hv.1]

/-! ### The generalizer -/

variable {ty : Ty} {constraints : List Constraint}

/-- The constraints kept are the right ones just when none is stray. -/
theorem kept_iff_noStray {removed : Tvset}
    (hremoved : ∀ v, v ∈ removed ↔ Quantified store ty constraints contextLambdaDepth v)
    (hne : removed ≠ []) {bcs : List Constraint}
    (hbcs : ∀ c, c ∈ bcs ↔ c ∈ constraints ∧ c.Kept store removed) :
    (∀ c, c ∈ bcs ↔ c ∈ constraints ∧ ∀ v, c.Free store v → v ∈ removed) ↔
      NoStray store ty constraints contextLambdaDepth := by
  constructor
  · intro hexact _ res arg1 arg2 loc hc hothers v hv
    have hkept : Constraint.join res arg1 arg2 loc ∈ bcs :=
      (hbcs _).mpr ⟨hc, fun v hv => (hremoved v).mpr (hothers v hv)⟩
    exact (hremoved v).mp (((hexact _).mp hkept).2 v (.arg2 hv))
  · intro hstray c
    obtain ⟨r, hr⟩ := List.exists_mem_of_ne_nil removed hne
    rw [hbcs]
    apply and_congr_right
    intro hc
    cases c with
    | join res arg1 arg2 loc =>
      constructor
      · intro hkept v hv
        cases hv with
        | res hv => exact hkept v (Or.inl hv)
        | arg1 hv => exact hkept v (Or.inr hv)
        | arg2 hv =>
          exact (hremoved v).mpr (hstray ⟨r, (hremoved r).mp hr⟩ res arg1 arg2 loc hc
            (fun u hu => (hremoved u).mp (hkept u hu)) v hv)
      · rintro hall v (hv | hv)
        · exact hall v (.res hv)
        · exact hall v (.arg1 hv)

/-- The generalizer quantifies the young free variables and leaves the others; the
constraints it carries over are the right ones if and only if no constraint has
a variable that is left in its second argument type only. -/
theorem generalizer_generalizes_iff (state : State) (hacyclic : state.store.Acyclic) (ty : Ty)
    (hty : Clean state.store ty) (constraints : List Constraint)
    (hclean : ∀ c ∈ constraints, c.Clean state.store) (contextLambdaDepth : Int) :
    ∃ generalized state',
      Converges (fun fuel => generalizer fuel ty constraints contextLambdaDepth state)
        (generalized, state') ∧
      (Generalizes ty constraints contextLambdaDepth state generalized state' ↔
        NoStray state.store ty constraints contextLambdaDepth) := by
  obtain ⟨freeTvs, hconv⟩ := eftv_converges hacyclic hty hclean
  have ⟨enough, heftv⟩ := hconv
  obtain ⟨hnodup, hmem⟩ := eftv_ok (heftv enough (Nat.le_refl _))
  obtain ⟨newFreeTvs, hfilter, hsub, hyoung⟩ :=
    filterFree_ok contextLambdaDepth fun v hv => ((hmem v).mp hv).tvar
  have hremoved : ∀ v, v ∈ newFreeTvs ↔
      Quantified state.store ty constraints contextLambdaDepth v := by
    intro v
    rw [hyoung, hmem]
    rfl
  have hold : ∀ v, FreeUnder state.store ty constraints v → v ∉ newFreeTvs →
      ∃ tvKind, state.store.get v = .tvar tvKind ∧ tvKind.lambdaDepth < contextLambdaDepth := by
    intro v hv hnot
    obtain ⟨tvKind, hget, -⟩ := hv.tvar
    refine ⟨tvKind, hget, lt_of_not_ge fun hge => hnot ?_⟩
    exact (hremoved v).mpr ⟨hv, tvKind, hget, hge⟩
  have hfilter' : Converges
      (fun _ => filterFree state.store contextLambdaDepth freeTvs) newFreeTvs :=
    Converges.pure fun _ => hfilter
  by_cases hne : newFreeTvs = []
  · subst hne
    refine ⟨⟨[], [], []⟩, state,
      hconv.bind (hfilter'.bind (Converges.pure fun _ => rfl)), ?_⟩
    constructor
    · rintro - ⟨v, hv⟩
      exact absurd ((hremoved v).mpr hv) List.not_mem_nil
    · intro _
      exact ⟨hremoved, List.nodup_nil, .nil, List.nodup_nil, by simp, fun v _ => rfl,
        hold, fun h => absurd rfl h⟩
  · obtain ⟨bcs, hbound, hkept⟩ :=
      filterBound_converges newFreeTvs hacyclic hclean
    obtain ⟨btvs, state', hbind, hbinds⟩ := bindTvs_ok (hsub.nodup hnodup) state
      (fun v hv => by
        obtain ⟨tvKind, hget, -⟩ := ((hremoved v).mp hv).2
        exact ⟨tvKind, hget⟩) []
    have hbind' : Converges (fun _ => bindTvs newFreeTvs state []) (state', btvs) :=
      Converges.pure fun _ => hbind
    refine ⟨⟨btvs, newFreeTvs, bcs⟩, state', ?_, ?_⟩
    · refine hconv.bind (hfilter'.bind ?_)
      rw [List.isEmpty_eq_false_iff.mpr hne]
      exact hbound.bind (hbind'.bind (Converges.pure fun _ => rfl))
    · have hbtvs : btvs ≠ [] := by
        rintro rfl
        exact hne (List.forall₂_nil_right_iff.mp hbinds.bound)
      rw [← kept_iff_noStray hremoved hne hkept]
      constructor
      · intro h
        exact h.constraints hbtvs
      · intro h
        refine ⟨hremoved, hsub.nodup hnodup, hbinds.bound, hbinds.distinct, hbinds.fresh,
          hbinds.others, fun v hv hnot => ?_, fun _ => h⟩
        rw [hbinds.others v hnot]
        exact hold v hv hnot

/-- Two variables, the first one younger. -/
def strayStore : Store := [.tvar ⟨1, univKind, none⟩, .tvar ⟨0, univKind, none⟩]

theorem strayStore_acyclic : strayStore.Acyclic := by
  apply Store.acyclic_of_unlinked
  intro r ty h
  match r with
  | 0 => nomatch h
  | 1 => nomatch h
  | r + 2 =>
    cases h
    rfl

theorem strayStore_clean {r : Nat} (hr : r < 2) : Clean strayStore (.tyvarTy r) := by
  match r with
  | 0 => exact clean_of_univ rfl rfl
  | 1 => exact clean_of_univ rfl rfl

/-- The second argument type is a record of the older variable. -/
def strayConstraint : Constraint :=
  .join (.tyvarTy 0) (.tyvarTy 0) (.recordTy [("x", .tyvarTy 1)]) 0

theorem strayConstraint_clean : strayConstraint.Clean strayStore := by
  refine ⟨strayStore_clean (by decide), strayStore_clean (by decide), fun part hreach => ?_⟩
  cases hreach.cases_head with
  | inl heq =>
    rw [← heq]
    trivial
  | inr hstep =>
    obtain ⟨ty, hleads, hrest⟩ := hstep
    cases hleads with
    | part hpart =>
      cases hpart with
      | field hfield =>
        rw [List.mem_singleton.mp hfield] at hrest
        exact strayStore_clean (by decide) part hrest

/-- The constraint is carried over with a variable that is left. -/
theorem generalizer_stray :
    strayStore.Acyclic ∧ Clean strayStore (.tyvarTy 0) ∧ strayConstraint.Clean strayStore ∧
      ∃ generalized state',
        Converges (fun fuel => generalizer fuel (.tyvarTy 0) [strayConstraint] 1 ⟨strayStore, 0⟩)
          (generalized, state') ∧
        ¬ Generalizes (.tyvarTy 0) [strayConstraint] 1 ⟨strayStore, 0⟩ generalized state' := by
  refine ⟨strayStore_acyclic, strayStore_clean (by decide), strayConstraint_clean,
    ⟨[(0, univKind)], [0], [strayConstraint]⟩,
    ⟨[.substituted (.boundvarTy 0), .tvar ⟨0, univKind, none⟩], 1⟩, ⟨3, ?_⟩, ?_⟩
  · intro fuel hfuel
    obtain ⟨fuel, rfl⟩ := Nat.exists_eq_add_of_le' hfuel
    rfl
  · intro h
    have hall := ((h.constraints (by simp) strayConstraint).mp (by simp)).2
    have hmem := hall 1 (.arg2 ⟨1, .part (.field List.mem_cons_self)
      (.var rfl (fun ⟨_, heq⟩ => nomatch heq)), .refl⟩)
    simp at hmem

/-- At depth 0 both variables are young enough to be generalized. -/
theorem generalizer_generalizes_iff_stray :
    ∃ generalized state',
      Converges (fun fuel => generalizer fuel (.tyvarTy 0) [strayConstraint] 0 ⟨strayStore, 0⟩)
        (generalized, state') ∧
      (Generalizes (.tyvarTy 0) [strayConstraint] 0 ⟨strayStore, 0⟩ generalized state' ↔
        NoStray strayStore (.tyvarTy 0) [strayConstraint] 0) := by
  apply generalizer_generalizes_iff ⟨strayStore, 0⟩ strayStore_acyclic (.tyvarTy 0)
    (strayStore_clean (by decide)) [strayConstraint]
  intro c hc
  rw [List.mem_singleton.mp hc]
  exact strayConstraint_clean

end Proof

end TypesBasics

end SmlSharp
