/-
The worklist ends with the least solution of the equations of liveness.
-/
import SmlSharp.StackAllocation.Liveness

namespace SmlSharp

namespace StackAllocation

/-! ### The order of the sets -/

/-- A collection may happen. -/
def Gc.Causes : Gc → Prop
  | .noGC => False
  | .causeGC _ => True

/-- The variables that are defined before the next collection. -/
def Gc.defs : Gc → VarSet
  | .noGC => KeyedSet.empty
  | .causeGC defsBeforeGC => defsBeforeGC

instance : Preorder Gc where
  le gc gc' := (gc.Causes → gc'.Causes) ∧ gc.defs ≤ gc'.defs
  le_refl gc := ⟨id, le_refl gc.defs⟩
  le_trans _ _ _ h h' := ⟨h'.1 ∘ h.1, h.2.trans h'.2⟩

theorem Gc.le_def {gc gc' : Gc} :
    gc ≤ gc' ↔ (gc.Causes → gc'.Causes) ∧ gc.defs ≤ gc'.defs := Iff.rfl

theorem Gc.noGC_le (gc : Gc) : .noGC ≤ gc :=
  ⟨False.elim, fun _ hk => absurd hk KeyedSet.mem_empty⟩

theorem isSmallerThanOrEqualToGC_iff {gc gc' : Gc} :
    isSmallerThanOrEqualToGC gc gc' = true ↔ gc ≤ gc' := by
  cases gc with
  | noGC => simp [isSmallerThanOrEqualToGC, Gc.noGC_le]
  | causeGC s =>
    cases gc' with
    | noGC => simp [isSmallerThanOrEqualToGC, Gc.le_def, Gc.Causes]
    | causeGC t =>
      simp [isSmallerThanOrEqualToGC, Gc.le_def, Gc.Causes, Gc.defs,
        KeyedSet.isSubsetOf_iff]

instance : Preorder Sets where
  le s t := s.liveIn ≤ t.liveIn ∧ s.liveOut ≤ t.liveOut ∧ s.gcIn ≤ t.gcIn ∧
    s.gcOut ≤ t.gcOut
  le_refl s := ⟨le_refl _, le_refl _, le_refl _, le_refl _⟩
  le_trans _ _ _ h h' := ⟨h.1.trans h'.1, h.2.1.trans h'.2.1, h.2.2.1.trans h'.2.2.1,
    h.2.2.2.trans h'.2.2.2⟩

theorem Sets.le_def {s t : Sets} :
    s ≤ t ↔ s.liveIn ≤ t.liveIn ∧ s.liveOut ≤ t.liveOut ∧ s.gcIn ≤ t.gcIn ∧
      s.gcOut ≤ t.gcOut := Iff.rfl

/-! ### The sets of a block -/

section Flow

variable {gcIns gcIns' : List Gc} {defs : VarSet} {gc gcOut gcOut' : Gc} {v : Int}

theorem mem_defsBeforeGC? {s : VarSet} :
    defsBeforeGC? gc = some s ↔ gc = .causeGC s := by
  cases gc with
  | noGC => simp [defsBeforeGC?]
  | causeGC t => simp [defsBeforeGC?]

theorem gcOutOf_causes : (gcOutOf gcIns).Causes ↔ ∃ gc ∈ gcIns, gc.Causes := by
  have hnil : gcIns.filterMap defsBeforeGC? = [] ↔ ¬ ∃ gc ∈ gcIns, gc.Causes := by
    rw [List.filterMap_eq_nil_iff]
    push Not
    apply forall₂_congr
    intro gc _
    cases gc with
    | noGC => simp [Gc.Causes, defsBeforeGC?]
    | causeGC s => simp [Gc.Causes, defsBeforeGC?]
  rw [← not_iff_not, ← hnil, gcOutOf]
  split
  · next heq => simp only [Gc.Causes, heq, not_false_eq_true]
  · next hne => simpa [Gc.Causes] using hne

theorem mem_gcOutOf : v ∈ (gcOutOf gcIns).defs ↔ ∃ gc ∈ gcIns, v ∈ gc.defs := by
  have hmem : (∃ s ∈ gcIns.filterMap defsBeforeGC?, v ∈ s) ↔
      ∃ gc ∈ gcIns, v ∈ gc.defs := by
    constructor
    · rintro ⟨s, hs, hv⟩
      obtain ⟨gc, hgc, heq⟩ := List.mem_filterMap.mp hs
      rw [mem_defsBeforeGC?.mp heq] at hgc
      exact ⟨_, hgc, hv⟩
    · rintro ⟨gc, hgc, hv⟩
      cases gc with
      | noGC => exact absurd hv KeyedSet.mem_empty
      | causeGC s => exact ⟨s, List.mem_filterMap.mpr ⟨_, hgc, rfl⟩, hv⟩
  rw [← hmem, gcOutOf]
  split
  · next heq => simp only [heq, Gc.defs, KeyedSet.mem_empty, List.not_mem_nil, false_and,
      exists_false]
  · next hne => exact KeyedSet.mem_merge _

theorem gcInOf_causes : (gcInOf defs gc gcOut).Causes ↔ gc.Causes ∨ gcOut.Causes := by
  cases gc with
  | causeGC s => simp [gcInOf, Gc.Causes]
  | noGC =>
    cases gcOut with
    | noGC => simp [gcInOf, Gc.Causes]
    | causeGC s => simp [gcInOf, Gc.Causes]

theorem mem_gcInOf : v ∈ (gcInOf defs gc gcOut).defs ↔
    v ∈ gc.defs ∨ ¬ gc.Causes ∧ gcOut.Causes ∧ (v ∈ defs ∨ v ∈ gcOut.defs) := by
  cases gc with
  | causeGC s => simp [gcInOf, Gc.Causes, Gc.defs]
  | noGC =>
    cases gcOut with
    | noGC => simp [gcInOf, Gc.Causes, Gc.defs]
    | causeGC s => simp [gcInOf, Gc.Causes, Gc.defs]

theorem gcOutOf_mono (h : ∀ gc ∈ gcIns, ∃ gc' ∈ gcIns', gc ≤ gc') :
    gcOutOf gcIns ≤ gcOutOf gcIns' := by
  constructor
  · rw [gcOutOf_causes, gcOutOf_causes]
    rintro ⟨gc, hgc, hcauses⟩
    obtain ⟨gc', hgc', hle⟩ := h gc hgc
    exact ⟨gc', hgc', hle.1 hcauses⟩
  · intro v
    rw [mem_gcOutOf, mem_gcOutOf]
    rintro ⟨gc, hgc, hv⟩
    obtain ⟨gc', hgc', hle⟩ := h gc hgc
    exact ⟨gc', hgc', hle.2 v hv⟩

theorem gcInOf_mono (h : gcOut ≤ gcOut') : gcInOf defs gc gcOut ≤ gcInOf defs gc gcOut' := by
  constructor
  · rw [gcInOf_causes, gcInOf_causes]
    exact Or.imp_right h.1
  · intro v
    rw [mem_gcInOf, mem_gcInOf]
    apply Or.imp_right
    rintro ⟨hnot, hcauses, hv⟩
    exact ⟨hnot, h.1 hcauses, hv.imp_right (h.2 v)⟩

end Flow

/-! ### The equations of a graph -/

section Equations

variable {ι : Type}

/-- The sets that the heap holds. -/
def setsOf (heap : Heap ι) (b : ι) : Sets :=
  ⟨(heap b).liveIn, (heap b).liveOut, (heap b).gcIn, (heap b).gcOut⟩

/-- The equations of the blocks: a block sees what is live, and what is defined
before a collection, at the entries of its successors. -/
def equations (heap : Heap ι) : Equations ι Sets (VarSet × Gc) where
  visible s := (s.liveIn, s.gcIn)
  transfer b m := flow (heap b).defuse
    ((heap b).successors.map fun s => (m s).1)
    ((heap b).successors.map fun s => (m s).2)
  preds b := (heap b).predecessors

/-- Every edge is known at both of its ends. -/
def Linked (heap : Heap ι) : Prop :=
  ∀ a b, b ∈ (heap a).successors ↔ a ∈ (heap b).predecessors

theorem flow_mono {defuse : Defuse} {successors : List ι} {m m' : ι → VarSet × Gc}
    (h : ∀ s ∈ successors, m s ≤ m' s) :
    flow defuse (successors.map fun s => (m s).1) (successors.map fun s => (m s).2) ≤
      flow defuse (successors.map fun s => (m' s).1)
        (successors.map fun s => (m' s).2) := by
  have hlive : KeyedSet.merge (successors.map fun s => (m s).1) ≤
      KeyedSet.merge (successors.map fun s => (m' s).1) := by
    intro v
    rw [KeyedSet.mem_merge, KeyedSet.mem_merge]
    rintro ⟨set, hset, hv⟩
    obtain ⟨s, hs, rfl⟩ := List.mem_map.mp hset
    exact ⟨_, List.mem_map_of_mem hs, (h s hs).1 v hv⟩
  have hgc : gcOutOf (successors.map fun s => (m s).2) ≤
      gcOutOf (successors.map fun s => (m' s).2) := by
    apply gcOutOf_mono
    intro gc hgc
    obtain ⟨s, hs, rfl⟩ := List.mem_map.mp hgc
    exact ⟨_, List.mem_map_of_mem hs, (h s hs).2⟩
  refine ⟨?_, hlive, gcInOf_mono hgc, hgc⟩
  intro v
  simp only [flow, KeyedSet.mem_union, KeyedSet.mem_setMinus]
  exact Or.imp_left (And.imp_left (hlive v))

theorem equations_lawful {heap : Heap ι} (hlinked : Linked heap) :
    (equations heap).Lawful := by
  constructor
  · intro s s' h
    exact ⟨h.1, h.2.2.1⟩
  · intro b m m' h
    exact flow_mono fun s _ => h s
  · intro b m m' h
    exact flow_mono fun s hs => h s ((hlinked b s).mp hs)

/-! ### Ranks -/

def Gc.rank : Gc → Nat
  | .noGC => 0
  | .causeGC defsBeforeGC => 1 + defsBeforeGC.numItems

theorem Gc.rank_mono {gc gc' : Gc} (h : gc ≤ gc') : gc.rank ≤ gc'.rank := by
  cases gc with
  | noGC => exact Nat.zero_le _
  | causeGC s =>
    cases gc' with
    | noGC => exact absurd (h.1 trivial) id
    | causeGC t => exact Nat.add_le_add_left (KeyedSet.numItems_mono h.2) 1

theorem Gc.rank_lt {gc gc' : Gc} (h : gc ≤ gc') (hnot : ¬ gc' ≤ gc) :
    gc.rank < gc'.rank := by
  cases gc' with
  | noGC => exact absurd (Gc.noGC_le gc) hnot
  | causeGC t =>
    cases gc with
    | noGC =>
      simp only [Gc.rank]
      omega
    | causeGC s =>
      apply Nat.add_lt_add_left
      exact KeyedSet.numItems_lt h.2 fun hle => hnot ⟨fun _ => trivial, hle⟩

def rank (m : VarSet × Gc) : Nat := m.1.numItems + m.2.rank

theorem rank_mono (m m' : VarSet × Gc) (h : m ≤ m') : rank m ≤ rank m' :=
  Nat.add_le_add (KeyedSet.numItems_mono h.1) (Gc.rank_mono h.2)

theorem rank_lt (m m' : VarSet × Gc) (h : m ≤ m') (hnot : ¬ m' ≤ m) :
    rank m < rank m' := by
  by_cases hlive : m'.1 ≤ m.1
  · have hgc : ¬ m'.2 ≤ m.2 := fun hle => hnot ⟨hlive, hle⟩
    exact Nat.add_lt_add_of_le_of_lt (KeyedSet.numItems_mono h.1) (Gc.rank_lt h.2 hgc)
  · exact Nat.add_lt_add_of_lt_of_le (KeyedSet.numItems_lt h.1 hlive)
      (Gc.rank_mono h.2)

end Equations

/-! ### Runs of the worklist -/

section Run

variable {ι : Type}

/-- Heaps that differ only in the sets of the blocks. -/
structure SameGraph (heap heap' : Heap ι) : Prop where
  successors : ∀ b, (heap' b).successors = (heap b).successors
  predecessors : ∀ b, (heap' b).predecessors = (heap b).predecessors
  argVarList : ∀ b, (heap' b).argVarList = (heap b).argVarList
  bodyExp : ∀ b, (heap' b).bodyExp = (heap b).bodyExp
  defuse : ∀ b, (heap' b).defuse = (heap b).defuse

/-- The state of the heap before the analysis. -/
def Fresh (heap : Heap ι) : Prop :=
  ∀ b, setsOf heap b = ⟨KeyedSet.empty, KeyedSet.empty, .noGC, .noGC⟩

theorem SameGraph.refl (heap : Heap ι) : SameGraph heap heap :=
  ⟨fun _ => rfl, fun _ => rfl, fun _ => rfl, fun _ => rfl, fun _ => rfl⟩

theorem SameGraph.trans {heap heap' heap'' : Heap ι} (h : SameGraph heap heap')
    (h' : SameGraph heap' heap'') : SameGraph heap heap'' :=
  ⟨fun b => (h'.successors b).trans (h.successors b),
    fun b => (h'.predecessors b).trans (h.predecessors b),
    fun b => (h'.argVarList b).trans (h.argVarList b),
    fun b => (h'.bodyExp b).trans (h.bodyExp b),
    fun b => (h'.defuse b).trans (h.defuse b)⟩

theorem SameGraph.equations_eq {heap heap' : Heap ι} (h : SameGraph heap heap') :
    equations heap' = equations heap := by
  have htransfer : (equations heap').transfer = (equations heap).transfer := by
    funext b m
    simp only [equations, h.successors, h.defuse]
  have hpreds : (equations heap').preds = (equations heap).preds := by
    funext b
    exact h.predecessors b
  change Equations.mk _ (equations heap').transfer (equations heap').preds = _
  rw [htransfer, hpreds]
  rfl

/-- Some values satisfy the equations: all variables that are used are live
everywhere. -/
theorem exists_above (heap : Heap ι) (blocks : List ι) (hall : ∀ b, b ∈ blocks) :
    ∃ z, (equations heap).Above z := by
  let live := KeyedSet.merge (blocks.map fun b => (heap b).defuse.uses)
  let gc := Gc.causeGC (KeyedSet.merge
    (blocks.map fun b => (heap b).defuse.defs.union (heap b).defuse.gc.defs))
  refine ⟨fun _ => ⟨live, live, gc, gc⟩, fun b => ?_⟩
  have hout : KeyedSet.merge ((heap b).successors.map fun _ => live) ≤ live := by
    intro v
    rw [KeyedSet.mem_merge]
    rintro ⟨set, hset, hv⟩
    obtain ⟨-, -, rfl⟩ := List.mem_map.mp hset
    exact hv
  have hgc : gcOutOf ((heap b).successors.map fun _ => gc) ≤ gc := by
    refine ⟨fun _ => trivial, ?_⟩
    intro v
    rw [mem_gcOutOf]
    rintro ⟨gc', hgc', hv⟩
    obtain ⟨-, -, rfl⟩ := List.mem_map.mp hgc'
    exact hv
  refine ⟨?_, hout, ⟨fun _ => trivial, ?_⟩, hgc⟩
  · intro v
    simp only [Equations.next, equations, flow, KeyedSet.mem_union, KeyedSet.mem_setMinus]
    rintro (⟨hv, -⟩ | hv)
    · exact hout v hv
    · exact (KeyedSet.mem_merge _).mpr ⟨_, List.mem_map_of_mem (hall b), hv⟩
  · intro v hv
    have hdefs : ∀ v, v ∈ (heap b).defuse.defs ∨ v ∈ (heap b).defuse.gc.defs →
        v ∈ gc.defs := by
      intro v hv
      exact (KeyedSet.mem_merge _).mpr
        ⟨_, List.mem_map_of_mem (hall b), KeyedSet.mem_union.mpr hv⟩
    rcases mem_gcInOf.mp hv with hv | ⟨-, -, hv | hv⟩
    · exact hdefs v (Or.inr hv)
    · exact hdefs v (Or.inl hv)
    · exact hgc.2 v hv

variable [DecidableEq ι]

/-- A block gets its new sets. -/
def assign (heap : Heap ι) (r : ι) (new : Sets) : Heap ι :=
  Function.update heap r
    { heap r with
      liveOut := new.liveOut, liveIn := new.liveIn,
      gcOut := new.gcOut, gcIn := new.gcIn }

theorem assign_same {heap : Heap ι} {r : ι} {new : Sets} :
    assign heap r new r =
      { heap r with
        liveOut := new.liveOut, liveIn := new.liveIn,
        gcOut := new.gcOut, gcIn := new.gcIn } :=
  Function.update_self r _ heap

theorem assign_other {heap : Heap ι} {r b : ι} {new : Sets} (hne : b ≠ r) :
    assign heap r new b = heap b :=
  Function.update_of_ne hne _ heap

theorem sameGraph_assign (heap : Heap ι) (r : ι) (new : Sets) :
    SameGraph heap (assign heap r new) := by
  have hsets : ∀ b, ∃ s : Sets, assign heap r new b =
      { heap b with
        liveOut := s.liveOut, liveIn := s.liveIn,
        gcOut := s.gcOut, gcIn := s.gcIn } := by
    intro b
    by_cases hb : b = r
    · exact ⟨new, hb ▸ assign_same⟩
    · exact ⟨setsOf heap b, assign_other hb⟩
  constructor <;> intro b <;> obtain ⟨s, hs⟩ := hsets b <;> rw [hs]

theorem setsOf_assign (heap : Heap ι) (r : ι) :
    setsOf (assign heap r ((equations heap).next (setsOf heap) r)) =
      (equations heap).visit (setsOf heap) r := by
  funext b
  by_cases hb : b = r
  · rw [hb, Equations.visit_same, setsOf, assign_same]
  · rw [Equations.visit_other hb, setsOf, assign_other hb]
    rfl

/-- One block is visited. -/
theorem liveness_cons (fuel : Nat) (heap : Heap ι) (r : ι) (blocks : List ι) :
    liveness (fuel + 1) heap (r :: blocks) =
      liveness fuel (assign heap r ((equations heap).next (setsOf heap) r))
        (if ((equations heap).next (setsOf heap) r).liveIn.isSubsetOf
              (heap r).liveIn &&
            isSmallerThanOrEqualToGC ((equations heap).next (setsOf heap) r).gcIn
              (heap r).gcIn
          then blocks else (heap r).predecessors ++ blocks) := rfl

omit [DecidableEq ι] in
theorem unchanged_iff (heap : Heap ι) (r : ι) (new : Sets) :
    (new.liveIn.isSubsetOf (heap r).liveIn &&
        isSmallerThanOrEqualToGC new.gcIn (heap r).gcIn) = true ↔
      (equations heap).visible new ≤ (equations heap).visible (setsOf heap r) := by
  rw [Bool.and_eq_true, KeyedSet.isSubsetOf_iff, isSmallerThanOrEqualToGC_iff]
  rfl

/-- The worklist becomes empty, and then the sets are the least solution. -/
theorem liveness_ends [Fintype ι] {heap : Heap ι} (hlinked : Linked heap)
    (hfresh : Fresh heap) {blocks : List ι} (hall : ∀ b, b ∈ blocks) :
    ∃ final, (∃ n, ∀ fuel, n ≤ fuel → liveness fuel heap blocks = some final) ∧
      SameGraph heap final ∧ (equations heap).Inv (setsOf final) [] := by
  obtain ⟨z, hz⟩ := exists_above heap blocks hall
  have hstart : (equations heap).Inv (setsOf heap) blocks := by
    apply Equations.inv_start _ hall
    intro b l
    rw [hfresh b]
    exact ⟨fun _ hv => absurd hv KeyedSet.mem_empty,
      fun _ hv => absurd hv KeyedSet.mem_empty, Gc.noGC_le _, Gc.noGC_le _⟩
  have hrun := Equations.Inv.induction
    (fun x worklist => ∀ heap', SameGraph heap heap' → setsOf heap' = x →
      ∃ final, (∃ n, ∀ fuel, n ≤ fuel → liveness fuel heap' worklist = some final) ∧
        SameGraph heap final ∧ (equations heap).Inv (setsOf final) [])
    (equations_lawful hlinked) rank_mono rank_lt hz ?_ ?_ ?_ _ _ hstart
  · exact hrun heap (SameGraph.refl heap) rfl
  · rintro x hinv heap' hsame rfl
    refine ⟨heap', ⟨0, fun fuel _ => ?_⟩, hsame, hinv⟩
    cases fuel <;> rfl
  · rintro x b worklist hinv hle ih heap' hsame rfl
    rw [← hsame.equations_eq] at hle ih
    obtain ⟨final, ⟨n, hn⟩, hfinal⟩ := ih (assign heap' b _)
      (hsame.trans (sameGraph_assign heap' b _))
      (setsOf_assign heap' b)
    refine ⟨final, ⟨n + 1, fun fuel hfuel => ?_⟩, ?_⟩
    · obtain ⟨fuel, rfl⟩ := Nat.exists_eq_succ_of_ne_zero (Nat.ne_of_gt (by omega : 0 < fuel))
      rw [liveness_cons, if_pos ((unchanged_iff heap' b _).mpr hle)]
      exact hn fuel (by omega)
    · rw [← hsame.equations_eq]
      exact hfinal
  · rintro x b worklist hinv hle ih heap' hsame rfl
    rw [← hsame.equations_eq] at hle ih
    obtain ⟨final, ⟨n, hn⟩, hfinal⟩ := ih (assign heap' b _)
      (hsame.trans (sameGraph_assign heap' b _))
      (setsOf_assign heap' b)
    refine ⟨final, ⟨n + 1, fun fuel hfuel => ?_⟩, ?_⟩
    · obtain ⟨fuel, rfl⟩ := Nat.exists_eq_succ_of_ne_zero (Nat.ne_of_gt (by omega : 0 < fuel))
      rw [liveness_cons, if_neg (mt (unchanged_iff heap' b _).mp hle)]
      exact hn fuel (by omega)
    · rw [← hsame.equations_eq]
      exact hfinal

end Run

end StackAllocation

end SmlSharp
