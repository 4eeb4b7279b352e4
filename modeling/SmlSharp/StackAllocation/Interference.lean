/-
Variables that are live across a collection, and the least solution that the
worklist ends with.
-/
import SmlSharp.StackAllocation.Solution

namespace SmlSharp

namespace StackAllocation

structure Interference where
  interferences : List VarSet
  gc : VarSet

def interferenceStep (z : VarSet × Interference) (defined use : VarSet)
    (causeGC : Bool) : VarSet × Interference :=
  let (liveOut, ⟨interferences, gc⟩) := z
  let interfere := KeyedSet.union defined liveOut
  let alive := KeyedSet.setMinus liveOut defined
  let liveIn := KeyedSet.union alive use
  let gc := if causeGC then KeyedSet.union gc alive else gc
  (liveIn, ⟨interfere :: interferences, gc⟩)

variable {ι : Type}

def interferenceExp (z : VarSet × Interference) : Exp ι → VarSet × Interference
  | .define defined causeGC next =>
    interferenceStep (interferenceExp z next) defined KeyedSet.empty causeGC
  | .mid defined use causeGC next =>
    interferenceStep (interferenceExp z next) defined use causeGC
  | .call defined use _ causeGC => interferenceStep z defined use causeGC
  | .last defined use => interferenceStep z defined use false
  | .localcode _ next => interferenceExp z next
  | .handler nextExp _ => interferenceExp z nextExp

def interferenceBlock (i : Interference) (block : Block ι) : Interference :=
  (interferenceExp (block.liveOut, i) block.bodyExp).2

def interference : List (Block ι) → Interference
  | [] => ⟨[], KeyedSet.empty⟩
  | block :: blocks => interferenceBlock (interference blocks) block

/-! ### Live variables at each instruction -/

/-- The variables that are live before the code, when those of `out` are live
behind it. -/
def Exp.live (out : Int → Prop) : Exp ι → Int → Prop
  | .define defined _ next, v => next.live out v ∧ v ∉ defined
  | .mid defined use _ next, v => v ∈ use ∨ next.live out v ∧ v ∉ defined
  | .call defined use _ _, v => v ∈ use ∨ out v ∧ v ∉ defined
  | .last defined use, v => v ∈ use ∨ out v ∧ v ∉ defined
  | .localcode _ next, v => next.live out v
  | .handler nextExp _, v => nextExp.live out v

/-- For each instruction that may collect, the variables that are live across
it. -/
def Exp.gcPoints (out : Int → Prop) : Exp ι → List (Int → Prop)
  | .define defined causeGC next =>
    (if causeGC then [fun v => next.live out v ∧ v ∉ defined] else []) ++
      next.gcPoints out
  | .mid defined _ causeGC next =>
    (if causeGC then [fun v => next.live out v ∧ v ∉ defined] else []) ++
      next.gcPoints out
  | .call defined _ _ causeGC =>
    if causeGC then [fun v => out v ∧ v ∉ defined] else []
  | .last _ _ => []
  | .localcode _ next => next.gcPoints out
  | .handler nextExp _ => nextExp.gcPoints out

def Block.gcPoints (block : Block ι) : List (Int → Prop) :=
  block.bodyExp.gcPoints (· ∈ block.liveOut)

/-- The sets of a block summarise its instructions. -/
theorem live_iff (out : Int → Prop) (exp : Exp ι) (v : Int) : exp.live out v ↔
      v ∈ (defuseExp exp).uses ∨ out v ∧ v ∉ (defuseExp exp).defs := by
  induction exp with
  | define defined causeGC next ih =>
    simp only [Exp.live, defuseExp, ih, KeyedSet.mem_setMinus, KeyedSet.mem_union]
    tauto
  | mid defined use causeGC next ih =>
    simp only [Exp.live, defuseExp, ih, KeyedSet.mem_setMinus, KeyedSet.mem_union]
    tauto
  | call defined use returnTo causeGC => rfl
  | last defined use => rfl
  | localcode body next ih => exact ih
  | handler nextExp handler ih => exact ih

/-! ### What interference collects -/

/-- What `interferenceExp` adds, for the variables `out` that are live behind
the code. -/
structure Collected (z z' : VarSet × Interference) (live : Int → Prop)
    (points : List (Int → Prop)) : Prop where
  live_iff : ∀ v, v ∈ z'.1 ↔ live v
  gc_iff : ∀ v, v ∈ z'.2.gc ↔ v ∈ z.2.gc ∨ ∃ alive ∈ points, alive v
  kept : ∀ s ∈ z.2.interferences, s ∈ z'.2.interferences
  together : ∀ alive ∈ points, ∃ s ∈ z'.2.interferences, ∀ v, alive v → v ∈ s

/-- One instruction. -/
theorem Collected.step {z z' : VarSet × Interference} {live : Int → Prop}
    {points : List (Int → Prop)} (h : Collected z z' live points)
    (defined use : VarSet) (causeGC : Bool) :
    Collected z (interferenceStep z' defined use causeGC)
      (fun v => v ∈ use ∨ live v ∧ v ∉ defined)
      ((if causeGC then [fun v => live v ∧ v ∉ defined] else []) ++ points) := by
  obtain ⟨liveOut, interferences, gc⟩ := z'
  constructor
  · intro v
    simp only [interferenceStep, KeyedSet.mem_union, KeyedSet.mem_setMinus, ← h.live_iff]
    exact or_comm
  · intro v
    have hgc := h.gc_iff v
    have hlive := h.live_iff v
    cases causeGC with
    | false => simpa [interferenceStep] using hgc
    | true =>
      simp only at hgc hlive
      simp only [interferenceStep, if_true, KeyedSet.mem_union, KeyedSet.mem_setMinus,
        hgc, hlive, List.cons_append, List.nil_append, List.exists_mem_cons_iff]
      rw [or_assoc]
      exact or_congr_right or_comm
  · intro s hs
    exact List.mem_cons_of_mem _ (h.kept s hs)
  · intro alive halive
    rcases List.mem_append.mp halive with halive | halive
    · cases causeGC with
      | false => simp at halive
      | true =>
        rw [if_pos rfl, List.mem_singleton] at halive
        refine ⟨KeyedSet.union defined liveOut, List.mem_cons_self, ?_⟩
        rw [halive]
        intro v hv
        exact KeyedSet.mem_union.mpr (Or.inr ((h.live_iff v).mpr hv.1))
    · obtain ⟨s, hs, hsub⟩ := h.together alive halive
      exact ⟨s, List.mem_cons_of_mem _ hs, hsub⟩

theorem collected_exp (z : VarSet × Interference) (exp : Exp ι) :
    Collected z (interferenceExp z exp) (exp.live (· ∈ z.1))
      (exp.gcPoints (· ∈ z.1)) := by
  have hstart : Collected z z (· ∈ z.1) [] := by
    constructor <;> simp
  induction exp with
  | define defined causeGC next ih =>
    have hstep := ih.step defined KeyedSet.empty causeGC
    have hlive : (fun v => v ∈ (KeyedSet.empty : VarSet) ∨
        next.live (· ∈ z.1) v ∧ v ∉ defined) =
        (Exp.define defined causeGC next).live (· ∈ z.1) := by
      funext v
      simp [Exp.live]
    rw [hlive] at hstep
    exact hstep
  | mid defined use causeGC next ih => exact ih.step defined use causeGC
  | call defined use returnTo causeGC =>
    have hstep := hstart.step defined use causeGC
    rw [List.append_nil] at hstep
    exact hstep
  | last defined use => exact hstart.step defined use false
  | localcode body next ih => exact ih
  | handler nextExp handler ih => exact ih

/-- The `gc` set holds exactly the variables that are live across an instruction
that may collect. -/
theorem mem_interference_gc (blocks : List (Block ι)) (v : Int) :
    v ∈ (interference blocks).gc ↔
      ∃ block ∈ blocks, ∃ alive ∈ block.gcPoints, alive v := by
  induction blocks with
  | nil => simp [interference]
  | cons block blocks ih =>
    rw [List.exists_mem_cons_iff, ← ih, interference, interferenceBlock,
      (collected_exp _ block.bodyExp).gc_iff v]
    exact or_comm

/-- Variables that are live across one instruction that may collect are in one
set of interferences. -/
theorem interference_together (blocks : List (Block ι)) {block : Block ι}
    (hblock : block ∈ blocks) {alive : Int → Prop} (halive : alive ∈ block.gcPoints) :
    ∃ s ∈ (interference blocks).interferences, ∀ v, alive v → v ∈ s := by
  induction blocks with
  | nil => simp at hblock
  | cons head blocks ih =>
    have hcollected := collected_exp (head.liveOut, interference blocks) head.bodyExp
    rcases List.mem_cons.mp hblock with rfl | hblock
    · exact hcollected.together alive halive
    · obtain ⟨s, hs, hsub⟩ := ih hblock
      exact ⟨s, hcollected.kept s hs, hsub⟩

/-! ### The least solution -/

/-- The heap that the construction of blocks leaves. -/
structure Prepared (heap : Heap ι) : Prop where
  linked : Linked heap
  fresh : Fresh heap
  defuse : ∀ b, (heap b).defuse = defuseExp (heap b).bodyExp

theorem prepared_newBlock (argVarList : ι → List VarInfo) :
    Prepared fun b => newBlock (argVarList b) :=
  ⟨fun _ _ => by simp [newBlock], fun _ => rfl, fun _ => rfl⟩

section Prepared

variable [DecidableEq ι] {heap : Heap ι}

theorem Prepared.setBody (h : Prepared heap) (r : ι) (bodyExp : Exp ι) :
    Prepared (setBody heap r bodyExp) := by
  have hother : ∀ {b}, b ≠ r → StackAllocation.setBody heap r bodyExp b = heap b :=
    fun hne => Function.update_of_ne hne _ heap
  have hsame : StackAllocation.setBody heap r bodyExp r =
      { heap r with bodyExp := bodyExp, defuse := defuseExp bodyExp } :=
    Function.update_self r _ heap
  have hedges : ∀ b,
      (StackAllocation.setBody heap r bodyExp b).successors = (heap b).successors ∧
      (StackAllocation.setBody heap r bodyExp b).predecessors =
        (heap b).predecessors := by
    intro b
    by_cases hb : b = r
    · rw [hb, hsame]
      exact ⟨rfl, rfl⟩
    · rw [hother hb]
      exact ⟨rfl, rfl⟩
  constructor
  · intro a b
    rw [(hedges a).1, (hedges b).2]
    exact h.linked a b
  · intro b
    rw [← h.fresh b]
    by_cases hb : b = r
    · rw [hb, setsOf, hsame]
      rfl
    · rw [setsOf, hother hb]
      rfl
  · intro b
    by_cases hb : b = r
    · rw [hb, hsame]
    · rw [hother hb]
      exact h.defuse b

theorem addEdge_apply (heap : Heap ι) (fromBlock toBlock b : ι) :
    (addEdge heap fromBlock toBlock).1 b =
      { heap b with
        successors := if b = fromBlock then toBlock :: (heap b).successors
          else (heap b).successors,
        predecessors := if b = toBlock then fromBlock :: (heap b).predecessors
          else (heap b).predecessors } := by
  by_cases hto : b = toBlock
  · subst hto
    by_cases hfrom : b = fromBlock
    · subst hfrom
      simp [addEdge]
    · simp [addEdge, hfrom]
  · by_cases hfrom : b = fromBlock
    · subst hfrom
      simp [addEdge, hto]
    · simp [addEdge, hto, hfrom]

theorem Prepared.addEdge (h : Prepared heap) (fromBlock toBlock : ι) :
    Prepared (addEdge heap fromBlock toBlock).1 := by
  constructor
  · intro a b
    have hsuccessors : b ∈ (if a = fromBlock then toBlock :: (heap a).successors
        else (heap a).successors) ↔
        (a = fromBlock ∧ b = toBlock) ∨ b ∈ (heap a).successors := by
      by_cases ha : a = fromBlock <;> simp [ha]
    have hpredecessors : a ∈ (if b = toBlock then fromBlock :: (heap b).predecessors
        else (heap b).predecessors) ↔
        (a = fromBlock ∧ b = toBlock) ∨ a ∈ (heap b).predecessors := by
      by_cases hb : b = toBlock <;> simp [hb]
    rw [addEdge_apply, addEdge_apply, hsuccessors, hpredecessors, h.linked a b]
  · intro b
    rw [← h.fresh b, setsOf, addEdge_apply]
    rfl
  · intro b
    rw [addEdge_apply]
    exact h.defuse b

end Prepared

/-- The equations of liveness.  The sets at collections hold the variables that
are defined before the next one. -/
structure Solves (heap : Heap ι) : Prop where
  liveOut : ∀ b v, v ∈ (heap b).liveOut ↔
    ∃ s ∈ (heap b).successors, v ∈ (heap s).liveIn
  liveIn : ∀ b v, v ∈ (heap b).liveIn ↔
    v ∈ (heap b).defuse.uses ∨ v ∈ (heap b).liveOut ∧ v ∉ (heap b).defuse.defs
  gcOut_causes : ∀ b, (heap b).gcOut.Causes ↔
    ∃ s ∈ (heap b).successors, (heap s).gcIn.Causes
  gcOut : ∀ b v, v ∈ (heap b).gcOut.defs ↔
    ∃ s ∈ (heap b).successors, v ∈ (heap s).gcIn.defs
  gcIn_causes : ∀ b, (heap b).gcIn.Causes ↔
    (heap b).defuse.gc.Causes ∨ (heap b).gcOut.Causes
  gcIn : ∀ b v, v ∈ (heap b).gcIn.defs ↔
    v ∈ (heap b).defuse.gc.defs ∨ ¬ (heap b).defuse.gc.Causes ∧
      (heap b).gcOut.Causes ∧ (v ∈ (heap b).defuse.defs ∨ v ∈ (heap b).gcOut.defs)

theorem VarSet.equiv_iff {s t : VarSet} : s ≤ t ∧ t ≤ s ↔ ∀ v, v ∈ s ↔ v ∈ t := by
  rw [KeyedSet.le_def, KeyedSet.le_def, ← forall_and]
  exact forall_congr' fun v => iff_iff_implies_and_implies.symm

theorem Gc.equiv_iff {gc gc' : Gc} : gc ≤ gc' ∧ gc' ≤ gc ↔
    (gc.Causes ↔ gc'.Causes) ∧ ∀ v, v ∈ gc.defs ↔ v ∈ gc'.defs := by
  rw [Gc.le_def, Gc.le_def, and_and_and_comm, VarSet.equiv_iff]
  exact and_congr_left' iff_iff_implies_and_implies.symm

theorem Sets.equiv_iff {s t : Sets} : s ≤ t ∧ t ≤ s ↔
    (∀ v, v ∈ s.liveIn ↔ v ∈ t.liveIn) ∧ (∀ v, v ∈ s.liveOut ↔ v ∈ t.liveOut) ∧
      ((s.gcIn.Causes ↔ t.gcIn.Causes) ∧ ∀ v, v ∈ s.gcIn.defs ↔ v ∈ t.gcIn.defs) ∧
      ((s.gcOut.Causes ↔ t.gcOut.Causes) ∧
        ∀ v, v ∈ s.gcOut.defs ↔ v ∈ t.gcOut.defs) := by
  rw [Sets.le_def, Sets.le_def, ← VarSet.equiv_iff, ← VarSet.equiv_iff,
    ← Gc.equiv_iff, ← Gc.equiv_iff]
  tauto

/-- The equations of a heap, as those of the worklist. -/
theorem solves_iff (heap : Heap ι) : Solves heap ↔
    ∀ b, setsOf heap b ≤ (equations heap).next (setsOf heap) b ∧
      (equations heap).next (setsOf heap) b ≤ setsOf heap b := by
  have hliveOut : ∀ b v, v ∈ ((equations heap).next (setsOf heap) b).liveOut ↔
      ∃ s ∈ (heap b).successors, v ∈ (heap s).liveIn := by
    intro b v
    simp [Equations.next, equations, flow, setsOf]
  have hliveIn : ∀ b v, v ∈ ((equations heap).next (setsOf heap) b).liveIn ↔
      v ∈ (heap b).defuse.uses ∨
        v ∈ ((equations heap).next (setsOf heap) b).liveOut ∧
          v ∉ (heap b).defuse.defs := by
    intro b v
    simp [Equations.next, equations, flow, or_comm]
  have hgcOut_causes : ∀ b, ((equations heap).next (setsOf heap) b).gcOut.Causes ↔
      ∃ s ∈ (heap b).successors, (heap s).gcIn.Causes := by
    intro b
    simp [Equations.next, equations, flow, setsOf, gcOutOf_causes]
  have hgcOut : ∀ b v, v ∈ ((equations heap).next (setsOf heap) b).gcOut.defs ↔
      ∃ s ∈ (heap b).successors, v ∈ (heap s).gcIn.defs := by
    intro b v
    simp [Equations.next, equations, flow, setsOf, mem_gcOutOf]
  have hgcIn_causes : ∀ b, ((equations heap).next (setsOf heap) b).gcIn.Causes ↔
      (heap b).defuse.gc.Causes ∨
        ((equations heap).next (setsOf heap) b).gcOut.Causes :=
    fun b => gcInOf_causes
  have hgcIn : ∀ b v, v ∈ ((equations heap).next (setsOf heap) b).gcIn.defs ↔
      v ∈ (heap b).defuse.gc.defs ∨ ¬ (heap b).defuse.gc.Causes ∧
        ((equations heap).next (setsOf heap) b).gcOut.Causes ∧
          (v ∈ (heap b).defuse.defs ∨
            v ∈ ((equations heap).next (setsOf heap) b).gcOut.defs) :=
    fun b v => mem_gcInOf
  simp only [Sets.equiv_iff, setsOf]
  constructor
  · intro h b
    have hout : ∀ v, v ∈ (heap b).liveOut ↔
        v ∈ ((equations heap).next (setsOf heap) b).liveOut :=
      fun v => (h.liveOut b v).trans (hliveOut b v).symm
    have hgc_causes := (h.gcOut_causes b).trans (hgcOut_causes b).symm
    have hgc : ∀ v, v ∈ (heap b).gcOut.defs ↔
        v ∈ ((equations heap).next (setsOf heap) b).gcOut.defs :=
      fun v => (h.gcOut b v).trans (hgcOut b v).symm
    refine ⟨fun v => ?_, hout, ⟨?_, fun v => ?_⟩, hgc_causes, hgc⟩
    · rw [h.liveIn, hout]
      exact (hliveIn b v).symm
    · rw [h.gcIn_causes, hgc_causes]
      exact (hgcIn_causes b).symm
    · rw [h.gcIn, hgc_causes, hgc]
      exact (hgcIn b v).symm
  · intro h
    constructor
    · exact fun b v => ((h b).2.1 v).trans (hliveOut b v)
    · intro b v
      rw [(h b).2.1 v]
      exact ((h b).1 v).trans (hliveIn b v)
    · exact fun b => (h b).2.2.2.1.trans (hgcOut_causes b)
    · exact fun b v => ((h b).2.2.2.2 v).trans (hgcOut b v)
    · intro b
      rw [(h b).2.2.2.1]
      exact (h b).2.2.1.1.trans (hgcIn_causes b)
    · intro b v
      rw [(h b).2.2.2.1, (h b).2.2.2.2 v]
      exact ((h b).2.2.1.2 v).trans (hgcIn b v)

section Least

variable [DecidableEq ι] [Fintype ι]

/-- The worklist ends, and the sets that it leaves solve the equations. -/
theorem liveness_solves {heap : Heap ι} (hlinked : Linked heap) (hfresh : Fresh heap)
    {blocks : List ι} (hall : ∀ b, b ∈ blocks) :
    ∃ final, (∃ n, ∀ fuel, n ≤ fuel → liveness fuel heap blocks = some final) ∧
      SameGraph heap final ∧ Solves final ∧
      ∀ other, SameGraph heap other → Solves other →
        ∀ b, setsOf final b ≤ setsOf other b := by
  obtain ⟨final, hruns, hsame, hinv⟩ := liveness_ends hlinked hfresh hall
  obtain ⟨hfix, hleast⟩ := hinv.solution
  refine ⟨final, hruns, hsame, ?_, ?_⟩
  · rw [solves_iff, hsame.equations_eq]
    exact hfix
  · intro other hother hsolves
    apply hleast
    rw [solves_iff, hother.equations_eq] at hsolves
    exact fun b => (hsolves b).2

/-- The worklist ends with the least sets of live variables.  The sets at
collections hold what is defined before the next one; the variables that are
live across an instruction that may collect are those that `interference`
collects. -/
theorem liveness_least (heap : Heap ι) (hheap : Prepared heap) (blocks : List ι)
    (hall : ∀ b, b ∈ blocks) :
    ∃ final, (∃ n, ∀ fuel, n ≤ fuel → liveness fuel heap blocks = some final) ∧
      SameGraph heap final ∧ Solves final ∧
      (∀ other, SameGraph heap other → Solves other →
        ∀ b, setsOf final b ≤ setsOf other b) ∧
      (∀ b v, v ∈ (final b).liveIn ↔
        (final b).bodyExp.live (· ∈ (final b).liveOut) v) ∧
      ∀ v, v ∈ (interference (blocks.map final)).gc ↔
        ∃ b, ∃ alive ∈ (final b).gcPoints, alive v := by
  obtain ⟨final, hruns, hsame, hsolves, hleast⟩ :=
    liveness_solves hheap.linked hheap.fresh hall
  refine ⟨final, hruns, hsame, hsolves, hleast, ?_, ?_⟩
  · intro b v
    rw [live_iff, hsame.bodyExp, ← hheap.defuse, ← hsame.defuse]
    exact hsolves.liveIn b v
  · intro v
    rw [mem_interference_gc]
    simp [hall]

/-- The order in which the worklist starts does not matter: any two orders end with the
same sets, and the same variables are collected. -/
theorem liveness_order {heap : Heap ι} (hheap : Prepared heap) {blocks blocks' : List ι}
    (hall : ∀ b, b ∈ blocks) (hall' : ∀ b, b ∈ blocks') :
    ∃ final final', (∃ n, ∀ fuel, n ≤ fuel → liveness fuel heap blocks = some final ∧
        liveness fuel heap blocks' = some final') ∧
      (∀ b, setsOf final b ≤ setsOf final' b ∧ setsOf final' b ≤ setsOf final b) ∧
      ∀ v, v ∈ (interference (blocks.map final)).gc ↔
        v ∈ (interference (blocks'.map final')).gc := by
  obtain ⟨final, ⟨n, hn⟩, hsame, hsolves, hleast⟩ :=
    liveness_solves hheap.linked hheap.fresh hall
  obtain ⟨final', ⟨n', hn'⟩, hsame', hsolves', hleast'⟩ :=
    liveness_solves hheap.linked hheap.fresh hall'
  have hsets : ∀ b, setsOf final b ≤ setsOf final' b ∧ setsOf final' b ≤ setsOf final b :=
    fun b => ⟨hleast final' hsame' hsolves' b, hleast' final hsame hsolves b⟩
  have hpoints : ∀ b, (final b).gcPoints = (final' b).gcPoints := by
    intro b
    have hlive : (· ∈ (final b).liveOut) = (· ∈ (final' b).liveOut) :=
      funext fun v => propext ((Sets.equiv_iff.mp (hsets b)).2.1 v)
    rw [Block.gcPoints, Block.gcPoints, hlive, hsame.bodyExp, hsame'.bodyExp]
  refine ⟨final, final', ⟨n + n', fun fuel hfuel => ?_⟩, hsets, fun v => ?_⟩
  · exact ⟨hn fuel (by omega), hn' fuel (by omega)⟩
  · simp [mem_interference_gc, hall, hall', hpoints]

end Least

/-- A variable that is defined before a loop, which collects and uses it. -/
def collectingLoop : Heap (Fin 2) :=
  let x : VarInfo := ⟨7, .boxed⟩
  let heap : Heap (Fin 2) := fun _ => newBlock []
  let heap := setBody heap 0
    (.define (VarSet.singleton x) false (.last KeyedSet.empty KeyedSet.empty))
  let heap := setBody heap 1
    (.mid KeyedSet.empty KeyedSet.empty true (.last KeyedSet.empty (VarSet.singleton x)))
  let heap := (addEdge heap 0 1).1
  (addEdge heap 1 1).1

theorem collectingLoop_prepared : Prepared collectingLoop :=
  (((((prepared_newBlock fun _ => []).setBody 0 _).setBody 1 _).addEdge 0 1).addEdge 1 1)

/-- The loop is visited before the definition in front of it. -/
theorem liveness_least_loop :
    ∃ final, (∃ n, ∀ fuel, n ≤ fuel →
        liveness fuel collectingLoop [1, 0] = some final) ∧
      SameGraph collectingLoop final ∧ Solves final ∧
      (∀ other, SameGraph collectingLoop other → Solves other →
        ∀ b, setsOf final b ≤ setsOf other b) ∧
      (∀ b v, v ∈ (final b).liveIn ↔
        (final b).bodyExp.live (· ∈ (final b).liveOut) v) ∧
      ∀ v, v ∈ (interference ([1, 0].map final)).gc ↔
        ∃ b, ∃ alive ∈ (final b).gcPoints, alive v :=
  liveness_least collectingLoop collectingLoop_prepared [1, 0] (by decide)

/-- The two orders in which the blocks of the loop can be listed. -/
theorem liveness_order_loop :
    ∃ final final', (∃ n, ∀ fuel, n ≤ fuel →
        liveness fuel collectingLoop [1, 0] = some final ∧
        liveness fuel collectingLoop [0, 1] = some final') ∧
      (∀ b, setsOf final b ≤ setsOf final' b ∧ setsOf final' b ≤ setsOf final b) ∧
      ∀ v, v ∈ (interference ([1, 0].map final)).gc ↔
        v ∈ (interference ([0, 1].map final')).gc :=
  liveness_order collectingLoop_prepared (by decide) (by decide)

/-- The variable is live across the collection in the loop, and the sets of the
block do not hold it. -/
theorem liveness_gc_not_live :
    ∃ final, (∃ fuel, liveness fuel collectingLoop [1, 0] = some final) ∧
      ∃ alive ∈ (final 1).gcPoints, alive 7 ∧ 7 ∉ (final 1).gcIn.defs ∧
        7 ∉ (final 1).gcOut.defs := by
  obtain ⟨final, ⟨n, hn⟩, hsame, hsolves, -⟩ :=
    liveness_solves collectingLoop_prepared.linked collectingLoop_prepared.fresh
      (by decide : ∀ b : Fin 2, b ∈ [1, 0])
  have hbody : (final 1).bodyExp =
      .mid KeyedSet.empty KeyedSet.empty true
        (.last KeyedSet.empty (KeyedSet.singleton ⟨7, .boxed⟩)) := hsame.bodyExp 1
  have hgc : (final 1).defuse.gc = .causeGC KeyedSet.empty := by
    rw [hsame.defuse]
    rfl
  have hsuccessors : (final 1).successors = [1] := hsame.successors 1
  have hgcIn : 7 ∉ (final 1).gcIn.defs := by
    rw [hsolves.gcIn, hgc]
    simp [Gc.defs, Gc.Causes]
  refine ⟨final, ⟨n, hn n le_rfl⟩, ?_⟩
  rw [Block.gcPoints, hbody]
  refine ⟨_, List.mem_cons_self, ?_, hgcIn, ?_⟩
  · simp [Exp.live]
  · rw [hsolves.gcOut, hsuccessors]
    simpa using hgcIn

end StackAllocation

end SmlSharp
