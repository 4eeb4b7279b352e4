/-
`foreach` runs whole rounds; another round is run if and only if the predicate
holds for one of the indices for which the threads test it.
-/
import SmlSharp.ForeachCommon.Progress

namespace SmlSharp.ForeachCommon

variable {n : Nat} {α : Type} {loop : Loop n α} {input : Fin n → α}

/-- The states that `foreach` reaches through states that are `ok`. -/
inductive Run (loop : Loop n α) (input : Fin n → α) (ok : State n α → Prop) :
    State n α → Prop where
  | start (alloc : Fin n → α) (h : ok (initial input alloc)) :
      Run loop input ok (initial input alloc)
  | step {s s' : State n α} (h : Run loop input ok s) (hstep : Step loop s s') (hok : ok s') :
      Run loop input ok s'

/-- `newValue` is about to return the value of an element to some thread, whether it
was read from the array or computed by the thread itself. -/
def Proc.Answers (i : Fin n) (v : α) : Proc n α → Prop
  | .thread _ _ (.answer j w _) => j = i ∧ w = v
  | .fork left right => left.Answers i v ∨ right.Answers i v
  | _ => False

/-- Another round is due after the round that starts with `old`. -/
def Again (loop : Loop n α) (old : Fin n → α) : Prop := ∃ i, Tested 0 n i ∧ Holds loop old i

def Inv (loop : Loop n α) (input : Fin n → α) : State n α → Prop
  | .round count old s proc =>
    Rounds loop (Tested 0 n) input count old ∧
      SharedInv loop old (Again loop old) (count + 1) s ∧
      Covers loop old (Again loop old) (factsOf loop old (count + 1) s) 0 n proc
  | .returned output => ∃ count old, Ends loop (Tested 0 n) input count old output

theorem inv_initial (alloc : Fin n → α) : Inv loop input (initial input alloc) := by
  refine ⟨Rounds.start, ⟨?_, ?_, ?_, ?_⟩, rfl, rfl⟩
  · intro i hdone
    cases hdone
  · intro i
    exact Nat.zero_le 1
  · exact Nat.zero_le 1
  · intro hmax
    exact absurd hmax (Nat.not_succ_le_zero 0)

theorem Inv.ends {count : Nat} {old : Fin n → α} {s : Shared n α}
    (hinv : Inv loop input (.round count old s .ended)) (hnot : ¬ count < s.maxCount) :
    Ends loop (Tested 0 n) input count old s.toArray := by
  obtain ⟨hrounds, hshared, hdone, hnone⟩ := hinv
  refine ⟨hrounds, fun i => hshared.stored i (hdone i (Nat.zero_le _) (by omega)), ?_⟩
  rcases hnone with hmax | hnone
  · exact absurd hmax hnot
  · exact hnone

theorem Inv.step {s s' : State n α} (hinv : Inv loop input s) (hstep : Step loop s s') :
    Inv loop input s' := by
  cases hstep with
  | round h =>
    cases h with
    | proc h =>
      obtain ⟨hrounds, hshared, hcovers⟩ := hinv
      obtain ⟨hshared', -, hcovers'⟩ :=
        procStep_covers h (Nat.le_of_eq (Nat.zero_add n))
          (fun i htested hholds => ⟨i, htested, hholds⟩) hshared hcovers
      exact ⟨hrounds, hshared', hcovers'⟩
  | mainLoop hlt _ =>
    obtain ⟨hrounds, hshared, hdone, -⟩ := hinv
    have hround : IsRound loop _ _ := fun i =>
      hshared.stored i (hdone i (Nat.zero_le _) (by omega))
    refine ⟨Rounds.again hrounds hround (hshared.again hlt), ⟨?_, ?_, ?_, ?_⟩, rfl, rfl⟩
    · intro i hi
      have hle := hshared.done_le i
      exact absurd hle (by rw [hi]; omega)
    · exact fun i => Nat.le_succ_of_le (hshared.done_le i)
    · exact Nat.le_succ_of_le hshared.max_le
    · intro hmax
      have hle := hshared.max_le
      exact absurd (Nat.le_trans hmax hle) (by omega)
  | stop hnot => exact ⟨_, _, hinv.ends hnot⟩

theorem Run.inv {ok : State n α → Prop} {s : State n α} (h : Run loop input ok s) :
    Inv loop input s := by
  induction h with
  | start alloc _ => exact inv_initial alloc
  | step _ hstep _ ih => exact ih.step hstep

theorem Run.ok {ok : State n α → Prop} {s : State n α} (h : Run loop input ok s) : ok s := by
  cases h with
  | start _ hok => exact hok
  | step _ _ hok => exact hok

theorem Covers.answers {old : Fin n → α} {again : Prop} {f : Facts n} {id num : Nat}
    {proc : Proc n α} (h : Covers loop old again f id num proc) {i : Fin n} {v : α}
    (hanswers : proc.Answers i v) : Computes loop old i v := by
  induction proc generalizing id num with
  | start => exact hanswers.elim
  | thread id' num' code =>
    obtain ⟨-, -, -, hright⟩ := h
    cases code with
    | answer j w next =>
      obtain ⟨rfl, rfl⟩ := hanswers
      exact hright.1
    | _ => exact hanswers.elim
  | fork left right ihleft ihright =>
    rcases hanswers with hanswers | hanswers
    · exact ihleft h.2.1 hanswers
    · exact ihright h.2.2 hanswers
  | ended => exact hanswers.elim

/-- The values that iterators and predicates get: through `value` from the array of the
previous round, and through `newValue` those of this round. -/
def ReadsRight (loop : Loop n α) (input : Fin n → α) : State n α → Prop
  | .round count old _ proc =>
    Rounds loop (Tested 0 n) input count old ∧
      ∀ i v, proc.Answers i v → Computes loop old i v
  | .returned _ => True

theorem Inv.readsRight {s : State n α} (h : Inv loop input s) : ReadsRight loop input s := by
  cases s with
  | round count old s proc =>
    obtain ⟨hrounds, -, hcovers⟩ := h
    exact ⟨hrounds, fun i v => hcovers.answers⟩
  | returned output => trivial

/-- The predicate, if it holds for some index of the round, holds for one for which
it is tested, and threads do not wait for each other in a circle. -/
def Conforms (loop : Loop n α) : State n α → Prop
  | .round count old s proc =>
    ((∃ i, Holds loop old i) → ∃ i, Tested 0 n i ∧ Holds loop old i) ∧
      proc.NoCircle (count + 1) s
  | .returned _ => True

theorem acc_round {old : Fin n → α} {count m : Nat} {s : Shared n α} {proc : Proc n α}
    (hinv : Inv loop input (.round count old s proc)) (hwithin : ProcWithin loop old m proc) :
    Acc (fun t u => RoundStep loop u t) (.round count old s proc) := by
  induction m using Nat.strongRecOn generalizing s proc with
  | ind m ih =>
    constructor
    intro s' hstep
    have hinv' := hinv.step (Step.round hstep)
    cases hstep with
    | proc h =>
      obtain ⟨k, hlt, hwithin'⟩ := procStep_within h hinv.2.1 hinv.2.2 hwithin
      exact ih k hlt hinv' hwithin'

/-- The dependencies of every round are acyclic. -/
def AlwaysAcyclic (loop : Loop n α) (input : Fin n → α) : Prop :=
  ∀ count old, Rounds loop (fun _ => True) input count old → Acyclic loop old

theorem Run.within {ok : State n α → Prop} (hacyclic : AlwaysAcyclic loop input)
    {count : Nat} {old : Fin n → α} {s : Shared n α} {proc : Proc n α}
    (h : Run loop input ok (.round count old s proc)) : ∃ m, ProcWithin loop old m proc := by
  generalize hstate : State.round count old s proc = state at h
  induction h generalizing count old s proc with
  | start alloc _ =>
    cases hstate
    exact procWithin_start (hacyclic 0 input Rounds.start) 0 n
  | step hrun hstep _ ih =>
    subst hstate
    cases hstep with
    | round h =>
      cases h with
      | proc h =>
        obtain ⟨m, hwithin⟩ := ih rfl
        obtain ⟨k, -, hwithin'⟩ := procStep_within h hrun.inv.2.1 hrun.inv.2.2 hwithin
        exact ⟨k, hwithin'⟩
    | mainLoop hlt hto =>
      have hrounds := (hrun.inv.step (Step.mainLoop hlt hto)).1
      exact procWithin_start (hacyclic _ _ (hrounds.mono fun _ _ => trivial)) 0 n

/-- A run through conforming states goes on until it returns, each of its rounds is
bounded, and it returns the sequential result. -/
theorem Run.conforms (hacyclic : AlwaysAcyclic loop input) {s : State n α}
    (h : Run loop input (Conforms loop) s) :
    (∀ output, s = .returned output → Sequential loop input output) ∧
      ((∃ output, s = .returned output) ∨ ∃ s', Step loop s s') ∧
      Acc (fun t u => RoundStep loop u t) s := by
  cases s with
  | returned output =>
    refine ⟨?_, Or.inl ⟨output, rfl⟩, ?_⟩
    · rintro output' heq
      cases heq
      cases h with
      | step hrun hstep _ =>
        cases hstep with
        | round h => cases h
        | stop hnot =>
          have hends := hrun.inv.ends hnot
          exact ⟨_, _, hends.sequential_iff.2 hrun.ok.1⟩
    · constructor
      intro s' hstep
      cases hstep
  | round count old s proc =>
    obtain ⟨m, hwithin⟩ := h.within hacyclic
    refine ⟨?_, Or.inr ?_, acc_round h.inv hwithin⟩
    · intro output heq
      cases heq
    · by_cases hproc : proc = .ended
      · subst hproc
        by_cases hlt : count < s.maxCount
        · exact ⟨_, Step.mainLoop hlt fun _ => rfl⟩
        · exact ⟨_, Step.stop hlt⟩
      · obtain ⟨s', proc', hstep⟩ := procStep_exists h.inv.2.2 h.ok.2 hproc
        exact ⟨_, Step.round (RoundStep.proc hstep)⟩

/-- In every interleaving the values read are right, and `foreach` returns the array
of a round after which the predicate holds for no tested index; that is the
sequential result if and only if it holds for no other index either.  Where the
states conform, `foreach` does not get stuck. -/
theorem foreach_sequential (loop : Loop n α) (input : Fin n → α) :
    (∀ s, Run loop input (fun _ => True) s →
      ReadsRight loop input s ∧
        ∀ output, s = .returned output →
          ∃ count old, Ends loop (Tested 0 n) input count old output ∧
            (Ends loop (fun _ => True) input count old output ↔
              ((∃ i, Holds loop old i) → ∃ i, Tested 0 n i ∧ Holds loop old i))) ∧
      (AlwaysAcyclic loop input → ∀ s, Run loop input (Conforms loop) s →
        (∀ output, s = .returned output → Sequential loop input output) ∧
          ((∃ output, s = .returned output) ∨ ∃ s', Step loop s s') ∧
          Acc (fun t u => RoundStep loop u t) s) := by
  constructor
  · intro s h
    refine ⟨h.inv.readsRight, ?_⟩
    rintro output rfl
    obtain ⟨count, old, hends⟩ := h.inv
    exact ⟨count, old, hends, hends.sequential_iff⟩
  · exact fun hacyclic s h => h.conforms hacyclic

/-! ### The first thread first -/

def leftStep (loop : Loop n α) (old : Fin n → α) (nextCount : Nat) (s : Shared n α) :
    Proc n α → Option (Shared n α × Proc n α)
  | .start id num =>
    if num ≤ cutOff then some (s, .thread id num (step loop id num))
    else some (s, .fork (.start id (num / 2)) (.start (id + num / 2) (num - num / 2)))
  | .thread _ _ .halt => some (s, .ended)
  | .thread id num code =>
    match threadStep loop old nextCount id num s code with
    | some (s', code') => some (s', .thread id num code')
    | none => none
  | .fork .ended .ended => some (s, .ended)
  | .fork left right =>
    match leftStep loop old nextCount s left with
    | some (s', left') => some (s', .fork left' right)
    | none =>
      match leftStep loop old nextCount s right with
      | some (s', right') => some (s', .fork left right')
      | none => none
  | .ended => none

theorem procStep_of_leftStep {old : Fin n → α} {nextCount : Nat} {s s' : Shared n α}
    {proc proc' : Proc n α} (h : leftStep loop old nextCount s proc = some (s', proc')) :
    ProcStep loop old nextCount s proc s' proc' := by
  fun_induction leftStep loop old nextCount s proc generalizing s' proc' with
  | case1 id num hcut =>
    cases h
    exact ProcStep.step hcut
  | case2 id num hcut =>
    cases h
    exact ProcStep.create hcut
  | case3 =>
    cases h
    exact ProcStep.exit
  | case4 id num code _ s1 code1 hstep =>
    cases h
    exact ProcStep.access hstep
  | case5 => cases h
  | case6 =>
    cases h
    exact ProcStep.join
  | case7 left right _ s1 left1 hleft ih =>
    cases h
    exact ProcStep.left (ih hleft)
  | case8 left right _ hleft s1 right1 hright _ ih =>
    cases h
    exact ProcStep.right (ih hright)
  | case9 => cases h
  | case10 => cases h

def nextState (loop : Loop n α) : State n α → Option (State n α)
  | .round count old s .ended =>
    if count < s.maxCount then
      some (.round (count + 1) s.toArray { s with toArray := old } (.start 0 n))
    else some (.returned s.toArray)
  | .round count old s proc =>
    match leftStep loop old (count + 1) s proc with
    | some (s', proc') => some (.round count old s' proc')
    | none => none
  | .returned _ => none

theorem step_of_nextState {s s' : State n α} (h : nextState loop s = some s') :
    Step loop s s' := by
  rw [nextState.eq_def] at h
  split at h
  · split at h
    · rename_i hlt
      cases h
      exact Step.mainLoop hlt fun _ => rfl
    · rename_i hnot
      cases h
      exact Step.stop hnot
  · split at h
    · rename_i hstep
      cases h
      exact Step.round (RoundStep.proc (procStep_of_leftStep hstep))
    · cases h
  · cases h

def schedule (loop : Loop n α) : Nat → State n α → State n α
  | 0, s => s
  | k + 1, s =>
    match nextState loop s with
    | some s' => schedule loop k s'
    | none => s

theorem run_schedule {ok : State n α → Prop} (k : Nat) {s : State n α}
    (h : Run loop input ok s) (hok : ∀ j, j ≤ k → ok (schedule loop j s)) :
    Run loop input ok (schedule loop k s) := by
  induction k generalizing s with
  | zero => exact h
  | succ k ih =>
    rw [schedule]
    split
    · rename_i s' hnext
      have hschedule : ∀ j, schedule loop (j + 1) s = schedule loop j s' := by
        intro j
        rw [schedule, hnext]
      have hok' : ∀ j, j ≤ k → ok (schedule loop j s') := by
        intro j hj
        rw [← hschedule]
        exact hok (j + 1) (Nat.succ_le_succ hj)
      exact ih (Run.step h (step_of_nextState hnext) (hok' 0 (Nat.zero_le k))) hok'
    · exact h

/-- A check of every state of a schedule. -/
def checks (loop : Loop n α) (check : State n α → Bool) : Nat → State n α → Bool
  | 0, s => check s
  | k + 1, s =>
    check s && match nextState loop s with
      | some s' => checks loop check k s'
      | none => true

theorem checks_schedule {check : State n α → Bool} {k : Nat} {s : State n α}
    (h : checks loop check k s = true) : ∀ j, j ≤ k → check (schedule loop j s) = true := by
  induction k generalizing s with
  | zero =>
    intro j hj
    rw [Nat.le_zero.mp hj]
    exact h
  | succ k ih =>
    obtain ⟨hs, hrest⟩ := Bool.and_eq_true_iff.mp h
    intro j hj
    cases j with
    | zero => exact hs
    | succ j =>
      rw [schedule]
      split
      · next s' hnext =>
        rw [hnext] at hrest
        exact ih hrest j (Nat.le_of_succ_le_succ hj)
      · exact hs

def returnsAll (v : Nat) : State 17 Nat → Bool
  | .returned output => (List.finRange 17).all fun i => output i == v
  | _ => false

theorem returnsAll_eq {v : Nat} {s : State 17 Nat} (h : returnsAll v s = true) :
    ∃ output, s = .returned output ∧ ∀ i, output i = v := by
  cases s with
  | round => cases h
  | returned output =>
    exact ⟨output, rfl, fun i => eq_of_beq (List.all_eq_true.1 h i (List.mem_finRange i))⟩

/-- Every element counts the rounds, but for the first one, which takes over the new
value of element `8`.  Another round is due if the first element was `0` before. -/
def relay : Loop 17 Nat where
  iterator i := if i = 0 then .newValue 8 .ret else .value i fun v => .ret (v + 1)
  pred _ := .value 0 fun v => .ret (v == 0)

theorem relay_acyclic (old : Fin 17 → Nat) : Acyclic relay old := by
  have height : Computes relay old 8 (old 8 + 1) := Evals.value (Evals.ret _)
  intro i
  by_cases hi : i = 0
  · rw [hi]
    exact ⟨_, Evals.newValue height (Evals.ret _)⟩
  · have hother : relay.iterator i = .value i fun v => .ret (v + 1) := if_neg hi
    refine ⟨old i + 1, ?_⟩
    rw [Computes, hother]
    exact Evals.value (Evals.ret _)

/-- Nobody waits, or the first thread waits for element `8` of the second one. -/
def waitsForSecond : State 17 Nat → Bool
  | .round count _ s proc =>
    (proc.waiting (count + 1) s).all fun entry => decide (entry = (0, 8, 8))
  | .returned _ => true

theorem relay_conforms {s : State 17 Nat} (h : waitsForSecond s = true) :
    Conforms relay s := by
  cases s with
  | returned output => trivial
  | round count old s proc =>
    refine ⟨?_, fun i hcircle => ?_⟩
    · rintro ⟨i, hholds⟩
      exact ⟨0, Tested.left (by decide) (Tested.step (by decide) (by decide) (by decide)),
        hholds⟩
    · have hwaits : ∀ {i j : Fin 17}, proc.WaitsFor (count + 1) s i j → i < 8 ∧ j = 8 := by
        rintro i j ⟨id, num, hmem, -, hlt⟩
        have hentry := of_decide_eq_true (List.all_eq_true.1 h _ hmem)
        simp only [Prod.mk.injEq] at hentry
        obtain ⟨rfl, rfl, rfl⟩ := hentry
        exact ⟨Fin.lt_def.mpr (by simpa using hlt), rfl⟩
      -- from element 8 on nobody waits
      cases hcircle with
      | single hwait =>
        obtain ⟨hlt, rfl⟩ := hwaits hwait
        exact absurd hlt (lt_irrefl _)
      | tail hpath hwait =>
        obtain ⟨hlt, rfl⟩ := hwaits hwait
        obtain ⟨j, hfirst, -⟩ := Relation.TransGen.head'_iff.mp hpath
        exact absurd (hwaits hfirst).1 (lt_irrefl _)

theorem relay_schedule :
    checks relay waitsForSecond 240 (initial (fun _ => 0) fun _ => 0) = true ∧
      returnsAll 2 (schedule relay 240 (initial (fun _ => 0) fun _ => 0)) = true := by
  decide +kernel

/-- Two threads, two rounds, in each of which the first thread has to wait for the
second one. -/
theorem foreach_sequential_relay :
    ∃ output, Run relay (fun _ => 0) (Conforms relay) (.returned output) ∧
      Sequential relay (fun _ => 0) output ∧ ∀ i, output i = 2 := by
  obtain ⟨hchecks, hreturns⟩ := relay_schedule
  have hok := fun j hj => relay_conforms (checks_schedule hchecks j hj)
  have hrun := run_schedule 240 (Run.start (fun _ => 0) (hok 0 (Nat.zero_le _))) hok
  obtain ⟨output, hreturned, htwo⟩ := returnsAll_eq hreturns
  rw [hreturned] at hrun
  have hsequential := (foreach_sequential relay fun _ => 0).2
    (fun _ old _ => relay_acyclic old) _ hrun
  exact ⟨output, hrun, hsequential.1 output rfl, htwo⟩

/-! ### Where the interleavings differ -/

/-- Every element counts the rounds; another round is due if the last element was
`0` before. -/
def counting : Loop 17 Nat where
  iterator i := .value i fun v => .ret (v + 1)
  pred i := .value i fun v => .ret (i.val == 16 && v == 0)

/-- Element `0` depends on element `8`, and that on element `1`. -/
def crossing : Loop 17 Nat where
  iterator i :=
    if i = 0 then .newValue 8 fun v => .ret v
    else if i = 8 then .newValue 1 fun v => .ret v
    else .ret 0
  pred _ := .ret false

theorem counting_returns :
    returnsAll 1 (schedule counting 140 (initial (fun _ => 0) fun _ => 0)) = true := by
  decide +kernel

theorem not_sequential_counting {input output : Fin 17 → Nat}
    (houtput : ∀ i, output i = 1) : ¬ Sequential counting input output := by
  rintro ⟨count, old, -, hlast, hstops⟩
  have hcomputes : Computes counting old 16 (old 16 + 1) := Evals.value (Evals.ret _)
  have hvalue : output 16 = old 16 + 1 := (hlast 16).unique hcomputes
  have hzero : old 16 = 0 := by
    have hone := houtput 16
    omega
  apply hstops 16 trivial
  apply Evals.value
  rw [hzero]
  exact Evals.ret true

theorem crossing_acyclic (old : Fin 17 → Nat) : Acyclic crossing old := by
  have hone : Computes crossing old 1 0 := Evals.ret 0
  have height : Computes crossing old 8 0 := Evals.newValue hone (Evals.ret 0)
  intro i
  by_cases hi : i = 0
  · rw [hi]
    exact ⟨0, Evals.newValue height (Evals.ret 0)⟩
  · by_cases hi' : i = 8
    · rw [hi']
      exact ⟨0, height⟩
    · have hother : crossing.iterator i = .ret 0 := (if_neg hi).trans (if_neg hi')
      refine ⟨0, ?_⟩
      rw [Computes, hother]
      exact Evals.ret 0

/-- An array of 17 elements can be returned too early, and two threads can wait for
each other although the dependencies are acyclic. -/
theorem foreach_diverges :
    (∃ output, Run counting (fun _ => 0) (fun _ => True) (.returned output) ∧
      ¬ Sequential counting (fun _ => 0) output) ∧
    AlwaysAcyclic crossing (fun _ => 0) ∧
      ∃ s, Run crossing (fun _ => 0) (fun _ => True) s ∧ (∀ output, s ≠ .returned output) ∧
        ∀ s', ¬ Step crossing s s' := by
  refine ⟨?_, fun _ old _ => crossing_acyclic old, ?_⟩
  · have hrun : Run counting (fun _ => 0) (fun _ => True)
        (schedule counting 140 (initial (fun _ => 0) fun _ => 0)) :=
      run_schedule 140 (Run.start _ trivial) fun _ _ => trivial
    obtain ⟨output, hreturned, hones⟩ := returnsAll_eq counting_returns
    rw [hreturned] at hrun
    exact ⟨output, hrun, not_sequential_counting hones⟩
  · have hrun : Run crossing (fun _ => 0) (fun _ => True)
        (schedule crossing 5 (initial (fun _ => 0) fun _ => 0)) :=
      run_schedule 5 (Run.start _ trivial) fun _ _ => trivial
    refine ⟨_, hrun, ?_, ?_⟩
    · intro output heq
      cases heq
    · intro s' hstep
      cases hstep with
      | round h =>
        cases h with
        | proc h =>
          cases h with
          | left h =>
            cases h with
            | access h => cases h
          | right h =>
            cases h with
            | access h => cases h

end SmlSharp.ForeachCommon
