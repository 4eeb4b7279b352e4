/-
A round goes on as long as its threads do not wait for each other in a circle, and
takes a bounded number of steps.
-/
import Mathlib.Data.Fintype.EquivFin
import Mathlib.Order.WellFounded
import SmlSharp.ForeachCommon.Invariant

namespace SmlSharp.ForeachCommon

variable {n : Nat} {α β : Type} {loop : Loop n α} {old : Fin n → α} {again : Prop}

/-! ### Waiting -/

/-- The threads that have to yield, with their ranges and the elements they ask for. -/
def Proc.waiting (nextCount : Nat) (s : Shared n α) : Proc n α → List (Nat × Nat × Fin n)
  | .thread id num (.newValue cur i _) =>
    if s.done i = nextCount ∨ isOwn id num cur i = true then [] else [(id, num, i)]
  | .fork left right => left.waiting nextCount s ++ right.waiting nextCount s
  | _ => []

/-- The thread that has the one element to compute waits for the other one. -/
def Proc.WaitsFor (nextCount : Nat) (s : Shared n α) (proc : Proc n α) (i j : Fin n) : Prop :=
  ∃ id num, (id, num, j) ∈ proc.waiting nextCount s ∧ id ≤ i.val ∧ i.val < id + num

/-- No thread waits, directly or through others, for an element it has to compute. -/
def Proc.NoCircle (nextCount : Nat) (s : Shared n α) (proc : Proc n α) : Prop :=
  ∀ i, ¬ Relation.TransGen (proc.WaitsFor nextCount s) i i

variable (loop old) in
/-- A thread only stops to wait. -/
theorem threadStep_or_waits (nextCount id num : Nat) (s : Shared n α) {code : Code n α}
    (hcode : code ≠ .halt) :
    (∃ s' code', threadStep loop old nextCount id num s code = some (s', code')) ∨
      ∃ j, s.done j ≠ nextCount ∧
        (Proc.thread id num code).waiting nextCount s = [(id, num, j)] := by
  cases code with
  | halt => exact absurd rfl hcode
  | newValue cur i next =>
    by_cases hdone : s.done i = nextCount
    · exact Or.inl ⟨s, .fetch i next, if_pos hdone⟩
    · by_cases hown : isOwn id num cur i = true
      · exact Or.inl ⟨s, _, (if_neg hdone).trans (if_pos hown)⟩
      · exact Or.inr ⟨i, hdone, if_neg (not_or.mpr ⟨hdone, hown⟩)⟩
  | value i next => exact Or.inl ⟨_, _, rfl⟩
  | fetch i next => exact Or.inl ⟨_, _, rfl⟩
  | answer i v next => exact Or.inl ⟨_, _, rfl⟩
  | store i v rest => exact Or.inl ⟨_, _, rfl⟩
  | finish i rest => exact Or.inl ⟨_, _, rfl⟩
  | testDone i yes no => exact Or.inl ⟨_, _, rfl⟩
  | testMax yes no => exact Or.inl ⟨_, _, rfl⟩
  | setMax rest => exact Or.inl ⟨_, _, rfl⟩

/-- Either some thread takes a step, or every element that is not computed belongs to
a thread that waits for such an element, and there is one unless all have ended. -/
theorem procStep_or_waits {nextCount : Nat} {s : Shared n α} {proc : Proc n α} {id num : Nat}
    (hcovers : Covers loop old again (factsOf loop old nextCount s) id num proc) :
    (∃ s' proc', ProcStep loop old nextCount s proc s' proc') ∨
      (∀ i : Fin n, id ≤ i.val → i.val < id + num → s.done i ≠ nextCount →
        ∃ j, s.done j ≠ nextCount ∧ proc.WaitsFor nextCount s i j) ∧
      (proc ≠ .ended → ∃ j, s.done j ≠ nextCount) := by
  induction proc generalizing id num with
  | start id' num' =>
    by_cases hcut : num' ≤ cutOff
    · exact Or.inl ⟨_, _, ProcStep.step hcut⟩
    · exact Or.inl ⟨_, _, ProcStep.create hcut⟩
  | thread id' num' code =>
    obtain ⟨rfl, rfl, -, -⟩ := hcovers
    by_cases hcode : code = .halt
    · rw [hcode]
      exact Or.inl ⟨_, _, ProcStep.exit⟩
    · rcases threadStep_or_waits loop old nextCount id' num' s hcode with
        ⟨s', code', hstep⟩ | ⟨j, hj, hwaits⟩
      · exact Or.inl ⟨_, _, ProcStep.access hstep⟩
      · exact Or.inr ⟨fun i hid hlt _ => ⟨j, hj, id', num', by simp [hwaits], hid, hlt⟩,
          fun _ => ⟨j, hj⟩⟩
  | fork left right ihleft ihright =>
    obtain ⟨-, hleft, hright⟩ := hcovers
    rcases ihleft hleft with ⟨s', proc', hstep⟩ | ⟨hwaits, hnotDone⟩
    · exact Or.inl ⟨_, _, ProcStep.left hstep⟩
    rcases ihright hright with ⟨s', proc', hstep⟩ | ⟨hwaits', hnotDone'⟩
    · exact Or.inl ⟨_, _, ProcStep.right hstep⟩
    by_cases hended : left = .ended ∧ right = .ended
    · obtain ⟨rfl, rfl⟩ := hended
      exact Or.inl ⟨_, _, ProcStep.join⟩
    refine Or.inr ⟨fun i hid hlt hi => ?_, fun _ => ?_⟩
    · rcases Nat.lt_or_ge i.val (id + num / 2) with hlow | hhigh
      · obtain ⟨j, hj, id', num', hmem, hrange⟩ := hwaits i hid hlow hi
        exact ⟨j, hj, id', num', List.mem_append_left _ hmem, hrange⟩
      · obtain ⟨j, hj, id', num', hmem, hrange⟩ := hwaits' i hhigh (by omega) hi
        exact ⟨j, hj, id', num', List.mem_append_right _ hmem, hrange⟩
    · rcases not_and_or.mp hended with hne | hne
      · exact hnotDone hne
      · exact hnotDone' hne
  | ended => exact Or.inr ⟨fun i hid hlt hi => absurd (hcovers.1 i hid hlt) hi, absurd rfl⟩

/-- Without a circle of waiting threads, following who waits for whom comes to an end
at a thread that takes a step. -/
theorem procStep_exists {nextCount : Nat} {s : Shared n α} {proc : Proc n α}
    (hcovers : Covers loop old again (factsOf loop old nextCount s) 0 n proc)
    (hcircle : proc.NoCircle nextCount s) (hproc : proc ≠ .ended) :
    ∃ s' proc', ProcStep loop old nextCount s proc s' proc' := by
  rcases procStep_or_waits hcovers with hstep | ⟨hwaits, hnotDone⟩
  · exact hstep
  have : IsTrans (Fin n) (fun j i => Relation.TransGen (proc.WaitsFor nextCount s) i j) :=
    ⟨fun _ _ _ h h' => h'.trans h⟩
  have : Std.Irrefl (fun j i => Relation.TransGen (proc.WaitsFor nextCount s) i j) :=
    ⟨hcircle⟩
  have hwf := Finite.wellFounded_of_trans_of_irrefl
    (fun j i : Fin n => Relation.TransGen (proc.WaitsFor nextCount s) i j)
  obtain ⟨i, hi, hlast⟩ := hwf.has_min {i | s.done i ≠ nextCount} (hnotDone hproc)
  obtain ⟨j, hj, hwait⟩ := hwaits i (Nat.zero_le _) (by omega) hi
  exact absurd (Relation.TransGen.single hwait) (hlast j hj)

/-! ### The number of steps -/

/-- The code takes at most `m` steps, reading right values. -/
inductive Within (loop : Loop n α) (old : Fin n → α) : Nat → Code n α → Prop where
  | halt {m} : Within loop old m .halt
  | value {m k i next} (hk : k < m) (h : Within loop old k (next (old i))) :
      Within loop old m (.value i next)
  | newValue {m k cur i next} (hk : k < m) (hfetch : Within loop old k (.fetch i next))
      (hcompute : Within loop old k (compute loop i fun v => .answer i v next)) :
      Within loop old m (.newValue cur i next)
  | fetch {m k i next} (hk : k < m)
      (h : ∀ v, Computes loop old i v → Within loop old k (.answer i v next)) :
      Within loop old m (.fetch i next)
  | answer {m k i v next} (hk : k < m) (h : Within loop old k (next v)) :
      Within loop old m (.answer i v next)
  | store {m k i v rest} (hk : k < m) (h : Within loop old k rest) :
      Within loop old m (.store i v rest)
  | finish {m k i rest} (hk : k < m) (h : Within loop old k rest) :
      Within loop old m (.finish i rest)
  | testDone {m k i yes no} (hk : k < m) (hyes : Within loop old k yes)
      (hno : Within loop old k no) : Within loop old m (.testDone i yes no)
  | testMax {m k yes no} (hk : k < m) (hyes : Within loop old k yes)
      (hno : Within loop old k no) : Within loop old m (.testMax yes no)
  | setMax {m k rest} (hk : k < m) (h : Within loop old k rest) :
      Within loop old m (.setMax rest)

theorem Within.mono {m m' : Nat} {code : Code n α} (h : Within loop old m code) (hle : m ≤ m') :
    Within loop old m' code := by
  cases h with
  | halt => exact Within.halt
  | value hk h => exact Within.value (Nat.lt_of_lt_of_le hk hle) h
  | newValue hk hfetch hcompute =>
    exact Within.newValue (Nat.lt_of_lt_of_le hk hle) hfetch hcompute
  | fetch hk h => exact Within.fetch (Nat.lt_of_lt_of_le hk hle) h
  | answer hk h => exact Within.answer (Nat.lt_of_lt_of_le hk hle) h
  | store hk h => exact Within.store (Nat.lt_of_lt_of_le hk hle) h
  | finish hk h => exact Within.finish (Nat.lt_of_lt_of_le hk hle) h
  | testDone hk hyes hno => exact Within.testDone (Nat.lt_of_lt_of_le hk hle) hyes hno
  | testMax hk hyes hno => exact Within.testMax (Nat.lt_of_lt_of_le hk hle) hyes hno
  | setMax hk h => exact Within.setMax (Nat.lt_of_lt_of_le hk hle) h

/-- What evaluates in the round is evaluated in a bounded number of steps. -/
theorem within_run {ask : Ask n α β} {result : β} (heval : Evals loop old ask result)
    (cur : Option (Fin n)) (next : β → Code n α) {k : Nat}
    (hnext : Within loop old k (next result)) : ∃ m, Within loop old m (ask.run cur next) := by
  induction heval generalizing cur k with
  | ret result => exact ⟨k, hnext⟩
  | value _ ih =>
    obtain ⟨m, hm⟩ := ih cur next hnext
    exact ⟨m + 1, Within.value (Nat.lt_succ_self m) hm⟩
  | @newValue _ i ask v result hnew _ ihnew ih =>
    obtain ⟨m, hm⟩ := ih cur next hnext
    have hanswer : Within loop old (m + 1) (.answer i v fun v => (ask v).run cur next) :=
      Within.answer (Nat.lt_succ_self m) hm
    have hcompute : ∃ m', Within loop old m' (compute loop i fun v =>
        .answer i v fun v => (ask v).run cur next) := by
      apply ihnew (some i)
      exact Within.store (Nat.lt_succ_self (m + 2))
        (Within.finish (Nat.lt_succ_self (m + 1)) hanswer)
    obtain ⟨m', hm'⟩ := hcompute
    have hfetch : Within loop old (m + 2) (.fetch i fun v => (ask v).run cur next) := by
      apply Within.fetch (Nat.lt_succ_self (m + 1))
      intro v' hv'
      rw [hv'.unique hnew]
      exact hanswer
    refine ⟨max (m + 2) m' + 1, Within.newValue (Nat.lt_succ_self _) ?_ ?_⟩
    · exact hfetch.mono (Nat.le_max_left _ _)
    · exact hm'.mono (Nat.le_max_right _ _)

theorem Acyclic.evals (hacyclic : Acyclic loop old) (ask : Ask n α β) :
    ∃ result, Evals loop old ask result := by
  induction ask with
  | ret result => exact ⟨result, Evals.ret result⟩
  | value i next ih =>
    obtain ⟨result, heval⟩ := ih (old i)
    exact ⟨result, Evals.value heval⟩
  | newValue i next ih =>
    obtain ⟨v, hv⟩ := hacyclic i
    obtain ⟨result, heval⟩ := ih v
    exact ⟨result, Evals.newValue hv heval⟩

theorem within_compute (hacyclic : Acyclic loop old) (i : Fin n) {rest : Code n α} {k : Nat}
    (hrest : Within loop old k rest) : ∃ m, Within loop old m (compute loop i fun _ => rest) := by
  obtain ⟨v, hv⟩ := hacyclic i
  apply within_run hv (some i)
  exact Within.store (Nat.lt_succ_self (k + 1)) (Within.finish (Nat.lt_succ_self k) hrest)

theorem within_post (hacyclic : Acyclic loop old) (count i : Nat) :
    ∃ m, Within loop old m (post loop count i) := by
  induction count generalizing i with
  | zero => exact ⟨0, Within.halt⟩
  | succ count ih =>
    rw [post]
    split
    · rename_i hi
      obtain ⟨holds, heval⟩ := hacyclic.evals (loop.pred ⟨i, hi⟩)
      obtain ⟨m, hm⟩ := ih (i + 1)
      cases holds with
      | true => exact within_run heval none _ (Within.setMax Nat.one_pos Within.halt)
      | false => exact within_run heval none _ hm
    · exact ⟨0, Within.halt⟩

theorem within_body (hacyclic : Acyclic loop old) {rest : Code n α} {k : Nat}
    (hrest : Within loop old k rest) (count i : Nat) :
    ∃ m, Within loop old m (body loop rest count i) := by
  induction count generalizing i with
  | zero => exact ⟨k, hrest⟩
  | succ count ih =>
    rw [body]
    split
    · rename_i hi
      obtain ⟨m, hm⟩ := ih (i + 1)
      obtain ⟨m', hm'⟩ := within_compute hacyclic ⟨i, hi⟩ hm
      exact ⟨max m m' + 1, Within.testDone (Nat.lt_succ_self _)
        (hm.mono (Nat.le_max_left _ _)) (hm'.mono (Nat.le_max_right _ _))⟩
    · exact ⟨0, Within.halt⟩

theorem within_step (hacyclic : Acyclic loop old) (id num : Nat) :
    ∃ m, Within loop old m (step loop id num) := by
  obtain ⟨m, hm⟩ := within_post hacyclic (num - id) id
  exact within_body hacyclic (Within.testMax (Nat.lt_succ_self m) Within.halt hm) num id

theorem threadStep_within {nextCount id num m : Nat} {s s' : Shared n α} {code code' : Code n α}
    {final : Facts n → Prop} (hinv : SharedInv loop old again nextCount s)
    (hright : Right loop old again final code (factsOf loop old nextCount s))
    (hwithin : Within loop old m code)
    (hstep : threadStep loop old nextCount id num s code = some (s', code')) :
    ∃ k, k < m ∧ Within loop old k code' := by
  cases hwithin with
  | halt => cases hstep
  | value hk h =>
    cases hstep
    exact ⟨_, hk, h⟩
  | newValue hk hfetch hcompute =>
    rw [threadStep] at hstep
    split at hstep
    · cases hstep
      exact ⟨_, hk, hfetch⟩
    · split at hstep
      · cases hstep
        exact ⟨_, hk, hcompute⟩
      · cases hstep
  | fetch hk h =>
    cases hstep
    exact ⟨_, hk, h _ (hinv.stored _ hright.1)⟩
  | answer hk h =>
    cases hstep
    exact ⟨_, hk, h⟩
  | store hk h =>
    cases hstep
    exact ⟨_, hk, h⟩
  | finish hk h =>
    cases hstep
    exact ⟨_, hk, h⟩
  | testDone hk hyes hno =>
    cases hstep
    refine ⟨_, hk, ?_⟩
    split
    · exact hyes
    · exact hno
  | testMax hk hyes hno =>
    cases hstep
    refine ⟨_, hk, ?_⟩
    split
    · exact hyes
    · exact hno
  | setMax hk h =>
    cases hstep
    exact ⟨_, hk, h⟩

/-- The threads take at most `m` steps. -/
inductive ProcWithin (loop : Loop n α) (old : Fin n → α) : Nat → Proc n α → Prop where
  | step {m k id num} (hk : k < m) (hcut : num ≤ cutOff)
      (h : ProcWithin loop old k (.thread id num (step loop id num))) :
      ProcWithin loop old m (.start id num)
  | create {m k id num} (hk : k < m) (hcut : ¬ num ≤ cutOff)
      (h : ProcWithin loop old k
        (.fork (.start id (num / 2)) (.start (id + num / 2) (num - num / 2)))) :
      ProcWithin loop old m (.start id num)
  | thread {m k id num code} (hk : k < m) (h : Within loop old k code) :
      ProcWithin loop old m (.thread id num code)
  | fork {m k k' left right} (hk : k + k' < m) (hleft : ProcWithin loop old k left)
      (hright : ProcWithin loop old k' right) : ProcWithin loop old m (.fork left right)
  | ended {m} : ProcWithin loop old m .ended

theorem procWithin_start (hacyclic : Acyclic loop old) (id num : Nat) :
    ∃ m, ProcWithin loop old m (.start id num) := by
  induction num using Nat.strongRecOn generalizing id with
  | ind num ih =>
    by_cases hcut : num ≤ cutOff
    · obtain ⟨m, hm⟩ := within_step hacyclic id num
      exact ⟨m + 2, ProcWithin.step (Nat.lt_succ_self (m + 1)) hcut
        (ProcWithin.thread (Nat.lt_succ_self m) hm)⟩
    · have hbig : 16 < num := Nat.lt_of_not_le hcut
      obtain ⟨m, hm⟩ := ih (num / 2) (by omega) id
      obtain ⟨m', hm'⟩ := ih (num - num / 2) (by omega) (id + num / 2)
      exact ⟨m + m' + 2, ProcWithin.create (Nat.lt_succ_self (m + m' + 1)) hcut
        (ProcWithin.fork (Nat.lt_succ_self (m + m')) hm hm')⟩

theorem procStep_within {nextCount m : Nat} {s s' : Shared n α} {proc proc' : Proc n α}
    (hstep : ProcStep loop old nextCount s proc s' proc') {id num : Nat}
    (hinv : SharedInv loop old again nextCount s)
    (hcovers : Covers loop old again (factsOf loop old nextCount s) id num proc)
    (hwithin : ProcWithin loop old m proc) : ∃ k, k < m ∧ ProcWithin loop old k proc' := by
  induction hstep generalizing id num m with
  | step hcut =>
    cases hwithin with
    | step hk _ h => exact ⟨_, hk, h⟩
    | create _ hnot _ => exact absurd hcut hnot
  | create hcut =>
    cases hwithin with
    | step _ hle _ => exact absurd hle hcut
    | create hk _ h => exact ⟨_, hk, h⟩
  | access haccess =>
    cases hwithin with
    | thread hk h =>
      obtain ⟨rfl, rfl, -, hright⟩ := hcovers
      obtain ⟨k, hk', h'⟩ := threadStep_within hinv hright h haccess
      exact ⟨_, hk, ProcWithin.thread hk' h'⟩
  | exit =>
    cases hwithin with
    | thread hk _ => exact ⟨_, hk, ProcWithin.ended⟩
  | left _ ih =>
    cases hwithin with
    | fork hk hleft hright =>
      obtain ⟨k, hlt, hleft'⟩ := ih hcovers.2.1 hleft
      exact ⟨_, hk, ProcWithin.fork (Nat.add_lt_add_right hlt _) hleft' hright⟩
  | right _ ih =>
    cases hwithin with
    | fork hk hleft hright =>
      obtain ⟨k, hlt, hright'⟩ := ih hcovers.2.2 hright
      exact ⟨_, hk, ProcWithin.fork (Nat.add_lt_add_left hlt _) hleft hright'⟩
  | join =>
    cases hwithin with
    | fork hk _ _ => exact ⟨_, hk, ProcWithin.ended⟩

end SmlSharp.ForeachCommon
