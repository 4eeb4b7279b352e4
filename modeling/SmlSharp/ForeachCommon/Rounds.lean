/-
The sequential meaning of iteration: whole rounds, one after the other.
-/
import SmlSharp.ForeachCommon.Threads

namespace SmlSharp.ForeachCommon

variable {n : Nat} {α β : Type}

/-- What a question to the context evaluates to in a round that starts with the
array `old`: `value` is answered from `old`, and `newValue i` by what the iterator
of `i` evaluates to. -/
inductive Evals (loop : Loop n α) (old : Fin n → α) : {β : Type} → Ask n α β → β → Prop where
  | ret {β : Type} (result : β) : Evals loop old (.ret result) result
  | value {β : Type} {i : Fin n} {next : α → Ask n α β} {result : β}
      (hnext : Evals loop old (next (old i)) result) : Evals loop old (.value i next) result
  | newValue {β : Type} {i : Fin n} {next : α → Ask n α β} {v : α} {result : β}
      (hnew : Evals loop old (loop.iterator i) v) (hnext : Evals loop old (next v) result) :
      Evals loop old (.newValue i next) result

/-- The value of an element in the round. -/
def Computes (loop : Loop n α) (old : Fin n → α) (i : Fin n) (v : α) : Prop :=
  Evals loop old (loop.iterator i) v

/-- The predicate holds for an element of the round. -/
def Holds (loop : Loop n α) (old : Fin n → α) (i : Fin n) : Prop :=
  Evals loop old (loop.pred i) true

theorem Evals.unique {loop : Loop n α} {old : Fin n → α} {ask : Ask n α β} {result result' : β}
    (h : Evals loop old ask result) (h' : Evals loop old ask result') : result = result' := by
  induction h with
  | ret result =>
    cases h'
    rfl
  | value _ ih =>
    cases h' with
    | value hnext => exact ih hnext
  | newValue _ _ ihnew ih =>
    cases h' with
    | newValue hnew hnext =>
      cases ihnew hnew
      exact ih hnext

/-- A round turns the array `old` into `new`. -/
def IsRound (loop : Loop n α) (old new : Fin n → α) : Prop := ∀ i, Computes loop old i (new i)

/-- The dependencies through `newValue` are acyclic: every element has a value. -/
def Acyclic (loop : Loop n α) (old : Fin n → α) : Prop := ∀ i, ∃ v, Computes loop old i v

/-- The array after a number of rounds.  Another round is run if and only if the
predicate holds for some index of `tested` in the round before. -/
inductive Rounds (loop : Loop n α) (tested : Fin n → Prop) (input : Fin n → α) :
    Nat → (Fin n → α) → Prop where
  | start : Rounds loop tested input 0 input
  | again {count : Nat} {old new : Fin n → α} (h : Rounds loop tested input count old)
      (hround : IsRound loop old new) (hholds : ∃ i, tested i ∧ Holds loop old i) :
      Rounds loop tested input (count + 1) new

/-- The last round starts with `old` and ends with `output`. -/
structure Ends (loop : Loop n α) (tested : Fin n → Prop) (input : Fin n → α) (count : Nat)
    (old output : Fin n → α) : Prop where
  rounds : Rounds loop tested input count old
  last : IsRound loop old output
  stops : ∀ i, tested i → ¬ Holds loop old i

/-- The sequential meaning: the predicate is tested for every index. -/
def Sequential (loop : Loop n α) (input output : Fin n → α) : Prop :=
  ∃ count old, Ends loop (fun _ => True) input count old output

theorem Rounds.mono {loop : Loop n α} {tested tested' : Fin n → Prop} {input old : Fin n → α}
    {count : Nat} (h : Rounds loop tested input count old)
    (htested : ∀ i, tested i → tested' i) : Rounds loop tested' input count old := by
  induction h with
  | start => exact Rounds.start
  | again _ hround hholds ih =>
    obtain ⟨i, hi, hholds⟩ := hholds
    exact Rounds.again ih hround ⟨i, htested i hi, hholds⟩

/-- The rounds that stop when no tested index makes the predicate hold are the
sequential ones if and only if none of the others does either. -/
theorem Ends.sequential_iff {loop : Loop n α} {tested : Fin n → Prop}
    {input old output : Fin n → α} {count : Nat} (h : Ends loop tested input count old output) :
    Ends loop (fun _ => True) input count old output ↔
      ((∃ i, Holds loop old i) → ∃ i, tested i ∧ Holds loop old i) := by
  constructor
  · intro hall hholds
    obtain ⟨i, hi⟩ := hholds
    exact absurd hi (hall.stops i trivial)
  · intro hcovered
    refine ⟨h.rounds.mono fun _ _ => trivial, h.last, ?_⟩
    intro i _ hi
    obtain ⟨j, htested, hj⟩ := hcovered ⟨i, hi⟩
    exact h.stops j htested hj

end SmlSharp.ForeachCommon
