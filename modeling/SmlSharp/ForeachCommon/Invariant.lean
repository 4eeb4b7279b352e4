/-
What the threads of a round establish, whatever the order of their steps.
-/
import SmlSharp.ForeachCommon.Rounds

namespace SmlSharp.ForeachCommon

variable {n : Nat} {α β : Type} {loop : Loop n α} {old : Fin n → α}

/-- The indices for which the threads made by `start id num` test the predicate. -/
inductive Tested : Nat → Nat → Fin n → Prop where
  | step {id num : Nat} {i : Fin n} (h : num ≤ cutOff) (hid : id ≤ i.val) (hnum : i.val < num) :
      Tested id num i
  | left {id num : Nat} {i : Fin n} (h : ¬ num ≤ cutOff) (htested : Tested id (num / 2) i) :
      Tested id num i
  | right {id num : Nat} {i : Fin n} (h : ¬ num ≤ cutOff)
      (htested : Tested (id + num / 2) (num - num / 2) i) : Tested id num i

variable {id num : Nat} {i : Fin n}

theorem tested_step_iff (h : num ≤ cutOff) :
    Tested id num i ↔ id ≤ i.val ∧ i.val < num := by
  constructor
  · intro htested
    cases htested with
    | step _ hid hnum => exact ⟨hid, hnum⟩
    | left hnot => exact absurd h hnot
    | right hnot => exact absurd h hnot
  · rintro ⟨hid, hnum⟩
    exact Tested.step h hid hnum

/-- What is known of the shared data, and stays known in the round. -/
structure Facts (n : Nat) where
  done : Fin n → Prop
  stored : Fin n → Prop
  max : Prop

namespace Facts

def Le (f g : Facts n) : Prop :=
  (∀ i, f.done i → g.done i) ∧ (∀ i, f.stored i → g.stored i) ∧ (f.max → g.max)

def mark (f : Facts n) (i : Fin n) : Facts n := { f with done := fun j => j = i ∨ f.done j }

def put (f : Facts n) (i : Fin n) : Facts n := { f with stored := fun j => j = i ∨ f.stored j }

def continued (f : Facts n) : Facts n := { f with max := True }

theorem Le.refl (f : Facts n) : f.Le f := ⟨fun _ => id, fun _ => id, id⟩

theorem Le.mark {f g : Facts n} (h : f.Le g) (i : Fin n) : (f.mark i).Le (g.mark i) :=
  ⟨fun j hj => hj.imp id (h.1 j), h.2.1, h.2.2⟩

theorem Le.put {f g : Facts n} (h : f.Le g) (i : Fin n) : (f.put i).Le (g.put i) :=
  ⟨h.1, fun j hj => hj.imp id (h.2.1 j), h.2.2⟩

theorem Le.continued {f g : Facts n} (h : f.Le g) : f.continued.Le g.continued :=
  ⟨h.1, h.2.1, id⟩

theorem le_mark (f : Facts n) (i : Fin n) : f.Le (f.mark i) :=
  ⟨fun _ => Or.inr, fun _ => id, id⟩

theorem le_put (f : Facts n) (i : Fin n) : f.Le (f.put i) :=
  ⟨fun _ => id, fun _ => Or.inr, id⟩

theorem mark_le {f : Facts n} (h : f.done i) : (f.mark i).Le f := by
  refine ⟨?_, fun _ => id, id⟩
  rintro j (rfl | hj)
  · exact h
  · exact hj

end Facts

/-- The elements `id ≤ i < id + num` are computed, and unless another round is due,
the predicate holds for none of the tested ones. -/
def Finished (loop : Loop n α) (old : Fin n → α) (id num : Nat) (f : Facts n) : Prop :=
  (∀ i : Fin n, id ≤ i.val → i.val < id + num → f.done i) ∧
    (f.max ∨ ∀ i, Tested id num i → ¬ Holds loop old i)

theorem Finished.mono {f g : Facts n} (h : Finished loop old id num f)
    (hle : f.Le g) : Finished loop old id num g :=
  ⟨fun i hid hnum => hle.1 i (h.1 i hid hnum), h.2.imp hle.2.2 fun htested => htested⟩

/-- From the facts on, the code writes right values only, sets the flag only when
`again` is true, and reaches its end only where `final` holds. -/
def Right (loop : Loop n α) (old : Fin n → α) (again : Prop) (final : Facts n → Prop) :
    Code n α → Facts n → Prop
  | .halt, f => final f
  | .value i next, f => Right loop old again final (next (old i)) f
  | .newValue _ i next, f =>
    ∀ v, Computes loop old i v → Right loop old again final (next v) (f.mark i)
  | .fetch i next, f =>
    f.done i ∧ ∀ v, Computes loop old i v → Right loop old again final (next v) f
  | .answer i v next, f => Computes loop old i v ∧ Right loop old again final (next v) f
  | .store i v rest, f => Computes loop old i v ∧ Right loop old again final rest (f.put i)
  | .finish i rest, f => f.stored i ∧ Right loop old again final rest (f.mark i)
  | .testDone i yes no, f =>
    Right loop old again final yes (f.mark i) ∧ Right loop old again final no f
  | .testMax yes no, f =>
    Right loop old again final yes f.continued ∧ Right loop old again final no f
  | .setMax rest, f => again ∧ Right loop old again final rest f.continued

variable {again : Prop} {final : Facts n → Prop}

theorem Right.mono (hfinal : ∀ {f g}, final f → Facts.Le f g → final g) {code : Code n α}
    {f g : Facts n} (h : Right loop old again final code f) (hle : f.Le g) :
    Right loop old again final code g := by
  induction code generalizing f g with
  | halt => exact hfinal h hle
  | value i next ih => exact ih (old i) h hle
  | newValue cur i next ih => exact fun v hv => ih v (h v hv) (hle.mark i)
  | fetch i next ih => exact ⟨hle.1 i h.1, fun v hv => ih v (h.2 v hv) hle⟩
  | answer i v next ih => exact ⟨h.1, ih v h.2 hle⟩
  | store i v rest ih => exact ⟨h.1, ih h.2 (hle.put i)⟩
  | finish i rest ih => exact ⟨hle.2.1 i h.1, ih h.2 (hle.mark i)⟩
  | testDone i yes no ihyes ihno => exact ⟨ihyes h.1 (hle.mark i), ihno h.2 hle⟩
  | testMax yes no ihyes ihno => exact ⟨ihyes h.1 hle.continued, ihno h.2 hle⟩
  | setMax rest ih => exact ⟨h.1, ih h.2 hle.continued⟩

/-! ### The code of `step` -/

theorem right_run (hfinal : ∀ {f g}, final f → Facts.Le f g → final g) {cur : Option (Fin n)}
    {next : β → Code n α} {ask : Ask n α β} {f : Facts n}
    (hnext : ∀ result, Evals loop old ask result → Right loop old again final (next result) f) :
    Right loop old again final (ask.run cur next) f := by
  induction ask generalizing f with
  | ret result => exact hnext result (Evals.ret result)
  | value i ask ih => exact ih (old i) fun result heval => hnext result (Evals.value heval)
  | newValue i ask ih =>
    intro v hv
    apply ih v
    intro result heval
    exact (hnext result (Evals.newValue hv heval)).mono hfinal (f.le_mark i)

theorem right_compute (hfinal : ∀ {f g}, final f → Facts.Le f g → final g)
    {next : α → Code n α} {f : Facts n}
    (hnext : ∀ v, Computes loop old i v → Right loop old again final (next v) (f.mark i)) :
    Right loop old again final (compute loop i next) f := by
  apply right_run hfinal
  intro v hv
  refine ⟨hv, Or.inl rfl, ?_⟩
  exact (hnext v hv).mono hfinal ((f.le_put i).mark i)

theorem right_post (hfinal : ∀ {f g}, final f → Facts.Le f g → final g)
    (hnum : num ≤ n) (count i : Nat) {f : Facts n} (hcount : i + count ≤ num ∨ count = 0)
    (hagain : ∀ j : Fin n, i ≤ j.val → j.val < i + count → Holds loop old j → again)
    (hmax : final f.continued)
    (hnone : (∀ j : Fin n, i ≤ j.val → j.val < i + count → ¬ Holds loop old j) → final f) :
    Right loop old again final (post loop count i) f := by
  induction count generalizing i f with
  | zero =>
    apply hnone
    intro j hid hlt
    omega
  | succ count ih =>
    have hi : i < n := by omega
    rw [post, dif_pos hi]
    apply right_run hfinal
    intro holds heval
    cases holds with
    | true => exact ⟨hagain ⟨i, hi⟩ (Nat.le_refl i)
        (Nat.lt_add_of_pos_right (Nat.succ_pos count)) heval,
        hmax⟩
    | false =>
      refine ih (i + 1) (by omega) (fun j hid hlt => hagain j (by omega) (by omega)) hmax ?_
      intro hrest
      apply hnone
      intro j hid hlt hholds
      rcases Nat.eq_or_lt_of_le hid with heq | hgt
      · have hj : j = ⟨i, hi⟩ := Fin.ext heq.symm
        rw [hj] at hholds
        cases heval.unique hholds
      · exact hrest j hgt (by omega) hholds

theorem right_body {rest : Code n α} (hfinal : ∀ {f g}, final f → Facts.Le f g → final g)
    {last : Nat} (hlast : last ≤ n)
    (hrest : ∀ f : Facts n, (∀ j : Fin n, id ≤ j.val → j.val < last → f.done j) →
      Right loop old again final rest f)
    (count i : Nat) {f : Facts n} (hcount : i + count = last)
    (hdone : ∀ j : Fin n, id ≤ j.val → j.val < i → f.done j) :
    Right loop old again final (body loop rest count i) f := by
  induction count generalizing i f with
  | zero =>
    apply hrest
    intro j hid hlt
    exact hdone j hid (by omega)
  | succ count ih =>
    have hi : i < n := by omega
    have hmark : ∀ j : Fin n, id ≤ j.val → j.val < i + 1 → (f.mark ⟨i, hi⟩).done j := by
      intro j hid hlt
      rcases Nat.eq_or_lt_of_le (Nat.le_of_lt_succ hlt) with heq | hgt
      · exact Or.inl (Fin.ext heq)
      · exact Or.inr (hdone j hid hgt)
    have hnext := ih (i + 1) (by omega) hmark
    rw [body, dif_pos hi]
    exact ⟨hnext, right_compute hfinal fun _ _ => hnext⟩

/-- The code of a thread computes its elements and tests some of them. -/
theorem right_step (hcut : num ≤ cutOff) (hrange : id + num ≤ n)
    (hagain : ∀ i, Tested id num i → Holds loop old i → again) (f : Facts n) :
    Right loop old again (Finished loop old id num) (step loop id num) f := by
  have hfinal : ∀ {f g}, Finished loop old id num f → Facts.Le f g →
      Finished loop old id num g := fun h hle => h.mono hle
  apply right_body hfinal hrange
  · intro f hdone
    refine ⟨⟨hdone, Or.inl trivial⟩, ?_⟩
    apply right_post hfinal (Nat.le_of_add_left_le hrange)
    · omega
    · intro j hid hlt
      exact hagain j (Tested.step hcut hid (by omega))
    · exact ⟨hdone, Or.inl trivial⟩
    · intro hnone
      refine ⟨hdone, Or.inr ?_⟩
      intro j hj
      obtain ⟨hid, hlt⟩ := (tested_step_iff hcut).1 hj
      exact hnone j hid (by omega)
  · omega
  · intro j hid hlt
    omega

/-! ### The steps of the threads -/

/-- What is true of the shared data. -/
def factsOf (loop : Loop n α) (old : Fin n → α) (nextCount : Nat) (s : Shared n α) : Facts n where
  done i := s.done i = nextCount
  stored i := Computes loop old i (s.toArray i)
  max := nextCount ≤ s.maxCount

structure SharedInv (loop : Loop n α) (old : Fin n → α) (again : Prop) (nextCount : Nat)
    (s : Shared n α) : Prop where
  stored : ∀ i, s.done i = nextCount → Computes loop old i (s.toArray i)
  done_le : ∀ i, s.done i ≤ nextCount
  max_le : s.maxCount ≤ nextCount
  again : nextCount ≤ s.maxCount → again

/-- What one access does. -/
theorem threadStep_right (hfinal : ∀ {f g}, final f → Facts.Le f g → final g)
    {nextCount : Nat} {s s' : Shared n α} {code code' : Code n α}
    (hinv : SharedInv loop old again nextCount s)
    (hright : Right loop old again final code (factsOf loop old nextCount s))
    (hstep : threadStep loop old nextCount id num s code = some (s', code')) :
    SharedInv loop old again nextCount s' ∧
      (factsOf loop old nextCount s).Le (factsOf loop old nextCount s') ∧
      Right loop old again final code' (factsOf loop old nextCount s') := by
  cases code with
  | halt => cases hstep
  | value i next =>
    cases hstep
    exact ⟨hinv, Facts.Le.refl _, hright⟩
  | newValue cur i next =>
    rw [threadStep] at hstep
    split at hstep
    · rename_i hdone
      cases hstep
      refine ⟨hinv, Facts.Le.refl _, hdone, ?_⟩
      intro v hv
      exact (hright v hv).mono hfinal (Facts.mark_le hdone)
    · split at hstep
      · cases hstep
        exact ⟨hinv, Facts.Le.refl _, right_compute hfinal fun v hv => ⟨hv, hright v hv⟩⟩
      · cases hstep
  | fetch i next =>
    cases hstep
    have hstored := hinv.stored i hright.1
    exact ⟨hinv, Facts.Le.refl _, hstored, hright.2 _ hstored⟩
  | answer i v next =>
    cases hstep
    exact ⟨hinv, Facts.Le.refl _, hright.2⟩
  | store i v rest =>
    cases hstep
    have hstored : ∀ j, Computes loop old j (s.toArray j) →
        Computes loop old j (Function.update s.toArray i v j) := by
      intro j hj
      by_cases heq : j = i
      · rw [heq, Function.update_self]
        exact hright.1
      · rw [Function.update_of_ne heq]
        exact hj
    refine ⟨⟨fun j hj => hstored j (hinv.stored j hj), hinv.done_le, hinv.max_le, hinv.again⟩,
      ⟨fun _ hj => hj, hstored, fun hmax => hmax⟩,
      hright.2.mono hfinal ⟨fun _ hj => hj, ?_, fun hmax => hmax⟩⟩
    rintro j (rfl | hj)
    · show Computes loop old j (Function.update s.toArray j v j)
      rw [Function.update_self]
      exact hright.1
    · exact hstored j hj
  | finish i rest =>
    cases hstep
    have hdone : ∀ j, s.done j = nextCount →
        Function.update s.done i nextCount j = nextCount := by
      intro j hj
      by_cases heq : j = i
      · rw [heq, Function.update_self]
      · rw [Function.update_of_ne heq]
        exact hj
    refine ⟨⟨?_, ?_, hinv.max_le, hinv.again⟩, ⟨hdone, fun _ hj => hj, fun hmax => hmax⟩,
      hright.2.mono hfinal ⟨?_, fun _ hj => hj, fun hmax => hmax⟩⟩
    · intro j hj
      by_cases heq : j = i
      · rw [heq]
        exact hright.1
      · refine hinv.stored j ?_
        rw [← hj]
        exact (Function.update_of_ne heq _ _).symm
    · intro j
      show Function.update s.done i nextCount j ≤ nextCount
      by_cases heq : j = i
      · exact Nat.le_of_eq (heq ▸ Function.update_self j nextCount s.done)
      · rw [Function.update_of_ne heq]
        exact hinv.done_le j
    · rintro j (rfl | hj)
      · show Function.update s.done j nextCount j = nextCount
        rw [Function.update_self]
      · exact hdone j hj
  | testDone i yes no =>
    cases hstep
    refine ⟨hinv, Facts.Le.refl _, ?_⟩
    split
    · rename_i hdone
      exact hright.1.mono hfinal (Facts.mark_le hdone)
    · exact hright.2
  | testMax yes no =>
    cases hstep
    refine ⟨hinv, Facts.Le.refl _, ?_⟩
    split
    · rename_i hmax
      exact hright.1.mono hfinal ⟨fun _ hj => hj, fun _ hj => hj, fun _ => hmax⟩
    · exact hright.2
  | setMax rest =>
    cases hstep
    exact ⟨⟨hinv.stored, hinv.done_le, Nat.le_refl nextCount, fun _ => hright.1⟩,
      ⟨fun _ hj => hj, fun _ hj => hj, fun _ => Nat.le_refl nextCount⟩,
      hright.2.mono hfinal ⟨fun _ hj => hj, fun _ hj => hj, fun _ => Nat.le_refl nextCount⟩⟩

/-! ### The threads of a round -/

/-- The threads cover the elements `id ≤ i < id + num`. -/
def Covers (loop : Loop n α) (old : Fin n → α) (again : Prop) (f : Facts n) :
    Nat → Nat → Proc n α → Prop
  | id, num, .start id' num' => id' = id ∧ num' = num
  | id, num, .thread id' num' code =>
    id' = id ∧ num' = num ∧ num ≤ cutOff ∧
      Right loop old again (Finished loop old id num) code f
  | id, num, .fork left right =>
    ¬ num ≤ cutOff ∧ Covers loop old again f id (num / 2) left ∧
      Covers loop old again f (id + num / 2) (num - num / 2) right
  | id, num, .ended => Finished loop old id num f

theorem Covers.mono {id num : Nat} {proc : Proc n α} {f g : Facts n}
    (h : Covers loop old again f id num proc) (hle : f.Le g) :
    Covers loop old again g id num proc := by
  induction proc generalizing id num with
  | start id' num' => exact h
  | thread id' num' code =>
    obtain ⟨hid, hnum, hcut, hright⟩ := h
    exact ⟨hid, hnum, hcut, hright.mono (fun hfin hle => hfin.mono hle) hle⟩
  | fork left right ihleft ihright => exact ⟨h.1, ihleft h.2.1, ihright h.2.2⟩
  | ended => exact Finished.mono h hle

theorem Finished.join {f : Facts n} (hcut : ¬ num ≤ cutOff)
    (hleft : Finished loop old id (num / 2) f)
    (hright : Finished loop old (id + num / 2) (num - num / 2) f) :
    Finished loop old id num f := by
  constructor
  · intro i hid hlt
    rcases Nat.lt_or_ge i.val (id + num / 2) with hlow | hhigh
    · exact hleft.1 i hid hlow
    · exact hright.1 i hhigh (by omega)
  · rcases hleft.2 with hmax | hnone
    · exact Or.inl hmax
    · rcases hright.2 with hmax | hnone'
      · exact Or.inl hmax
      · refine Or.inr ?_
        intro i hi
        cases hi with
        | step h => exact absurd h hcut
        | left _ htested => exact hnone i htested
        | right _ htested => exact hnone' i htested

theorem procStep_covers {nextCount : Nat} {s s' : Shared n α} {proc proc' : Proc n α}
    (hstep : ProcStep loop old nextCount s proc s' proc') (hrange : id + num ≤ n)
    (hagain : ∀ i, Tested id num i → Holds loop old i → again)
    (hinv : SharedInv loop old again nextCount s)
    (hcovers : Covers loop old again (factsOf loop old nextCount s) id num proc) :
    SharedInv loop old again nextCount s' ∧
      (factsOf loop old nextCount s).Le (factsOf loop old nextCount s') ∧
      Covers loop old again (factsOf loop old nextCount s') id num proc' := by
  induction hstep generalizing id num with
  | step hcut =>
    obtain ⟨rfl, rfl⟩ := hcovers
    exact ⟨hinv, Facts.Le.refl _, rfl, rfl, hcut, right_step hcut hrange hagain _⟩
  | create hcut =>
    obtain ⟨rfl, rfl⟩ := hcovers
    exact ⟨hinv, Facts.Le.refl _, hcut, ⟨rfl, rfl⟩, rfl, rfl⟩
  | access haccess =>
    obtain ⟨rfl, rfl, hcut, hright⟩ := hcovers
    obtain ⟨hinv', hle, hright'⟩ :=
      threadStep_right (fun hfin hle => hfin.mono hle) hinv hright haccess
    exact ⟨hinv', hle, rfl, rfl, hcut, hright'⟩
  | exit =>
    obtain ⟨rfl, rfl, -, hright⟩ := hcovers
    exact ⟨hinv, Facts.Le.refl _, hright⟩
  | left _ ih =>
    obtain ⟨hcut, hleft, hright⟩ := hcovers
    obtain ⟨hinv', hle, hleft'⟩ :=
      ih (by omega) (fun i hi => hagain i (Tested.left hcut hi)) hleft
    exact ⟨hinv', hle, hcut, hleft', hright.mono hle⟩
  | right _ ih =>
    obtain ⟨hcut, hleft, hright⟩ := hcovers
    obtain ⟨hinv', hle, hright'⟩ :=
      ih (by omega) (fun i hi => hagain i (Tested.right hcut hi)) hright
    exact ⟨hinv', hle, hcut, hleft.mono hle, hright'⟩
  | join =>
    obtain ⟨hcut, hleft, hright⟩ := hcovers
    exact ⟨hinv, Facts.Le.refl _, Finished.join hcut hleft hright⟩

end SmlSharp.ForeachCommon
