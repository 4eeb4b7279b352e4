/-
Sweeps over a list of items that take the flag from the items whose test fails,
repeated until a sweep changes nothing.  If the test of an item can only fail
more often when flags are taken away, what remains is the greatest assignment
of flags that passes its own tests.
-/
import SmlSharp.Lib.Except
import Mathlib.Order.BooleanAlgebra.Basic
import Mathlib.Logic.Function.Basic

namespace SmlSharp

variable {ι δ ε : Type} [DecidableEq ι] (key : δ → ι)
  (test : (ι → Bool) → δ → Except ε Bool)

/-- An item that has its flag and fails its test loses the flag. -/
def look (state : (ι → Bool) × Bool) (item : δ) : Except ε ((ι → Bool) × Bool) :=
  if state.1 (key item) then do
    if ← test state.1 item then pure state
    else pure (Function.update state.1 (key item) false, true)
  else pure state

/-- The flags after one sweep, and whether one has changed. -/
def sweep (flags : ι → Bool) (items : List δ) : Except ε ((ι → Bool) × Bool) :=
  items.foldlM (look key test) (flags, false)

/-- At most `fuel` sweeps; `diverges` says that they were not enough. -/
def sweeps (diverges : ε) (items : List δ) : Nat → (ι → Bool) → Except ε (ι → Bool)
  | 0, _ => .error diverges
  | fuel + 1, flags => do
      let (flags, changed) ← sweep key test flags items
      if changed then sweeps diverges items fuel flags else pure flags

/-- With fewer flags a test returns whenever it did, and is passed only if it
was. -/
def Antitone (test : (ι → Bool) → δ → Except ε Bool) : Prop :=
  ∀ flags flags', flags ≤ flags' → ∀ item passed', test flags' item = .ok passed' →
    ∃ passed, passed ≤ passed' ∧ test flags item = .ok passed

/-- No item that has its flag fails its test. -/
def Stands (flags : ι → Bool) (items : List δ) : Prop :=
  ∀ item ∈ items, flags (key item) = true → test flags item ≠ .ok false

/-- The tests of the items that have their flags return. -/
def Tests (flags : ι → Bool) (items : List δ) : Prop :=
  ∀ item ∈ items, flags (key item) = true → ∃ passed, test flags item = .ok passed

/-- Each item in turn has a test that returns, if its flag is left when the
items before it have been looked at. -/
def TestsInOrder (flags : ι → Bool) : List δ → Prop
  | [] => True
  | item :: items =>
    if flags (key item) = true then
      test flags item = .ok true ∧ TestsInOrder flags items ∨
        test flags item = .ok false ∧
          TestsInOrder (Function.update flags (key item) false) items
    else TestsInOrder flags items

variable {key test}

theorem update_false_le (flags : ι → Bool) (i : ι) : Function.update flags i false ≤ flags := by
  intro j
  rcases eq_or_ne j i with rfl | hne
  · simp
  · simp [hne]

variable {flags flags' : ι → Bool} {changed changed' : Bool} {diverges : ε} {fuel : Nat}

theorem update_false_eq_true {i j : ι} :
    Function.update flags i false j = true ↔ j ≠ i ∧ flags j = true := by
  rcases eq_or_ne j i with rfl | hne
  · simp
  · simp [hne]

/-- What one look does: the item has no flag, or passes, or loses its flag. -/
theorem look_ok {item : δ}
    (h : look key test (flags, changed) item = .ok (flags', changed')) :
    flags (key item) = false ∧ flags' = flags ∧ changed' = changed ∨
      flags (key item) = true ∧ test flags item = .ok true ∧ flags' = flags ∧
        changed' = changed ∨
      flags (key item) = true ∧ test flags item = .ok false ∧
        flags' = Function.update flags (key item) false ∧ changed' = true := by
  rw [look] at h
  by_cases hflag : flags (key item) = true
  · rw [if_pos hflag] at h
    obtain ⟨passed, htest, h⟩ := except_bind_ok.1 h
    cases passed with
    | true =>
      cases h
      exact Or.inr (Or.inl ⟨hflag, htest, rfl, rfl⟩)
    | false =>
      cases h
      exact Or.inr (Or.inr ⟨hflag, htest, rfl, rfl⟩)
  · rw [if_neg hflag] at h
    cases h
    exact Or.inl ⟨Bool.eq_false_iff.2 hflag, rfl, rfl⟩

theorem look_le {item : δ}
    (h : look key test (flags, changed) item = .ok (flags', changed')) : flags' ≤ flags := by
  rcases look_ok h with ⟨_, rfl, _⟩ | ⟨_, _, rfl, _⟩ | ⟨_, _, rfl, _⟩
  · exact le_refl _
  · exact le_refl _
  · exact update_false_le _ _

/-- A sweep from any value of `changed`. -/
theorem foldlM_look_le {items : List δ}
    (h : items.foldlM (look key test) (flags, changed) = .ok (flags', changed')) :
    flags' ≤ flags := by
  induction items generalizing flags changed with
  | nil =>
    cases h
    exact le_refl _
  | cons item items ih =>
    rw [List.foldlM_cons] at h
    obtain ⟨⟨flags1, changed1⟩, hlook, hrest⟩ := except_bind_ok.1 h
    exact le_trans (ih hrest) (look_le hlook)

/-- A sweep that keeps `changed` false changes no flag, and all flagged items
pass. -/
theorem foldlM_look_unchanged {items : List δ}
    (h : items.foldlM (look key test) (flags, changed) = .ok (flags', false)) :
    changed = false ∧ flags' = flags ∧
      ∀ item ∈ items, flags (key item) = true → test flags item = .ok true := by
  induction items generalizing flags changed with
  | nil =>
    cases h
    exact ⟨rfl, rfl, by simp⟩
  | cons item items ih =>
    rw [List.foldlM_cons] at h
    obtain ⟨⟨flags1, changed1⟩, hlook, hrest⟩ := except_bind_ok.1 h
    obtain ⟨rfl, rfl, hall⟩ := ih hrest
    rcases look_ok hlook with ⟨hflag, rfl, rfl⟩ | ⟨_, htest, rfl, rfl⟩ | ⟨_, _, _, hfalse⟩
    · refine ⟨rfl, rfl, List.forall_mem_cons.2 ⟨?_, hall⟩⟩
      intro htrue
      rw [hflag] at htrue
      cases htrue
    · exact ⟨rfl, rfl, List.forall_mem_cons.2 ⟨fun _ => htest, hall⟩⟩
    · cases hfalse

/-- Flags that a sweep does not change stand. -/
theorem stands_of_sweep {items : List δ} (h : sweep key test flags items = .ok (flags', false)) :
    flags' = flags ∧ Stands key test flags items := by
  obtain ⟨_, heq, hall⟩ := foldlM_look_unchanged h
  refine ⟨heq, fun item hmem hflag htest => ?_⟩
  rw [hall item hmem hflag] at htest
  cases htest

theorem sweeps_unchanged {items : List δ} (diverges : ε) (fuel : Nat)
    (h : sweep key test flags items = .ok (flags', false)) :
    sweeps key test diverges items (fuel + 1) flags = .ok flags' := by
  rw [sweeps, h]
  rfl

theorem sweeps_changed {items : List δ} (diverges : ε) (fuel : Nat)
    (h : sweep key test flags items = .ok (flags', true)) :
    sweeps key test diverges items (fuel + 1) flags =
      sweeps key test diverges items fuel flags' := by
  rw [sweeps, h]
  rfl

/-- A sweep that sets `changed` takes a flag from an item. -/
theorem foldlM_look_changed {items : List δ}
    (h : items.foldlM (look key test) (flags, false) = .ok (flags', true)) :
    ∃ item ∈ items, flags (key item) = true ∧ flags' (key item) = false := by
  induction items generalizing flags with
  | nil => cases h
  | cons item items ih =>
    rw [List.foldlM_cons] at h
    obtain ⟨⟨flags1, changed1⟩, hlook, hrest⟩ := except_bind_ok.1 h
    rcases look_ok hlook with ⟨_, rfl, rfl⟩ | ⟨_, _, rfl, rfl⟩ | ⟨hflag, _, rfl, rfl⟩
    · obtain ⟨item', hmem, hlost⟩ := ih hrest
      exact ⟨item', List.mem_cons_of_mem _ hmem, hlost⟩
    · obtain ⟨item', hmem, hlost⟩ := ih hrest
      exact ⟨item', List.mem_cons_of_mem _ hmem, hlost⟩
    · refine ⟨item, List.mem_cons_self, hflag, ?_⟩
      have hle := foldlM_look_le hrest (key item)
      rw [Function.update_self] at hle
      exact Bool.eq_false_of_le_false hle

section Antitone

variable (hanti : Antitone test)

include hanti

omit [DecidableEq ι] in
theorem Tests.anti {items : List δ} (hle : flags ≤ flags')
    (h : Tests key test flags' items) : Tests key test flags items := by
  intro item hmem hflag
  obtain ⟨passed', htest⟩ := h item hmem (hle _ hflag)
  obtain ⟨passed, _, htest⟩ := hanti flags flags' hle item passed' htest
  exact ⟨passed, htest⟩

/-- A sweep that returns leaves only flagged items whose tests return. -/
theorem foldlM_look_tests {items : List δ}
    (h : items.foldlM (look key test) (flags, changed) = .ok (flags', changed')) :
    Tests key test flags' items := by
  induction items generalizing flags changed with
  | nil => simp [Tests]
  | cons item items ih =>
    rw [List.foldlM_cons] at h
    obtain ⟨⟨flags1, changed1⟩, hlook, hrest⟩ := except_bind_ok.1 h
    have hle := foldlM_look_le hrest
    refine List.forall_mem_cons.2 ⟨?_, ih hrest⟩
    intro hflag
    rcases look_ok hlook with ⟨hfalse, rfl, _⟩ | ⟨_, htest, rfl, _⟩ | ⟨_, _, rfl, _⟩
    · have htrue := hle _ hflag
      rw [hfalse] at htrue
      cases htrue
    · obtain ⟨passed, _, htest⟩ := hanti flags' flags1 hle item true htest
      exact ⟨passed, htest⟩
    · have htrue := hle _ hflag
      simp at htrue

/-- Under flags whose tests return, a sweep returns. -/
theorem Tests.foldlM_look {items : List δ} (changed : Bool)
    (h : Tests key test flags items) :
    ∃ flags' changed', items.foldlM (look key test) (flags, changed) = .ok (flags', changed') := by
  induction items generalizing flags changed with
  | nil => exact ⟨flags, changed, rfl⟩
  | cons item items ih =>
    have hrest : Tests key test flags items :=
      fun item' hmem => h item' (List.mem_cons_of_mem _ hmem)
    have hlook : ∃ flags1 changed1, flags1 ≤ flags ∧
        look key test (flags, changed) item = .ok (flags1, changed1) := by
      rw [look]
      by_cases hflag : flags (key item) = true
      · obtain ⟨passed, htest⟩ := h item List.mem_cons_self hflag
        simp only [hflag, if_true, htest]
        cases passed with
        | true => exact ⟨flags, changed, le_refl _, rfl⟩
        | false => exact ⟨_, true, update_false_le _ _, rfl⟩
      · simp only [hflag]
        exact ⟨flags, changed, le_refl _, rfl⟩
    obtain ⟨flags1, changed1, hle, hlook⟩ := hlook
    obtain ⟨flags', changed', hsweep⟩ := ih changed1 (hrest.anti hanti hle)
    refine ⟨flags', changed', ?_⟩
    rw [List.foldlM_cons, hlook]
    exact hsweep

/-- No sweep takes a flag that belongs to an assignment that stands. -/
theorem Stands.le_foldlM_look {items : List δ} {stand : ι → Bool}
    (hstand : Stands key test stand items) (hle : stand ≤ flags)
    (h : items.foldlM (look key test) (flags, changed) = .ok (flags', changed')) :
    stand ≤ flags' := by
  induction items generalizing flags changed with
  | nil =>
    cases h
    exact hle
  | cons item items ih =>
    rw [List.foldlM_cons] at h
    obtain ⟨⟨flags1, changed1⟩, hlook, hrest⟩ := except_bind_ok.1 h
    refine ih (fun item' hmem => hstand item' (List.mem_cons_of_mem _ hmem)) ?_ hrest
    rcases look_ok hlook with ⟨_, rfl, _⟩ | ⟨_, _, rfl, _⟩ | ⟨_, htest, rfl, _⟩
    · exact hle
    · exact hle
    · intro i hi
      refine update_false_eq_true.2 ⟨?_, hle i hi⟩
      rintro rfl
      obtain ⟨passed, hpassed, htest⟩ := hanti stand flags hle item false htest
      rw [Bool.eq_false_of_le_false hpassed] at htest
      exact hstand item List.mem_cons_self hi htest

end Antitone

omit [DecidableEq ι] in
theorem countP_lt_of_le {items : List δ} (hle : flags' ≤ flags)
    (hlost : ∃ item ∈ items, flags (key item) = true ∧ flags' (key item) = false) :
    items.countP (fun item => flags' (key item)) < items.countP (fun item => flags (key item)) := by
  obtain ⟨item, hmem, hflag, hflag'⟩ := hlost
  induction items with
  | nil => cases hmem
  | cons item' items ih =>
    rw [List.countP_cons, List.countP_cons]
    have hmono : items.countP (fun item => flags' (key item)) ≤
        items.countP (fun item => flags (key item)) :=
      List.countP_mono_left (fun item _ h => hle _ h)
    rcases List.mem_cons.1 hmem with rfl | hmem
    · simp only [hflag, hflag', if_true]
      exact Nat.lt_succ_of_le hmono
    · have hlt := ih hmem
      cases hkey' : flags' (key item') with
      | false =>
        simp only [Bool.false_eq_true, if_false, Nat.add_zero]
        exact Nat.lt_of_lt_of_le hlt (Nat.le_add_right _ _)
      | true =>
        rw [hle _ hkey']
        exact Nat.add_lt_add_right hlt 1

/-- Flags whose tests return: the sweeps end with the greatest assignment that
stands. -/
theorem Tests.sweeps {items : List δ} {flags : ι → Bool} (diverges : ε) (hanti : Antitone test)
    (h : Tests key test flags items) :
    ∃ fuel flags', sweeps key test diverges items fuel flags = .ok flags' ∧ flags' ≤ flags ∧
      Stands key test flags' items ∧
      ∀ stand, stand ≤ flags → Stands key test stand items → stand ≤ flags' := by
  induction hcount : items.countP (fun item => flags (key item)) using Nat.strong_induction_on
    generalizing flags with
  | _ count ih =>
    obtain ⟨flags1, changed1, hsweep⟩ := h.foldlM_look hanti false
    have hle := foldlM_look_le hsweep
    cases changed1 with
    | false =>
      obtain ⟨rfl, hstands⟩ := stands_of_sweep hsweep
      exact ⟨1, flags1, sweeps_unchanged diverges 0 hsweep, le_refl _, hstands,
        fun stand hstand _ => hstand⟩
    | true =>
      subst hcount
      obtain ⟨fuel, flags', hsweeps, hle', hstands, hgreatest⟩ :=
        ih _ (countP_lt_of_le hle (foldlM_look_changed hsweep)) (h.anti hanti hle) rfl
      refine ⟨fuel + 1, flags', ?_, le_trans hle' hle, hstands, ?_⟩
      · rw [sweeps_changed diverges fuel hsweep, hsweeps]
      · intro stand hstand hstands'
        exact hgreatest stand (hstands'.le_foldlM_look hanti hstand hsweep) hstands'

theorem testsInOrder_iff {items : List δ} (changed : Bool) :
    TestsInOrder key test flags items ↔ ∃ flags' changed',
        items.foldlM (look key test) (flags, changed) = .ok (flags', changed') := by
  induction items generalizing flags changed with
  | nil => simp [TestsInOrder, pure, Except.pure]
  | cons item items ih =>
    rw [TestsInOrder, List.foldlM_cons, look]
    by_cases hflag : flags (key item) = true
    · simp only [hflag, if_true]
      cases htest : test flags item with
      | error failure => simp [bind, Except.bind]
      | ok passed =>
        cases passed with
        | true => simpa [bind, Except.bind, pure, Except.pure] using ih changed
        | false => simpa [bind, Except.bind, pure, Except.pure] using ih true
    · simp only [hflag]
      exact ih changed

/-- The sweeps end if the first one does, and then with the greatest assignment
that stands. -/
theorem TestsInOrder.sweeps {items : List δ} {flags : ι → Bool} (diverges : ε)
    (hanti : Antitone test) (h : TestsInOrder key test flags items) :
    ∃ fuel flags', sweeps key test diverges items fuel flags = .ok flags' ∧ flags' ≤ flags ∧
      Tests key test flags' items ∧ Stands key test flags' items ∧
      ∀ stand, stand ≤ flags → Stands key test stand items → stand ≤ flags' := by
  obtain ⟨flags1, changed1, hsweep⟩ := (testsInOrder_iff false).1 h
  have hle := foldlM_look_le hsweep
  have htests := foldlM_look_tests hanti hsweep
  obtain ⟨fuel, flags', hsweeps, hle', hstands, hgreatest⟩ := htests.sweeps diverges hanti
  have hgreatest' : ∀ stand, stand ≤ flags → Stands key test stand items → stand ≤ flags' :=
    fun stand hstand hstands' =>
      hgreatest stand (hstands'.le_foldlM_look hanti hstand hsweep) hstands'
  have htests' := htests.anti hanti hle'
  cases changed1 with
  | true =>
    refine ⟨fuel + 1, flags', ?_, le_trans hle' hle, htests', hstands, hgreatest'⟩
    rw [sweeps_changed diverges fuel hsweep, hsweeps]
  | false =>
    obtain ⟨rfl, hstands⟩ := stands_of_sweep hsweep
    exact ⟨1, flags1, sweeps_unchanged diverges 0 hsweep, le_refl _, htests, hstands,
      fun stand hstand _ => hstand⟩

theorem testsInOrder_of_sweeps {items : List δ}
    (h : sweeps key test diverges items fuel flags = .ok flags') :
    TestsInOrder key test flags items := by
  cases fuel with
  | zero => cases h
  | succ fuel =>
    rw [SmlSharp.sweeps] at h
    obtain ⟨⟨flags1, changed1⟩, hsweep, _⟩ := except_bind_ok.1 h
    exact (testsInOrder_iff false).2 ⟨flags1, changed1, hsweep⟩

theorem sweeps_mono {items : List δ} {fuel' : Nat}
    (hfuel : fuel ≤ fuel') (h : sweeps key test diverges items fuel flags = .ok flags') :
    sweeps key test diverges items fuel' flags = .ok flags' := by
  induction fuel generalizing fuel' flags with
  | zero => cases h
  | succ fuel ih =>
    obtain ⟨fuel', rfl⟩ : ∃ k, fuel' = k + 1 := ⟨fuel' - 1, by omega⟩
    rw [SmlSharp.sweeps] at h ⊢
    obtain ⟨⟨flags1, changed1⟩, hsweep, h⟩ := except_bind_ok.1 h
    refine except_bind_ok.2 ⟨_, hsweep, ?_⟩
    cases changed1 with
    | true => exact ih (by omega) h
    | false => exact h

/-- More sweeps do not change what the sweeps end with. -/
theorem sweeps_unique {items : List δ} {fuel' : Nat} {flags1 flags2 : ι → Bool}
    (h1 : sweeps key test diverges items fuel flags = .ok flags1)
    (h2 : sweeps key test diverges items fuel' flags = .ok flags2) : flags1 = flags2 := by
  have hmax1 := sweeps_mono (Nat.le_max_left fuel fuel') h1
  have hmax2 := sweeps_mono (Nat.le_max_right fuel fuel') h2
  rw [hmax1] at hmax2
  exact Except.ok.inj hmax2

end SmlSharp
