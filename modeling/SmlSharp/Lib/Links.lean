/-
Cells that may refer to another cell: the root of a cell, and what redirecting
one cell to another does to the roots.
-/
import Mathlib.Logic.Function.Basic
import Mathlib.Logic.Relation

namespace SmlSharp

universe u

variable {α : Type u} {link : α → Option α}

/-- Following the links from a cell ends at a cell without a link. -/
inductive Root (link : α → Option α) : α → α → Prop where
  | here {c : α} (hnone : link c = none) : Root link c c
  | next {c d r : α} (hlink : link c = some d) (hroot : Root link d r) : Root link c r

variable {c r s x : α} {link' : α → Option α}

theorem Root.link_root (hroot : Root link c r) : link r = none := by
  induction hroot with
  | here hnone => exact hnone
  | next _ _ ih => exact ih

theorem Root.root (hroot : Root link c r) : Root link r r :=
  .here hroot.link_root

theorem Root.eq_of_none (hroot : Root link c r) (hnone : link c = none) :
    r = c := by
  cases hroot with
  | here _ => rfl
  | next hlink _ => simp [hnone] at hlink

theorem Root.of_link {d : α} (hroot : Root link c r) (hlink : link c = some d) :
    Root link d r := by
  cases hroot with
  | here hnone => simp [hnone] at hlink
  | next hlink' hroot =>
    rw [hlink] at hlink'
    cases hlink'
    exact hroot

theorem Root.unique (hr : Root link c r) (hs : Root link c s) : r = s := by
  induction hr with
  | here hnone => exact (hs.eq_of_none hnone).symm
  | next hlink _ ih => exact ih (hs.of_link hlink)

/-- No cell whose links end lies on a cycle of links. -/
theorem Root.acyclic (hroot : Root link c r) :
    ¬ Relation.TransGen (fun a b => link a = some b) c c := by
  induction hroot with
  | here hnone =>
    intro hcycle
    obtain ⟨d, hlink, _⟩ := Relation.TransGen.head'_iff.1 hcycle
    simp [hnone] at hlink
  | next hlink _ ih =>
    intro hcycle
    obtain ⟨d, hlink', hback⟩ := Relation.TransGen.head'_iff.1 hcycle
    rw [hlink] at hlink'
    cases hlink'
    exact ih (Relation.TransGen.tail' hback hlink)

section Redirect

variable [DecidableEq α] {c target root : α}

/-- A cell keeps its root when a cell of another class is redirected. -/
theorem Root.update_of_ne {x s : α} (hx : Root link x s) {r : α} (hc : Root link c r)
    (hne : s ≠ r) (next : Option α) : Root (Function.update link c next) x s := by
  induction hx with
  | here hnone =>
    refine .here ?_
    rw [Function.update_of_ne _, hnone]
    rintro rfl
    exact hne (hc.eq_of_none hnone).symm
  | @next a d s hlink hroot ih =>
    refine .next ?_ (ih hne)
    rw [Function.update_of_ne _, hlink]
    rintro rfl
    exact hne (hroot.unique (hc.of_link hlink))

/-- What a redirected cell referred to is either left alone or follows it. -/
theorem Root.update {x r : α} (hx : Root link x r)
    (htarget : Root (Function.update link c (some target)) target root) :
    Root (Function.update link c (some target)) x r ∨
      Root (Function.update link c (some target)) x root := by
  induction hx with
  | @here a hnone =>
    by_cases ha : a = c
    · subst ha
      exact Or.inr (.next (by simp) htarget)
    · exact Or.inl (.here (by rw [Function.update_of_ne ha, hnone]))
  | @next a d s hlink _ ih =>
    by_cases ha : a = c
    · subst ha
      exact Or.inr (.next (by simp) htarget)
    · have hlink' : Function.update link c (some target) a = some d := by
        rw [Function.update_of_ne ha, hlink]
      rcases ih with ih | ih
      · exact Or.inl (.next hlink' ih)
      · exact Or.inr (.next hlink' ih)

end Redirect

section RedirectAll

variable [DecidableEq α]

/-- The members are taken in turn, and each that does not have the root of the
target already is redirected to the target. -/
inductive Redirects (target root : α) : List α → (α → Option α) → (α → Option α) → Prop where
  | done {link : α → Option α} : Redirects target root [] link link
  | keep {link link' : α → Option α} {c : α} {rest : List α} (hroot : Root link c root)
      (hrest : Redirects target root rest link link') :
      Redirects target root (c :: rest) link link'
  | redirect {link link' : α → Option α} {c r : α} {rest : List α} (hroot : Root link c r)
      (hne : r ≠ root)
      (hrest : Redirects target root rest (Function.update link c (some target)) link') :
      Redirects target root (c :: rest) link link'

variable {target root : α}

/-- The class of the target keeps its root. -/
theorem Redirects.of_root {members : List α} {link : α → Option α}
    (hrun : Redirects target root members link link') (hx : Root link x root) :
    Root link' x root := by
  induction hrun with
  | done => exact hx
  | keep _ _ ih => exact ih hx
  | redirect hroot hne _ ih => exact ih (hx.update_of_ne hroot hne.symm _)

/-- Every member gets the root of the target. -/
theorem Redirects.member {members : List α} {link : α → Option α}
    (hrun : Redirects target root members link link') (htarget : Root link target root) :
    ∀ c ∈ members, Root link' c root := by
  induction hrun with
  | done => simp
  | keep hroot hrest ih =>
    intro c hc
    rcases List.mem_cons.1 hc with rfl | hc
    · exact hrest.of_root hroot
    · exact ih htarget c hc
  | redirect hroot hne hrest ih =>
    have htarget' := htarget.update_of_ne hroot hne.symm (some target)
    intro c hc
    rcases List.mem_cons.1 hc with rfl | hc
    · exact hrest.of_root (.next (by simp) htarget')
    · exact ih htarget' c hc

/-- A cell keeps its root or gets the root of the target. -/
theorem Redirects.or_root {members : List α} {link : α → Option α}
    (hrun : Redirects target root members link link') (htarget : Root link target root)
    (hx : Root link x s) : Root link' x s ∨ Root link' x root := by
  induction hrun with
  | done => exact Or.inl hx
  | keep _ _ ih => exact ih htarget hx
  | redirect hroot hne hrest ih =>
    have htarget' := htarget.update_of_ne hroot hne.symm (some target)
    rcases hx.update htarget' with hx | hx
    · exact ih htarget' hx
    · exact Or.inr (hrest.of_root hx)

/-- A cell whose root is not a member keeps a link-free root. -/
theorem Redirects.root_of_not_mem {members : List α} {link : α → Option α}
    (hrun : Redirects target root members link link') (hr : Root link r r)
    (hmem : r ∉ members) : Root link' r r := by
  induction hrun with
  | done => exact hr
  | keep _ _ ih => exact ih hr fun h => hmem (List.mem_cons_of_mem _ h)
  | @redirect link link' c s rest _ _ _ ih =>
    refine ih (.here ?_) fun h => hmem (List.mem_cons_of_mem _ h)
    rw [Function.update_of_ne _, hr.link_root]
    rintro rfl
    exact hmem List.mem_cons_self

/-- A class without members is left alone. -/
theorem Redirects.of_other {members : List α} {link : α → Option α}
    (hrun : Redirects target root members link link') (htarget : Root link target root)
    (hx : Root link x s) (hs : s ≠ root)
    (hmembers : ∀ c ∈ members, ∃ r, Root link c r ∧ r ≠ s) : Root link' x s := by
  induction hrun with
  | done => exact hx
  | keep _ _ ih => exact ih htarget hx fun c hc => hmembers c (List.mem_cons_of_mem _ hc)
  | @redirect link link' c r rest hroot hne _ ih =>
    have htarget' := htarget.update_of_ne hroot hne.symm (some target)
    have hsr : s ≠ r := by
      obtain ⟨r', hroot', hne'⟩ := hmembers c List.mem_cons_self
      rw [hroot.unique hroot']
      exact hne'.symm
    refine ih htarget' (hx.update_of_ne hroot hsr _) fun d hd => ?_
    obtain ⟨r', hroot', hne'⟩ := hmembers d (List.mem_cons_of_mem _ hd)
    rcases hroot'.update htarget' with hd' | hd'
    · exact ⟨r', hd', hne'⟩
    · exact ⟨root, hd', hs.symm⟩

/-- A class whose root is a member follows it. -/
theorem Redirects.of_member {members : List α} {link : α → Option α}
    (hrun : Redirects target root members link link') (htarget : Root link target root)
    (hx : Root link x r) (hr : r ∈ members) : Root link' x root := by
  have hr' : Root link' r root := hrun.member htarget r hr
  rcases hrun.or_root htarget hx with hx' | hx'
  · rwa [← hx'.root.unique hr']
  · exact hx'

end RedirectAll

end SmlSharp
