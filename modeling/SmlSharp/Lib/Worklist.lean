/-
Least solutions of monotone equations, computed with a list of the nodes that
are still to be visited.
-/
import Mathlib.Logic.Function.Basic
import Mathlib.Order.Basic
import Mathlib.Data.Fintype.Basic
import Mathlib.Algebra.Order.BigOperators.Group.Finset

namespace SmlSharp

universe u v w

/-- Equations over the nodes of a graph.  A node has a value of `L`, of which
other nodes only see a part in `M`. -/
structure Equations (ι : Type u) (L : Type v) (M : Type w) where
  visible : L → M
  transfer : ι → (ι → M) → L
  preds : ι → List ι

namespace Equations

variable {ι : Type u} {L : Type v} {M : Type w}

/-- The value that the equation of a node gives. -/
def next (E : Equations ι L M) (x : ι → L) (b : ι) : L :=
  E.transfer b fun c => E.visible (x c)

section Visit

variable [DecidableEq ι] {E : Equations ι L M} {x : ι → L} {b : ι}

def visit (E : Equations ι L M) (x : ι → L) (b : ι) : ι → L :=
  Function.update x b (E.next x b)

theorem visit_same : E.visit x b b = E.next x b := Function.update_self b _ x

theorem visit_other {c : ι} (hne : c ≠ b) : E.visit x b c = x c :=
  Function.update_of_ne hne _ x

end Visit

variable [Preorder L] [Preorder M]

/-- No equation gives more than its node has. -/
def Above (E : Equations ι L M) (x : ι → L) : Prop := ∀ b, E.next x b ≤ x b

/-- Monotone equations, in which a node depends only on the nodes that have it
as a predecessor. -/
structure Lawful (E : Equations ι L M) : Prop where
  visible_mono : ∀ l l', l ≤ l' → E.visible l ≤ E.visible l'
  transfer_mono : ∀ b m m', (∀ c, m c ≤ m' c) → E.transfer b m ≤ E.transfer b m'
  depends : ∀ b m m', (∀ c, b ∈ E.preds c → m' c ≤ m c) →
    E.transfer b m' ≤ E.transfer b m

/-- The nodes that are not in the list have what their equations give. -/
structure Inv (E : Equations ι L M) (x : ι → L) (worklist : List ι) : Prop where
  below : ∀ b, x b ≤ E.next x b
  least : ∀ z, E.Above z → ∀ b, x b ≤ z b
  stable : ∀ b, b ∉ worklist → E.next x b ≤ x b

variable {E : Equations ι L M} {x : ι → L} {b : ι} {worklist : List ι}

omit [Preorder M] in
theorem inv_start (hbot : ∀ b l, x b ≤ l) (hall : ∀ b, b ∈ worklist) :
    E.Inv x worklist :=
  ⟨fun b => hbot b _, fun z _ b => hbot b (z b), fun b hb => absurd (hall b) hb⟩

omit [Preorder M] in
/-- When no node is left, the values are the least solution. -/
theorem Inv.solution (h : E.Inv x []) :
    (∀ b, x b ≤ E.next x b ∧ E.next x b ≤ x b) ∧
      ∀ z, E.Above z → ∀ b, x b ≤ z b :=
  ⟨fun b => ⟨h.below b, h.stable b List.not_mem_nil⟩, h.least⟩

theorem Lawful.next_mono (hE : E.Lawful) {y : ι → L} (hle : ∀ c, x c ≤ y c) (b : ι) :
    E.next x b ≤ E.next y b :=
  hE.transfer_mono b _ _ fun c => hE.visible_mono _ _ (hle c)

variable [DecidableEq ι]

omit [Preorder M] in
theorem Inv.le_visit (h : E.Inv x worklist) (c : ι) : x c ≤ E.visit x b c := by
  by_cases hc : c = b
  · rw [hc, visit_same]
    exact h.below b
  · rw [visit_other hc]

theorem Inv.visit_le (hE : E.Lawful) (h : E.Inv x worklist) {z : ι → L}
    (hz : E.Above z) (c : ι) : E.visit x b c ≤ z c := by
  by_cases hc : c = b
  · rw [hc, visit_same]
    exact (hE.next_mono (h.least z hz) b).trans (hz b)
  · rw [visit_other hc]
    exact h.least z hz c

theorem Inv.visit_below (hE : E.Lawful) (h : E.Inv x worklist) (c : ι) :
    E.visit x b c ≤ E.next (E.visit x b) c := by
  have hmono := hE.next_mono (h.le_visit (b := b)) c
  by_cases hc : c = b
  · rw [hc, visit_same]
    exact hc ▸ hmono
  · rw [visit_other hc]
    exact (h.below c).trans hmono

/-- A visit after which other nodes see the same. -/
theorem Inv.unchanged (hE : E.Lawful) (h : E.Inv x (b :: worklist))
    (hle : E.visible (E.next x b) ≤ E.visible (x b)) :
    E.Inv (E.visit x b) worklist := by
  have hback : ∀ c, E.next (E.visit x b) c ≤ E.next x c := by
    intro c
    apply hE.transfer_mono
    intro d
    by_cases hd : d = b
    · rw [hd, visit_same]
      exact hle
    · rw [visit_other hd]
  refine ⟨h.visit_below hE, fun z hz => h.visit_le hE hz, ?_⟩
  intro c hc
  by_cases hcb : c = b
  · rw [hcb, visit_same]
    exact hback b
  · rw [visit_other hcb]
    exact (hback c).trans (h.stable c (List.not_mem_cons_of_ne_of_not_mem hcb hc))

/-- A visit after which the predecessors are to be visited again. -/
theorem Inv.changed (hE : E.Lawful) (h : E.Inv x (b :: worklist)) :
    E.Inv (E.visit x b) (E.preds b ++ worklist) := by
  refine ⟨h.visit_below hE, fun z hz => h.visit_le hE hz, ?_⟩
  intro c hc
  rw [List.mem_append, not_or] at hc
  have hback : E.next (E.visit x b) c ≤ E.next x c := by
    apply hE.depends
    intro d hd
    have hne : d ≠ b := fun heq => hc.1 (heq ▸ hd)
    rw [visit_other hne]
  by_cases hcb : c = b
  · subst hcb
    rw [visit_same]
    exact hback
  · rw [visit_other hcb]
    exact hback.trans (h.stable c (List.not_mem_cons_of_ne_of_not_mem hcb hc.2))

/-! ### Termination -/

section Rank

variable [Fintype ι]

/-- How far the values are from those of `z`. -/
def gap (E : Equations ι L M) (rank : M → Nat) (z x : ι → L) : Nat :=
  ∑ b, (rank (E.visible (z b)) - rank (E.visible (x b)))

variable {rank : M → Nat} {z : ι → L}

theorem gap_visit_le (hE : E.Lawful) (hmono : ∀ m m' : M, m ≤ m' → rank m ≤ rank m')
    (h : E.Inv x worklist) : E.gap rank z (E.visit x b) ≤ E.gap rank z x := by
  apply Finset.sum_le_sum
  intro c _
  have hle := hmono _ _ (hE.visible_mono _ _ (h.le_visit (b := b) c))
  omega

theorem gap_visit_lt (hE : E.Lawful) (hmono : ∀ m m' : M, m ≤ m' → rank m ≤ rank m')
    (hstrict : ∀ m m' : M, m ≤ m' → ¬ m' ≤ m → rank m < rank m') (hz : E.Above z)
    (h : E.Inv x worklist) (hchanged : ¬ E.visible (E.next x b) ≤ E.visible (x b)) :
    E.gap rank z (E.visit x b) < E.gap rank z x := by
  apply Finset.sum_lt_sum
  · intro c _
    have hle := hmono _ _ (hE.visible_mono _ _ (h.le_visit (b := b) c))
    omega
  · refine ⟨b, Finset.mem_univ b, ?_⟩
    have hlt := hstrict _ _ (hE.visible_mono _ _ (h.below b)) hchanged
    have hle := hmono _ _ (hE.visible_mono _ _ (h.visit_le (b := b) hE hz b))
    rw [visit_same] at hle ⊢
    omega

/-- Induction over the visits of a worklist: the list becomes empty when some
values satisfy the equations and a strictly larger value has a larger rank. -/
theorem Inv.induction (P : (ι → L) → List ι → Prop) (hE : E.Lawful)
    (hmono : ∀ m m' : M, m ≤ m' → rank m ≤ rank m')
    (hstrict : ∀ m m' : M, m ≤ m' → ¬ m' ≤ m → rank m < rank m') (hz : E.Above z)
    (hnil : ∀ x, E.Inv x [] → P x [])
    (hunchanged : ∀ x b worklist, E.Inv x (b :: worklist) →
      E.visible (E.next x b) ≤ E.visible (x b) →
      P (E.visit x b) worklist → P x (b :: worklist))
    (hchanged : ∀ x b worklist, E.Inv x (b :: worklist) →
      ¬ E.visible (E.next x b) ≤ E.visible (x b) →
      P (E.visit x b) (E.preds b ++ worklist) → P x (b :: worklist))
    (x : ι → L) (worklist : List ι) (h : E.Inv x worklist) : P x worklist := by
  -- over the gap first, and over the length of the list where it stays
  induction hgap : E.gap rank z x using Nat.strong_induction_on generalizing x worklist with
  | _ n ih =>
    have hlower : ∀ x' worklist', E.gap rank z x' < n → E.Inv x' worklist' →
        P x' worklist' := fun x' worklist' hlt hinv =>
      ih _ hlt x' worklist' hinv rfl
    clear ih
    replace hgap : E.gap rank z x ≤ n := hgap.le
    induction worklist generalizing x with
    | nil => exact hnil x h
    | cons b worklist ih =>
      by_cases hle : E.visible (E.next x b) ≤ E.visible (x b)
      · apply hunchanged x b worklist h hle
        exact ih _ (h.unchanged hE hle) ((gap_visit_le hE hmono h).trans hgap)
      · apply hchanged x b worklist h hle
        have hlt := gap_visit_lt (z := z) hE hmono hstrict hz h hle
        exact hlower _ _ (hlt.trans_le hgap) (h.changed hE)

end Rank

end Equations

end SmlSharp
