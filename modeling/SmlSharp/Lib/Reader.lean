/-
Functional streams: a reader takes one item from a position and leaves the next
position.  What can be read from a position is determined by it, so that two texts
read from there are comparable.
-/
import Mathlib.Data.List.Basic

namespace SmlSharp

universe u v

/-- The first item at a position and the position behind it. -/
abbrev Reader (α : Type u) (σ : Type v) := σ → Option (α × σ)

variable {α : Type u} {σ : Type v} {getc : Reader α σ} {s s' s'' t t' : σ} {w w' : List α}

/-- The text is read from the first position on and ends at the second one. -/
inductive Reads (getc : Reader α σ) : σ → List α → σ → Prop where
  | nil (s : σ) : Reads getc s [] s
  | cons {s s' t : σ} {c : α} {w : List α} (head : getc s = some (c, s'))
      (tail : Reads getc s' w t) : Reads getc s (c :: w) t

namespace Reads

theorem one {c : α} (h : getc s = some (c, s')) : Reads getc s [c] s' :=
  .cons h (.nil s')

theorem append (h : Reads getc s w t) (h' : Reads getc t w' t') :
    Reads getc s (w ++ w') t' := by
  induction h with
  | nil s => exact h'
  | cons head tail ih => exact .cons head (ih h')

theorem nil_iff : Reads getc s [] t ↔ s = t := by
  constructor
  · intro h
    cases h
    rfl
  · rintro rfl
    exact .nil s

theorem cons_iff {c : α} :
    Reads getc s (c :: w) t ↔ ∃ s', getc s = some (c, s') ∧ Reads getc s' w t := by
  constructor
  · intro h
    cases h with
    | cons head tail => exact ⟨_, head, tail⟩
  · rintro ⟨s', head, tail⟩
    exact .cons head tail

theorem append_iff : Reads getc s (w ++ w') t ↔
    ∃ m, Reads getc s w m ∧ Reads getc m w' t := by
  induction w generalizing s with
  | nil => simp [nil_iff]
  | cons c w ih =>
    simp only [List.cons_append, cons_iff, ih]
    constructor
    · rintro ⟨s', head, m, hw, hw'⟩
      exact ⟨m, ⟨s', head, hw⟩, hw'⟩
    · rintro ⟨m, ⟨s', head, hw⟩, hw'⟩
      exact ⟨s', head, m, hw, hw'⟩

theorem unique (h : Reads getc s w t) (h' : Reads getc s w t') : t = t' := by
  induction h with
  | nil s => exact nil_iff.mp h'
  | cons head tail ih =>
    obtain ⟨s', head', tail'⟩ := cons_iff.mp h'
    cases head.symm.trans head'
    exact ih tail'

/-- The shorter one of two texts read from a position is the beginning of the other. -/
theorem comparable (h : Reads getc s w t) (h' : Reads getc s w' t')
    (hlen : w.length ≤ w'.length) : ∃ v, w' = w ++ v ∧ Reads getc t v t' := by
  induction h generalizing w' with
  | nil s => exact ⟨w', rfl, h'⟩
  | cons head tail ih =>
    cases h' with
    | nil => simp at hlen
    | cons head' tail' =>
      cases head.symm.trans head'
      obtain ⟨v, rfl, hv⟩ := ih tail' (by simpa using hlen)
      exact ⟨v, rfl, hv⟩

theorem joinable (h : Reads getc s w t) (h' : Reads getc s w' t') :
    ∃ z z', w ++ z = w' ++ z' := by
  rcases Nat.le_total w.length w'.length with hle | hle
  · obtain ⟨z, rfl, -⟩ := h.comparable h' hle
    exact ⟨z, [], by simp⟩
  · obtain ⟨z, rfl, -⟩ := h'.comparable h hle
    exact ⟨[], z, by simp⟩

end Reads

/-- The longest text of a kind that can be read from a position. -/
structure Longest (getc : Reader α σ) (kind : List α → Prop) (s : σ) (w : List α) (t : σ) :
    Prop where
  reads : Reads getc s w t
  isKind : kind w
  max : ∀ w' t', Reads getc s w' t' → kind w' → w'.length ≤ w.length

theorem Longest.unique {kind : List α → Prop} (h : Longest getc kind s w t)
    (h' : Longest getc kind s w' t') : w = w' ∧ t = t' := by
  have hle := h'.max w t h.reads h.isKind
  have hge := h.max w' t' h'.reads h'.isKind
  obtain ⟨v, rfl, hv⟩ := h.reads.comparable h'.reads hle
  have hnil : v = [] := by
    rw [List.length_append] at hge
    exact List.length_eq_zero_iff.mp (by omega)
  subst hnil
  exact ⟨(List.append_nil w).symm, Reads.nil_iff.mp hv⟩

end SmlSharp
