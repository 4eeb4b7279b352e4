/-
Searching for the first occurrence of a list in another one, and the rolling hash
of a window over an arbitrary commutative ring.
-/
import Mathlib.Data.List.Basic
import Mathlib.Tactic.Ring

namespace SmlSharp

namespace RollingHash

universe u

section Occurrences

variable {α : Type u} {pattern text : List α} {i : Nat}

/-- The pattern stands at an index of the text. -/
def OccursAt (pattern text : List α) (i : Nat) : Prop :=
  i + pattern.length ≤ text.length ∧ (text.drop i).take pattern.length = pattern

instance [DecidableEq α] : Decidable (OccursAt pattern text i) :=
  inferInstanceAs (Decidable (_ ∧ _))

/-- The least index at which the pattern stands. -/
def FirstAt (pattern text : List α) (i : Nat) : Prop :=
  OccursAt pattern text i ∧ ∀ k < i, ¬ OccursAt pattern text k

theorem not_occursAt_of_length (h : text.length < pattern.length) :
    ¬ OccursAt pattern text i := by
  rintro ⟨hle, -⟩
  omega

end Occurrences

section Hash

variable {R : Type u} [CommRing R] (base : R)

/-- The polynomial hash, the first character with the highest power. -/
def hashFrom (hash : R) (window : List R) : R :=
  window.foldl (fun hash ch => hash * base + ch) hash

def hash (window : List R) : R :=
  hashFrom base 0 window

@[simp] theorem hashFrom_nil (h : R) : hashFrom base h [] = h := rfl

@[simp] theorem hashFrom_cons (h ch : R) (window : List R) :
    hashFrom base h (ch :: window) = hashFrom base (h * base + ch) window := rfl

theorem hashFrom_append (h : R) (front back : List R) :
    hashFrom base h (front ++ back) = hashFrom base (hashFrom base h front) back :=
  List.foldl_append

theorem hashFrom_eq (h : R) (window : List R) :
    hashFrom base h window = h * base ^ window.length + hash base window := by
  induction window generalizing h with
  | nil => simp [hash]
  | cons ch window ih =>
    rw [hash, hashFrom_cons, hashFrom_cons, ih, ih (0 * base + ch), List.length_cons]
    ring

/-- Rolling the window on by one character: the hash of the new window from the hash
of the old one, the character that leaves it and the one that enters it. -/
theorem hash_roll (del add : R) (window : List R) :
    hash base (window ++ [add]) =
      hash base (del :: window) * base + add - del * base ^ (window.length + 1) := by
  rw [hash, hashFrom_append, hash, hashFrom_cons, hashFrom_cons, hashFrom_nil,
    hashFrom_eq base (0 * base + del) window, hash]
  ring

end Hash

end RollingHash

end SmlSharp
