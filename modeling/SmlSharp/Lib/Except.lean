/-
Inversion of computations that may fail.
-/
import Mathlib.Data.List.Forall2

namespace SmlSharp

universe u v

variable {ε : Type u} {α β : Type v}

theorem except_bind_ok {x : Except ε α} {f : α → Except ε β} {b : β} :
    (x >>= f) = .ok b ↔ ∃ a, x = .ok a ∧ f a = .ok b := by
  cases x with
  | error e => simp [bind, Except.bind]
  | ok a => simp [bind, Except.bind]

theorem except_bind_error {x : Except ε α} {f : α → Except ε β} {e : ε} :
    (x >>= f) = .error e ↔ x = .error e ∨ ∃ a, x = .ok a ∧ f a = .error e := by
  cases x with
  | error e' => simp [bind, Except.bind]
  | ok a => simp [bind, Except.bind]

theorem except_ok_bind (a : α) (f : α → Except ε β) :
    (Except.ok a >>= f) = f a := rfl

theorem except_pure_ok {a b : α} : (pure a : Except ε α) = .ok b ↔ a = b := by
  simp [pure, Except.pure]

theorem mapM_ok {ε α β : Type} {f : α → Except ε β} {g : α → β} {xs : List α}
    (h : ∀ x ∈ xs, f x = .ok (g x)) : xs.mapM f = .ok (xs.map g) := by
  induction xs with
  | nil => rfl
  | cons x xs ih =>
    obtain ⟨hx, hxs⟩ := List.forall_mem_cons.mp h
    rw [List.mapM_cons, hx, except_ok_bind, ih hxs]
    rfl

/-- What each result has to do with its argument. -/
theorem mapM_forall₂ {ε α β : Type} {f : α → Except ε β} {R : α → β → Prop} {xs : List α}
    (h : ∀ x ∈ xs, ∃ y, f x = .ok y ∧ R x y) :
    ∃ ys, xs.mapM f = .ok ys ∧ List.Forall₂ R xs ys := by
  induction xs with
  | nil => exact ⟨[], rfl, .nil⟩
  | cons x xs ih =>
    obtain ⟨⟨y, hy, hR⟩, hxs⟩ := List.forall_mem_cons.mp h
    obtain ⟨ys, hys, hall⟩ := ih hxs
    refine ⟨y :: ys, ?_, .cons hR hall⟩
    rw [List.mapM_cons, hy, except_ok_bind, hys]
    rfl

/-- The computation succeeds with a result that passes the check. -/
def okAnd {ε α : Type} (x : Except ε α) (check : α → Bool) : Bool :=
  match x with
  | .ok a => check a
  | .error _ => false

theorem okAnd_iff {ε α : Type} {x : Except ε α} {check : α → Bool} :
    okAnd x check = true ↔ ∃ a, x = .ok a ∧ check a = true := by
  cases x <;> simp [okAnd]

/-- Every error that the computation can end with has the property. -/
def FailsOnly {ε α : Type} (p : ε → Prop) (x : Except ε α) : Prop :=
  ∀ e, x = .error e → p e

section FailsOnly

variable {ε α β : Type} {p : ε → Prop}

theorem FailsOnly.ok (a : α) : FailsOnly p (.ok a) := nofun

theorem FailsOnly.of_ok {x : Except ε α} {a : α} (h : x = .ok a) :
    FailsOnly p x := h ▸ .ok a

theorem FailsOnly.bind {x : Except ε α} {f : α → Except ε β}
    (hx : FailsOnly p x) (hf : ∀ a, x = .ok a → FailsOnly p (f a)) :
    FailsOnly p (x >>= f) := by
  intro e he
  rcases except_bind_error.mp he with herror | ⟨a, ha, herror⟩
  · exact hx e herror
  · exact hf a ha e herror

theorem FailsOnly.mapM {f : α → Except ε β} {xs : List α}
    (h : ∀ x ∈ xs, FailsOnly p (f x)) : FailsOnly p (xs.mapM f) := by
  induction xs with
  | nil => exact .ok []
  | cons x xs ih =>
    obtain ⟨hx, hxs⟩ := List.forall_mem_cons.mp h
    rw [List.mapM_cons]
    exact hx.bind fun _ _ => (ih hxs).bind fun _ _ => .ok _

end FailsOnly

end SmlSharp
