/-
Computations that may fail and that are cut off by a bound on their recursion:
the result that they have from some bound on.
-/
import SmlSharp.Lib.Except

namespace SmlSharp

universe u v w

variable {ε : Type u} {α β : Type v} {γ : Type w}

/-- From some bound on, the computation gives the result. -/
def Converges (f : Nat → Except ε α) (a : α) : Prop :=
  ∃ enough, ∀ fuel, enough ≤ fuel → f fuel = .ok a

theorem Converges.pure {f : Nat → Except ε α} {a : α} (h : ∀ fuel, f fuel = .ok a) :
    Converges f a := ⟨0, fun fuel _ => h fuel⟩

theorem Converges.bind {f : Nat → Except ε α} {g : Nat → α → Except ε β} {a : α} {b : β}
    (hf : Converges f a) (hg : Converges (fun fuel => g fuel a) b) :
    Converges (fun fuel => f fuel >>= g fuel) b := by
  obtain ⟨enough, hf⟩ := hf
  obtain ⟨enough', hg⟩ := hg
  refine ⟨max enough enough', fun fuel hfuel => ?_⟩
  change f fuel >>= g fuel = _
  rw [hf fuel (Nat.le_trans (Nat.le_max_left _ _) hfuel), except_ok_bind]
  exact hg fuel (Nat.le_trans (Nat.le_max_right _ _) hfuel)

theorem Converges.map {f : Nat → Except ε α} {a : α} (hf : Converges f a) (g : α → β) :
    Converges (fun fuel => f fuel >>= fun a => Pure.pure (g a)) (g a) :=
  hf.bind (Converges.pure fun _ => rfl)

/-- A call of a recursive function takes one unit of the bound. -/
theorem Converges.call {f : Nat → Except ε α} {g : Nat → Except ε α} {a : α}
    (hg : Converges g a) (h : ∀ fuel, f (fuel + 1) = g fuel) : Converges f a := by
  obtain ⟨enough, hg⟩ := hg
  refine ⟨enough + 1, fun fuel hfuel => ?_⟩
  obtain ⟨fuel, rfl⟩ := Nat.exists_eq_add_of_le' (Nat.le_of_add_left_le hfuel)
  rw [h]
  exact hg fuel (Nat.le_of_add_le_add_right hfuel)

theorem Converges.congr {f g : Nat → Except ε α} {a : α} (hg : Converges g a)
    (h : ∀ fuel, f fuel = g fuel) : Converges f a := by
  obtain ⟨enough, hg⟩ := hg
  exact ⟨enough, fun fuel hfuel => (h fuel).trans (hg fuel hfuel)⟩

/-! ### Ending -/

/-- From some bound on, the computation has a result. -/
def Ends (f : Nat → Except ε α) : Prop := ∃ a, Converges f a

namespace Ends

theorem pure {f : Nat → Except ε α} {a : α} (h : ∀ fuel, f fuel = .ok a) : Ends f :=
  ⟨a, Converges.pure h⟩

theorem bind {f : Nat → Except ε α} {g : Nat → α → Except ε β} (hf : Ends f)
    (hg : ∀ a, Ends fun fuel => g fuel a) : Ends fun fuel => f fuel >>= g fuel := by
  obtain ⟨a, hf⟩ := hf
  obtain ⟨b, hg⟩ := hg a
  exact ⟨b, hf.bind hg⟩

theorem map {f : Nat → Except ε α} (hf : Ends f) (g : α → β) :
    Ends fun fuel => f fuel >>= fun a => Pure.pure (g a) :=
  hf.bind fun _ => Ends.pure fun _ => rfl

theorem call {f g : Nat → Except ε α} (hg : Ends g) (h : ∀ fuel, f (fuel + 1) = g fuel) :
    Ends f := by
  obtain ⟨a, hg⟩ := hg
  exact ⟨a, hg.call h⟩

/-- The call is one of `g` from some bound on only. -/
theorem callFrom {f g : Nat → Except ε α} (hg : Ends g) (start : Nat)
    (h : ∀ fuel, start ≤ fuel → f (fuel + 1) = g fuel) : Ends f := by
  obtain ⟨a, enough, hg⟩ := hg
  refine ⟨a, max enough start + 1, fun fuel hfuel => ?_⟩
  obtain ⟨fuel, rfl⟩ := Nat.exists_eq_add_of_le' (Nat.le_of_add_left_le hfuel)
  have hmax := Nat.le_of_add_le_add_right hfuel
  rw [h fuel (Nat.le_trans (Nat.le_max_right _ _) hmax)]
  exact hg fuel (Nat.le_trans (Nat.le_max_left _ _) hmax)

theorem mapM {f : Nat → γ → Except ε β} {xs : List γ}
    (h : ∀ x ∈ xs, Ends fun fuel => f fuel x) : Ends fun fuel => xs.mapM (f fuel) := by
  induction xs with
  | nil => exact Ends.pure fun _ => List.mapM_nil
  | cons x xs ih =>
    have hrest := ih fun y hy => h y (List.mem_cons_of_mem x hy)
    have hbind := (h x List.mem_cons_self).bind fun b => hrest.map fun bs => b :: bs
    simpa only [List.mapM_cons] using hbind

end Ends

end SmlSharp
