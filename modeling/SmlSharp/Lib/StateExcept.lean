/-
Inversion of stateful computations that may fail.
-/
import Mathlib.Logic.Basic

namespace SmlSharp

variable {σ ε α β : Type}

theorem stateT_bind_ok {x : StateT σ (Except ε) α} {f : α → StateT σ (Except ε) β}
    {state : σ} {result : β × σ} : (x >>= f) state = .ok result ↔
      ∃ value middle, x state = .ok (value, middle) ∧ f value middle = .ok result := by
  change (x state >>= fun pair => f pair.1 pair.2) = _ ↔ _
  cases x state with
  | error e => simp [bind, Except.bind]
  | ok pair =>
    obtain ⟨value, middle⟩ := pair
    constructor
    · intro hrun
      exact ⟨value, middle, rfl, hrun⟩
    · rintro ⟨_, _, ⟨⟩, hrun⟩
      exact hrun

theorem stateT_pure_ok {value : α} {state : σ} {result : α × σ} :
    (pure value : StateT σ (Except ε) α) state = .ok result ↔ (value, state) = result := by
  change Except.ok (value, state) = _ ↔ _
  simp

theorem stateT_get_ok {state : σ} {result : σ × σ} :
    (get : StateT σ (Except ε) σ) state = .ok result ↔ (state, state) = result := by
  change Except.ok (state, state) = _ ↔ _
  simp

theorem stateT_modify_ok {f : σ → σ} {state : σ} {result : PUnit × σ} :
    (modify f : StateT σ (Except ε) PUnit) state = .ok result ↔ (⟨⟩, f state) = result := by
  change Except.ok (PUnit.unit, f state) = _ ↔ _
  simp

theorem stateT_throw_ok {error : ε} {state : σ} {result : α × σ} :
    ¬ (throw error : StateT σ (Except ε) α) state = .ok result := by
  change ¬ Except.error error = _
  simp

theorem stateT_lift_ok {x : Except ε α} {state : σ} {result : α × σ} :
    (liftM x : StateT σ (Except ε) α) state = .ok result ↔
      ∃ value, x = .ok value ∧ (value, state) = result := by
  cases x with
  | error e =>
    change Except.error e = _ ↔ _
    simp
  | ok value =>
    change Except.ok (value, state) = _ ↔ _
    simp

theorem stateT_liftBind_ok {x : Except ε α} {f : α → StateT σ (Except ε) β} {state : σ}
    {result : β × σ} :
    ((liftM x : StateT σ (Except ε) α) >>= f) state = .ok result ↔
      ∃ value, x = .ok value ∧ f value state = .ok result := by
  rw [stateT_bind_ok]
  constructor
  · rintro ⟨value, middle, hx, hf⟩
    obtain ⟨value', hvalue, heq⟩ := stateT_lift_ok.1 hx
    cases heq
    exact ⟨value, hvalue, hf⟩
  · rintro ⟨value, hvalue, hf⟩
    exact ⟨value, state, stateT_lift_ok.2 ⟨value, hvalue, rfl⟩, hf⟩

/-- From this state the computation fails with one of the errors, or it returns a
value of this kind and leaves the state. -/
def Keeps (errors : ε → Prop) (x : StateT σ (Except ε) α) (state : σ) (post : α → Prop) : Prop :=
  (∃ error, errors error ∧ x state = .error error) ∨
    ∃ value, post value ∧ x state = .ok (value, state)

namespace Keeps

variable {errors : ε → Prop} {x : StateT σ (Except ε) α} {f : α → StateT σ (Except ε) β}
  {state : σ} {post : α → Prop} {post' : β → Prop}

theorem pure {value : α} (hpost : post value) :
    Keeps errors (pure value : StateT σ (Except ε) α) state post :=
  Or.inr ⟨value, hpost, rfl⟩

theorem throw {error : ε} (herror : errors error) :
    Keeps errors (throw error : StateT σ (Except ε) α) state post :=
  Or.inl ⟨error, herror, rfl⟩

theorem bind (hx : Keeps errors x state post)
    (hf : ∀ value, post value → Keeps errors (f value) state post') :
    Keeps errors (x >>= f) state post' := by
  have hrun : (x >>= f) state = (x state >>= fun pair => f pair.1 pair.2) := rfl
  rcases hx with ⟨error, herror, hfail⟩ | ⟨value, hpost, hok⟩
  · refine Or.inl ⟨error, herror, ?_⟩
    rw [hrun, hfail]
    rfl
  · rcases hf value hpost with ⟨error, herror, hfail⟩ | ⟨result, hpost', hok'⟩
    · refine Or.inl ⟨error, herror, ?_⟩
      rw [hrun, hok]
      exact hfail
    · refine Or.inr ⟨result, hpost', ?_⟩
      rw [hrun, hok]
      exact hok'

theorem mono (hx : Keeps errors x state post) {post' : α → Prop}
    (himp : ∀ value, post value → post' value) : Keeps errors x state post' := by
  rcases hx with hfail | ⟨value, hpost, hok⟩
  · exact Or.inl hfail
  · exact Or.inr ⟨value, himp value hpost, hok⟩

end Keeps

end SmlSharp
