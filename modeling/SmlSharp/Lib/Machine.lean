/-
Machines that take one step at a time until they return a result, and the
rules for their runs.
-/
import Mathlib.Logic.Relation

namespace SmlSharp

namespace Machine

universe u v w x

variable {σ : Type u} {ρ : Type v} {τ : Type w} {π : Type x}

/-- Every step of a terminating machine makes the rank of its state smaller. -/
structure Terminating (step : σ → σ ⊕ ρ) where
  rank : σ → Nat
  rank_lt : ∀ {s s' : σ}, step s = .inl s' → rank s' < rank s

/-- The result that the machine returns from a state. -/
def run {step : σ → σ ⊕ ρ} (term : Terminating step) (s : σ) : ρ :=
  match _hstep : step s with
  | .inl s' => run term s'
  | .inr r => r
termination_by term.rank s
decreasing_by exact term.rank_lt _hstep

/-- A finite number of steps. -/
def Steps (step : σ → σ ⊕ ρ) : σ → σ → Prop :=
  Relation.ReflTransGen fun s s' => step s = .inl s'

section Run

variable {step : σ → σ ⊕ ρ} {term : Terminating step}

theorem run_next {s s' : σ} (hstep : step s = .inl s') :
    run term s = run term s' := by
  rw [run]
  split
  · rename_i next hnext
    obtain rfl : next = s' := Sum.inl.inj (hnext.symm.trans hstep)
    rfl
  · rename_i r hdone
    exact absurd (hdone.symm.trans hstep) (by simp)

theorem run_done {s : σ} {r : ρ} (hstep : step s = .inr r) : run term s = r := by
  rw [run]
  split
  · rename_i next hnext
    exact absurd (hnext.symm.trans hstep) (by simp)
  · rename_i result hdone
    exact Sum.inr.inj (hdone.symm.trans hstep)

theorem run_steps {s s' : σ} (hsteps : Steps step s s') :
    run term s = run term s' := by
  induction hsteps with
  | refl => rfl
  | tail _ hstep ih => exact ih.trans (run_next hstep)

theorem Steps.single {s s' : σ} (hstep : step s = .inl s') : Steps step s s' :=
  Relation.ReflTransGen.single hstep

theorem Steps.head {s s' s'' : σ} (hstep : step s = .inl s')
    (hsteps : Steps step s' s'') : Steps step s s'' :=
  Relation.ReflTransGen.head hstep hsteps

/-- What every step keeps holds where the run ends. -/
theorem run_invariant (term : Terminating step) {Inv : σ → Prop} {Post : ρ → Prop}
    (hstep : ∀ s s', Inv s → step s = .inl s' → Inv s')
    (hdone : ∀ s r, Inv s → step s = .inr r → Post r)
    (s : σ) (hinv : Inv s) : Post (run term s) := by
  induction s using run.induct term with
  | case1 s s' hnext ih =>
    rw [run_next hnext]
    exact ih (hstep s s' hinv hnext)
  | case2 s r hresult =>
    rw [run_done hresult]
    exact hdone s r hinv hresult

/-- Two machines that take their steps together return together. -/
theorem run_simulation {step' : τ → τ ⊕ π} (term : Terminating step)
    (term' : Terminating step') {Sim : σ → τ → Prop} {Post : ρ → π → Prop}
    (hstep : ∀ s t s', Sim s t → step s = .inl s' →
      ∃ t', step' t = .inl t' ∧ Sim s' t')
    (hdone : ∀ s t r, Sim s t → step s = .inr r →
      ∃ r', step' t = .inr r' ∧ Post r r')
    (s : σ) (t : τ) (hsim : Sim s t) : Post (run term s) (run term' t) := by
  induction s using run.induct term generalizing t with
  | case1 s s' hnext ih =>
    obtain ⟨t', hnext', hsim'⟩ := hstep s t s' hsim hnext
    rw [run_next hnext, run_next hnext']
    exact ih t' hsim'
  | case2 s r hresult =>
    obtain ⟨r', hresult', hpost⟩ := hdone s t r hsim hresult
    rw [run_done hresult, run_done hresult']
    exact hpost

end Run

/-- A machine that need not terminate, given a number of steps. -/
def loop (step : σ → σ ⊕ ρ) : Nat → σ → Option ρ
  | 0, _ => none
  | fuel + 1, s =>
    match step s with
    | .inl s' => loop step fuel s'
    | .inr r => some r

section Loop

variable {step : σ → σ ⊕ ρ}

/-- A terminating machine returns within the rank of its first state. -/
theorem loop_run (term : Terminating step) (s : σ) :
    ∃ count ≤ term.rank s, loop step (count + 1) s = some (run term s) := by
  induction s using run.induct term with
  | case1 s s' hnext ih =>
    obtain ⟨count, hcount, hloop⟩ := ih
    have hlt := term.rank_lt hnext
    refine ⟨count + 1, by omega, ?_⟩
    rw [loop, hnext, run_next hnext]
    exact hloop
  | case2 s r hdone =>
    refine ⟨0, Nat.zero_le _, ?_⟩
    rw [loop, hdone, run_done hdone]

/-- A run never comes back to a state. -/
theorem rank_lt_of_steps (term : Terminating step) {s s' : σ}
    (hsteps : Relation.TransGen (fun s s' => step s = .inl s') s s') :
    term.rank s' < term.rank s := by
  induction hsteps with
  | single hstep => exact term.rank_lt hstep
  | tail _ hstep ih => exact Nat.lt_trans (term.rank_lt hstep) ih

end Loop

end Machine

end SmlSharp
