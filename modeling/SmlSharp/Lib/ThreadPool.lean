/-
Pools of threads over a shared memory: the threads take their steps in any order,
and a step may create threads.  A property of the memory and of each thread holds
in every run when a step keeps the properties of the thread that takes it and
changes the memory only in a way that the other threads tolerate.
-/
import Mathlib.Logic.Relation

namespace SmlSharp

universe u v

structure ThreadPool (σ : Type u) (τ : Type v) where
  shared : σ
  threads : List τ

namespace ThreadPool

variable {σ : Type u} {τ : Type v}

/-- What the thread of a number does to the memory: the memory and the thread after
the step, and the threads it created. -/
abbrev Act (σ : Type u) (τ : Type v) := Nat → σ → τ → Option (σ × τ × List τ)

/-- A step of the thread of a number. -/
def step (act : Act σ τ) (i : Nat) (pool : ThreadPool σ τ) : Option (ThreadPool σ τ) :=
  (pool.threads[i]?).bind fun thread =>
    (act i pool.shared thread).map fun (shared, thread', created) =>
      ⟨shared, pool.threads.set i thread' ++ created⟩

/-- A run: the threads take steps in some order. -/
def Runs (act : Act σ τ) : ThreadPool σ τ → ThreadPool σ τ → Prop :=
  Relation.ReflTransGen fun pool pool' => ∃ i, step act i pool = some pool'

theorem step_eq_some {act : Act σ τ} {i : Nat} {pool pool' : ThreadPool σ τ}
    (h : step act i pool = some pool') :
    ∃ thread thread' created, pool.threads[i]? = some thread ∧
      act i pool.shared thread = some (pool'.shared, thread', created) ∧
      pool'.threads = pool.threads.set i thread' ++ created := by
  rw [step, Option.bind_eq_some_iff] at h
  obtain ⟨thread, hthread, h⟩ := h
  rw [Option.map_eq_some_iff] at h
  obtain ⟨⟨shared, thread', created⟩, hact, rfl⟩ := h
  exact ⟨thread, thread', created, hthread, hact, rfl⟩

/-- The run in which the threads of the numbers take their steps. -/
def runSchedule (act : Act σ τ) : List Nat → ThreadPool σ τ → Option (ThreadPool σ τ)
  | [], pool => some pool
  | i :: schedule, pool => (step act i pool).bind (runSchedule act schedule)

theorem runs_of_runSchedule {act : Act σ τ} {schedule : List Nat}
    {pool pool' : ThreadPool σ τ} (h : runSchedule act schedule pool = some pool') :
    Runs act pool pool' := by
  induction schedule generalizing pool with
  | nil =>
    cases h
    exact .refl
  | cons i schedule ih =>
    rw [runSchedule, Option.bind_eq_some_iff] at h
    obtain ⟨next, hstep, hrest⟩ := h
    exact .head ⟨i, hstep⟩ (ih hrest)

/-- The thread of a number after a step is the one that took it, another one or a
created one. -/
theorem getElem?_set_append {threads created : List τ} {i j : Nat} {thread thread' : τ}
    (h : (threads.set i thread ++ created)[j]? = some thread') :
    (j = i ∧ thread' = thread) ∨ (j ≠ i ∧ threads[j]? = some thread') ∨
      thread' ∈ created := by
  rcases Nat.lt_or_ge j (threads.set i thread).length with hj | hj
  · rw [List.getElem?_append_left hj, List.getElem?_set] at h
    by_cases hij : i = j
    · rw [if_pos hij] at h
      split at h
      · exact .inl ⟨hij.symm, (Option.some.inj h).symm⟩
      · cases h
    · rw [if_neg hij] at h
      exact .inr (.inl ⟨fun heq => hij heq.symm, h⟩)
  · rw [List.getElem?_append_right hj] at h
    exact .inr (.inr (List.mem_of_getElem? h))

section Interference

variable {act : Act σ τ} (Inv : σ → Prop) (Ok : σ → Nat → τ → Prop)
  (Changes : Nat → σ → σ → Prop)

/-- A step keeps the invariant of the memory and the property of its thread, gives
the created threads theirs and changes the memory as it may. -/
def Keeps (act : Act σ τ) : Prop :=
  ∀ ⦃i s thread s' thread' created⦄, Inv s → Ok s i thread →
    act i s thread = some (s', thread', created) →
    Inv s' ∧ Ok s' i thread' ∧ (∀ thread ∈ created, ∀ j, Ok s' j thread) ∧ Changes i s s'

/-- The property of a thread holds whatever the other threads change. -/
def Tolerates : Prop :=
  ∀ ⦃i j s s' thread⦄, j ≠ i → Changes i s s' → Ok s j thread → Ok s' j thread

/-- The invariant of the memory and the properties of all threads. -/
def AllOk (pool : ThreadPool σ τ) : Prop :=
  Inv pool.shared ∧ ∀ i thread, pool.threads[i]? = some thread → Ok pool.shared i thread

variable {Inv Ok Changes}

theorem AllOk.step (hkeeps : Keeps Inv Ok Changes act) (htolerates : Tolerates Ok Changes)
    {i : Nat} {pool pool' : ThreadPool σ τ} (hok : AllOk Inv Ok pool)
    (hstep : ThreadPool.step act i pool = some pool') : AllOk Inv Ok pool' := by
  obtain ⟨thread, thread', created, hthread, hact, hthreads⟩ := step_eq_some hstep
  obtain ⟨hinv, hown, hcreated, hchanges⟩ := hkeeps hok.1 (hok.2 i thread hthread) hact
  refine ⟨hinv, ?_⟩
  intro j other hother
  rw [hthreads] at hother
  rcases getElem?_set_append hother with ⟨rfl, rfl⟩ | ⟨hne, hold⟩ | hmem
  · exact hown
  · exact htolerates hne hchanges (hok.2 j other hold)
  · exact hcreated other hmem j

/-- The rule of interference. -/
theorem AllOk.runs (hkeeps : Keeps Inv Ok Changes act) (htolerates : Tolerates Ok Changes)
    {pool pool' : ThreadPool σ τ} (hok : AllOk Inv Ok pool)
    (hruns : Runs act pool pool') : AllOk Inv Ok pool' := by
  induction hruns with
  | refl => exact hok
  | tail _ hstep ih =>
    obtain ⟨i, hstep⟩ := hstep
    exact AllOk.step hkeeps htolerates ih hstep

end Interference

end ThreadPool

end SmlSharp
