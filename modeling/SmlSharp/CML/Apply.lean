/-
An event that is given its path spawns the threads of its guards.
-/
import SmlSharp.CML.Operations

namespace SmlSharp.CML


variable {α : Type} [Values α] {m m' m'' : Shared α} {i pass : Nat}
  {spawned spawned' : List (Thread α)}

/-- What the application of events to a path with the pass has done. -/
structure Applied (i pass : Nat) (m m' : Shared α) (spawned : List (Thread α)) : Prop where
  ok : m'.Ok
  changes : Changes i m m'
  gates : m'.gates = m.gates
  spawned : ∀ thread ∈ spawned, ∃ k f ids, m'.futures.Info k ⟨f, pass⟩ ∧
    thread = ⟨.proc f, [.future k pass ids]⟩

theorem Applied.refl (hok : m.Ok) : Applied i pass m m [] where
  ok := hok
  changes := .refl m
  gates := rfl
  spawned _ h := by cases h

theorem Applied.trans (h : Applied i pass m m' spawned) (h' : Applied i pass m' m'' spawned') :
    Applied i pass m m'' (spawned ++ spawned') where
  ok := h'.ok
  changes := h.changes.trans h'.changes
  gates := h'.gates.trans h.gates
  spawned thread hmem := by
    rcases List.mem_append.mp hmem with hmem | hmem
    · obtain ⟨k, f, ids, hinfo, heq⟩ := h.spawned thread hmem
      exact ⟨k, f, ids, hinfo.mono h'.changes.grows.futures, heq⟩
    · exact h'.spawned thread hmem

/-- A thread that computes the event of a future. -/
theorem future_thread_ok {k : Nat} {f : Proc α} (hinfo : m.futures.Info k ⟨f, pass⟩)
    (ids : List Nat) (j : Nat) :
    Thread.Ok m j ⟨.proc f, [.future k pass ids]⟩ :=
  ⟨rfl, f, hinfo, fun _ hleads => hleads⟩

theorem Applied.thread_ok (h : Applied i pass m m' spawned) {thread : Thread α}
    (hmem : thread ∈ spawned) (j : Nat) : thread.Ok m' j := by
  obtain ⟨k, f, ids, hinfo, rfl⟩ := h.spawned thread hmem
  exact future_thread_ok hinfo ids j

theorem applied_future (hok : m.Ok) (f : Proc α) (nextId : Nat) (ids : List Nat) :
    Applied i pass m
      { m with nextId := nextId, futures := m.futures.create ⟨f, pass⟩ }
      [⟨.proc f, [.future m.futures.length pass ids]⟩] where
  ok := (adds_future (i := i) hok).ok hok
  changes := (adds_future hok).changes
  gates := rfl
  spawned thread hmem := by
    cases List.mem_singleton.mp hmem
    exact ⟨_, f, ids, Cells.info_create _ _, rfl⟩

omit [Values α] in
theorem Prepared.ofChoose {futures : Cells (Guarded α) (Ready α)} {events : List (Event α)}
    {es : List (Ready α)} (hlen : es.length = events.length)
    (h : ∀ (j : Nat) (e : Ready α) (event : Event α),
      es[j]? = some e → events[j]? = some event → Prepared futures pass e event) :
    Prepared futures pass (Ready.ofChoose events es) (.choose events) := by
  match es, events, hlen with
  | [], [], _ => exact .none
  | [e], [event], _ => exact .one (h 0 e event rfl rfl)
  | e :: e' :: es, event :: event' :: events, hlen => exact .choose hlen h

mutual

theorem Event.apply_spec {m : Shared α} (i pass : Nat) (ids : List Nat) (hok : m.Ok) :
    (event : Event α) →
    Applied i pass m (event.apply pass ids m).2.1 (event.apply pass ids m).2.2 ∧
      Prepared (event.apply pass ids m).2.1.futures pass (event.apply pass ids m).1 event
  | .sendEvt ch v => ⟨.refl hok, .sendEvt⟩
  | .recvEvt ch => ⟨.refl hok, .recvEvt⟩
  | .alwaysEvt x => ⟨.refl hok, .alwaysEvt⟩
  | .never => ⟨.refl hok, .never⟩
  | .nackEvent p self => ⟨.refl hok, .nackEvent⟩
  | .guard f => ⟨applied_future hok f m.nextId ids, .guard (Cells.info_create _ _)⟩
  | .wrap event f => by
      obtain ⟨happlied, hprepared⟩ := Event.apply_spec i pass ids hok event
      exact ⟨happlied, .wrap hprepared⟩
  | .withNack f =>
    ⟨applied_future hok (f pass m.nextId) (m.nextId + 1) (m.nextId :: ids),
      .withNack (Cells.info_create _ _)⟩
  | .choose events => by
      obtain ⟨happlied, hlen, hall⟩ := Event.applyAll_spec i pass ids hok events
      exact ⟨happlied, .ofChoose hlen hall⟩

theorem Event.applyAll_spec {m : Shared α} (i pass : Nat) (ids : List Nat) (hok : m.Ok) :
    (events : List (Event α)) →
    Applied i pass m (Event.applyAll pass ids events m).2.1
        (Event.applyAll pass ids events m).2.2 ∧
      (Event.applyAll pass ids events m).1.length = events.length ∧
      ∀ (j : Nat) (e : Ready α) (event : Event α),
        (Event.applyAll pass ids events m).1[j]? = some e → events[j]? = some event →
        Prepared (Event.applyAll pass ids events m).2.1.futures pass e event
  | [] => ⟨.refl hok, rfl, fun j e event h => by simp [Event.applyAll] at h⟩
  | event :: events => by
      obtain ⟨happlied, hprepared⟩ := Event.apply_spec i pass ids hok event
      obtain ⟨happlied', hlen, hall⟩ :=
        Event.applyAll_spec i pass ids happlied.ok events
      refine ⟨happlied.trans happlied', ?_, ?_⟩
      · simp only [Event.applyAll, List.length_cons, hlen]
      · intro j e event' he hevent
        cases j with
        | zero =>
          simp only [Event.applyAll, List.getElem?_cons_zero, Option.some.injEq] at he hevent
          subst he hevent
          exact hprepared.mono happlied'.changes.grows.futures
        | succ j =>
          simp only [Event.applyAll, List.getElem?_cons_succ] at he hevent
          exact hall j e event' he hevent

end

end SmlSharp.CML
