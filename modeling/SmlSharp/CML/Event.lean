/-
Events and the processes that synchronize on them.
-/
import SmlSharp.Lib.ThreadPool
import SmlSharp.Lib.WriteOnce
import SmlSharp.CML.Couple

namespace SmlSharp.CML

class Values (α : Type) where
  unit : α

mutual

/-- An event before it is given its path.  The argument of a `withNack` function is
`nackEvent (pass, id)`, of which it gets `pass` and `id`. -/
inductive Event (α : Type) where
  | sendEvt (ch : Nat) (v : α)
  | recvEvt (ch : Nat)
  | alwaysEvt (x : α)
  | never
  | nackEvent (pass self : Nat)
  | guard (f : Proc α)
  | wrap (event : Event α) (f : α → Proc α)
  | withNack (f : Nat → Nat → Proc α)
  | choose (events : List (Event α))

/-- What a thread of the program or a function of an event does.  The continuation of
`sync` gets `none` when `sync` raises an exception. -/
inductive Proc (α : Type) where
  | value (x : α)
  | event (e : Event α)
  | raise
  | sync (event : Event α) (next : Option α → Proc α)
  | channel (next : Nat → Proc α)
  | spawn (f next : Proc α)

end

/-- An event that was given its path and waits for a gate.  The events of `choose` are
those it was made from, which no step reads. -/
inductive Ready (α : Type) where
  | sendEvt (ch : Nat) (v : α)
  | recvEvt (ch : Nat)
  | alwaysEvt (x : α)
  | never
  | nackEvent (pass self : Nat)
  | future (f : Nat)
  | wrap (e : Ready α) (f : α → Proc α)
  | withNack (f pass : Nat) (ids : List Nat)
  | choose (made : List (Event α)) (events : List (Ready α))

/-- An attempt at a base event: the number of the left call for `sendEvt`, which is
that of its pipe, and the pipe and the number of the right call for `recvEvt`. -/
inductive Attempt (α : Type) where
  | send (c : Nat)
  | recv (c call : Nat)
  | always (x : α)
  | nack (pass self : Nat)

/-- Who called `left` on a channel: the thread, and the gate and the value it has. -/
structure Sender (α : Type) where
  thread : Nat
  gate : Nat
  value : α

structure Receiver where
  thread : Nat
  gate : Nat

/-- A call of `sync`: its event and its thread. -/
structure Synced (α : Type) where
  event : Event α
  thread : Nat

/-- The variable of a `choose`: the gate and the events it was made for. -/
structure Chosen (α : Type) where
  gate : Nat
  events : List (Event α)

/-- The future of a `guard` or `withNack`: the function that computes its event and
the pass of the path. -/
structure Guarded (α : Type) where
  f : Proc α
  pass : Nat

structure Returned (α : Type) where
  sync : Nat
  value : α

/-- What the threads share.  A gate is open as long as its cell is empty; the attempt
that closed it is only recorded, and so are the descriptions of the cells and what the
calls of `sync` returned.  The cell of a `sync` is the variable `pass`. -/
structure Shared (α : Type) where
  chans : Couple.Store Nat Unit (Sender α) Receiver
  pipes : Couple.Store (Option α) Bool Unit Nat
  nextPipe : Nat
  nextChan : Nat
  nextId : Nat
  gates : Cells Nat (Attempt α)
  syncs : Cells (Synced α) (List Nat)
  rets : Cells (Chosen α) (Option α)
  futures : Cells (Guarded α) (Ready α)
  returned : List (Returned α)

/-- What awaits the result of a computation. -/
inductive Frame (α : Type) where
  /-- `Option.map f []` in `wrap` -/
  | map (f : α → Proc α)
  /-- `SOME []` in `Option.map` -/
  | some
  /-- `case [] of NONE => NONE | x => (Ivar.set (pass, ids); x)` in `withNack` -/
  | pass (pass : Nat) (ids : List Nat)
  /-- `Ivar.set (ret, [])` in `choose` -/
  | ret (ret : Nat)
  /-- `loop ev` in `sync` -/
  | loop (ev : Ready α) (pass : Nat) (next : Option α → Proc α)
  /-- `Future.spawn (fn () => ([] handle _ => never) path)` -/
  | future (f pass : Nat) (ids : List Nat)

/-- Where a thread stands.  `owed` is what `Couple.left` or `Couple.right` still has to
write into the variable `d` that it returns; `call` is the number of the call. -/
inductive Control (α : Type) where
  | proc (p : Proc α)
  | eval (e : Ready α) (gate : Nat)
  | value (res : Option α)
  | raise
  | halt
  | prepared (e : Ready α)
  | choosing (ret : Nat)
  | sendPaired (call d : Nat) (owed : Option (Nat × Unit)) (v : α) (gate : Nat)
  | sendGate (c : Nat) (v : α) (gate : Nat)
  | sendNone (c : Nat)
  | sendSome (c : Nat) (v : α) (gate : Nat)
  | sendKill (d : Nat) (owed : Option (Option α × Bool))
  | sendSettle (c call d : Nat) (owed : Option (Option α × Bool)) (v : α) (gate : Nat)
  | recvPaired (call d : Nat) (owed : Option (Nat × Unit)) (gate : Nat)
  | recvGate (c call gate : Nat)
  | recvFalse (c call : Nat)
  | recvTrue (c call gate : Nat)
  | recvKill (d : Nat) (owed : Option (Option α × Bool))
  | recvSettle (c call k d : Nat) (owed : Option (Option α × Bool)) (gate : Nat)
  | nackGate (pass self gate : Nat)

structure Thread (α : Type) where
  control : Control α
  stack : List (Frame α)

variable {α : Type}

/-- `choose nil = never`, `choose [event] = event` -/
def Ready.ofChoose (made : List (Event α)) : List (Ready α) → Ready α
  | [] => .never
  | [e] => e
  | events => .choose made events

mutual

/-- `event (pass, ids)`: the event, the shared data and the threads it spawned. -/
def Event.apply (pass : Nat) (ids : List Nat) :
    Event α → Shared α → Ready α × Shared α × List (Thread α)
  | .sendEvt ch v, m => (.sendEvt ch v, m, [])
  | .recvEvt ch, m => (.recvEvt ch, m, [])
  | .alwaysEvt x, m => (.alwaysEvt x, m, [])
  | .never, m => (.never, m, [])
  | .nackEvent p self, m => (.nackEvent p self, m, [])
  | .guard f, m =>
    (.future m.futures.length, { m with futures := m.futures.create ⟨f, pass⟩ },
      [⟨.proc f, [.future m.futures.length pass ids]⟩])
  | .wrap event f, m =>
    let (e, m, spawned) := event.apply pass ids m
    (.wrap e f, m, spawned)
  | .withNack f, m =>
    let id := m.nextId
    (.withNack m.futures.length pass (id :: ids),
      { m with nextId := id + 1, futures := m.futures.create ⟨f pass id, pass⟩ },
      [⟨.proc (f pass id), [.future m.futures.length pass (id :: ids)]⟩])
  | .choose events, m =>
    let (es, m, spawned) := Event.applyAll pass ids events m
    (Ready.ofChoose events es, m, spawned)

/-- `map (fn e => e path) events` -/
def Event.applyAll (pass : Nat) (ids : List Nat) :
    List (Event α) → Shared α → List (Ready α) × Shared α × List (Thread α)
  | [], m => ([], m, [])
  | event :: events, m =>
    let (e, m, spawned) := event.apply pass ids m
    let (es, m, spawned') := Event.applyAll pass ids events m
    (e :: es, m, spawned ++ spawned')

end

end SmlSharp.CML
