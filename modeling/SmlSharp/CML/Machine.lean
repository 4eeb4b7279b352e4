/-
The threads of a program that synchronizes on events, and their atomic steps: the
critical sections of couples, gates and write-once variables.  What a thread does
between two of them belongs to one of the two steps.
-/
import SmlSharp.CML.Event

namespace SmlSharp.CML

variable {α : Type}

/-- The shared data and the thread after a step, and the threads it created. -/
abbrev Outcome (α : Type) := Shared α × Thread α × List (Thread α)

/-- A step that creates no thread. -/
def goto (m : Shared α) (control : Control α) (stack : List (Frame α)) : Option (Outcome α) :=
  some (m, ⟨control, stack⟩, [])

/-- `Gate.gate gate` -/
def Shared.gate (m : Shared α) (g : Nat) (attempt : Attempt α) : Option (Bool × Shared α) :=
  (m.gates[g]?).map fun cell =>
    match cell.value with
    | none => (true, { m with gates := m.gates.write g attempt })
    | some _ => (false, m)

/-- `if Gate.gate gate then yes else no` -/
def passGate (m : Shared α) (g : Nat) (attempt : Attempt α) (yes no : Control α)
    (stack : List (Frame α)) : Option (Outcome α) := do
  let (isOpen, m) ← m.gate g attempt
  goto m (if isOpen then yes else no) stack

/-- `ev (Gate.create ())` -/
def Shared.enter (m : Shared α) (ev : Ready α) (pass : Nat)
    (next : Option α → Proc α) (stack : List (Frame α)) (spawned : List (Thread α)) :
    Option (Outcome α) :=
  some ({ m with gates := m.gates.create pass },
    ⟨.eval ev m.gates.length, .loop ev pass next :: stack⟩, spawned)

/-- A process is at its next step. -/
def procStep (i : Nat) (m : Shared α) (stack : List (Frame α)) : Proc α → Option (Outcome α)
  | .value x =>
    match stack with
    | .some :: stack => goto m (.value (some x)) stack
    | _ => goto m .halt stack
  | .event event =>
    match stack with
    | .future _ pass ids :: _ =>
      let (e, m, spawned) := event.apply pass ids m
      some (m, ⟨.prepared e, stack⟩, spawned)
    | _ => goto m .halt stack
  | .raise => goto m .raise stack
  | .sync event next =>
    let pass := m.syncs.length
    let (ev, m, spawned) := event.apply pass []
      { m with syncs := m.syncs.create ⟨event, i⟩ }
    m.enter ev pass next stack spawned
  | .channel next => goto { m with nextChan := m.nextChan + 1 } (.proc (next m.nextChan)) stack
  | .spawn f next => some (m, ⟨.proc next, stack⟩, [⟨.proc f, []⟩])

/-- An event is called with its gate. -/
def evalStep (i : Nat) (m : Shared α) (g : Nat) (stack : List (Frame α)) :
    Ready α → Option (Outcome α)
  | .sendEvt ch v => do
      let (chans, d, owed) ← m.chans.left ch m.nextPipe ⟨i, g, v⟩
      goto { m with chans := chans, nextPipe := m.nextPipe + 1 }
        (.sendPaired m.chans.lefts.length d owed v g) stack
  | .recvEvt ch => do
      let (chans, d, owed) ← m.chans.right ch () ⟨i, g⟩
      goto { m with chans := chans } (.recvPaired m.chans.rights.length d owed g) stack
  | .alwaysEvt x => passGate m g (.always x) (.value (some x)) .raise stack
  | .never => goto m .raise stack
  | .nackEvent pass self => do
      let ids ← m.syncs.read pass
      goto m (if ids.contains self then .raise else .nackGate pass self g) stack
  | .future f => do
      let e ← m.futures.read f
      goto m (.eval e g) stack
  | .wrap e f => goto m (.eval e g) (.map f :: stack)
  | .withNack f pass ids => do
      let e ← m.futures.read f
      goto m (.eval e g) (.pass pass ids :: stack)
  | .choose made events =>
    let ret := m.rets.length
    some ({ m with rets := m.rets.create ⟨g, made⟩ }, ⟨.choosing ret, stack⟩,
      events.map fun e => ⟨.eval e g, [.ret ret]⟩)

/-- The result of an event goes to what awaits it. -/
def valueStep (m : Shared α) : List (Frame α) → Option α → Option (Outcome α)
  | .map _ :: stack, none => goto m (.value none) stack
  | .map f :: stack, some x => goto m (.proc (f x)) (.some :: stack)
  | .pass _ _ :: stack, none => goto m (.value none) stack
  | .pass pass ids :: stack, some x =>
    goto { m with syncs := m.syncs.write pass ids } (.value (some x)) stack
  | .ret ret :: stack, res => goto { m with rets := m.rets.write ret res } .halt stack
  | .loop ev pass next :: stack, none => m.enter ev pass next stack []
  | .loop _ pass next :: stack, some x =>
    goto { m with
        syncs := m.syncs.write pass []
        returned := ⟨pass, x⟩ :: m.returned }
      (.proc (next (some x))) stack
  | stack, _ => goto m .halt stack

/-- An exception goes to its handler. -/
def raiseStep (m : Shared α) : List (Frame α) → Option (Outcome α)
  | [] => goto m .halt []
  | .ret _ :: stack => goto m .halt stack
  | .loop _ _ next :: stack => goto m (.proc (next none)) stack
  | .future f pass ids :: stack => goto m (.prepared .never) (.future f pass ids :: stack)
  | _ :: stack => goto m .raise stack

/-- A step of the thread of a number; a thread that waits has none. -/
def act [Values α] : ThreadPool.Act (Shared α) (Thread α) := fun i m thread =>
  let stack := thread.stack
  match thread.control with
  | .proc p => procStep i m stack p
  | .eval e g => evalStep i m g stack e
  | .value res => valueStep m stack res
  | .raise => raiseStep m stack
  | .halt => none
  | .prepared e =>
    match stack with
    | .future f _ _ :: stack =>
      goto { m with futures := m.futures.write f e } .halt stack
    | _ => none
  | .choosing ret => do
      let res ← m.rets.read ret
      goto m (.value res) stack
  -- `case Ivar.get (Couple.left (ch, Couple.create ())) of (c, ()) => ...`
  | .sendPaired call d (some p) v g =>
    goto { m with chans := m.chans.set d p } (.sendPaired call d none v g) stack
  | .sendPaired _ d none v g => do
      let (c, _) ← m.chans.var d
      goto m (.sendGate c v g) stack
  | .sendGate c v g => passGate m g (.send c) (.sendSome c v g) (.sendNone c) stack
  -- `(Couple.left (c, NONE); raise Kill)`
  | .sendNone c => do
      let (pipes, d, owed) ← m.pipes.left c none ()
      goto { m with pipes := pipes } (.sendKill d owed) stack
  | .sendKill d (some p) =>
    goto { m with pipes := m.pipes.set d p } (.sendKill d none) stack
  | .sendKill _ none => goto m .raise stack
  -- `case Ivar.get (Couple.left (c, SOME v)) of (_, false) => NONE | (_, true) => SOME ()`
  | .sendSome c v g => do
      let (pipes, d, owed) ← m.pipes.left c (some v) ()
      goto { m with pipes := pipes } (.sendSettle c m.pipes.lefts.length d owed v g) stack
  | .sendSettle c call d (some p) v g =>
    goto { m with pipes := m.pipes.set d p } (.sendSettle c call d none v g) stack
  | .sendSettle _ _ d none _ _ => do
      let (_, received) ← m.pipes.var d
      goto m (.value (if received then some Values.unit else none)) stack
  -- `case Ivar.get (Couple.right (ch, ())) of (c, ()) => ...`
  | .recvPaired call d (some p) g =>
    goto { m with chans := m.chans.set d p } (.recvPaired call d none g) stack
  | .recvPaired call d none g => do
      let (c, _) ← m.chans.var d
      goto m (.recvGate c call g) stack
  | .recvGate c call g =>
    passGate m g (.recv c call) (.recvTrue c call g) (.recvFalse c call) stack
  -- `(Couple.right (c, false); raise Kill)`
  | .recvFalse c call => do
      let (pipes, d, owed) ← m.pipes.right c false call
      goto { m with pipes := pipes } (.recvKill d owed) stack
  | .recvKill d (some p) =>
    goto { m with pipes := m.pipes.set d p } (.recvKill d none) stack
  | .recvKill _ none => goto m .raise stack
  -- `#1 (Ivar.get (Couple.right (c, true)))`
  | .recvTrue c call g => do
      let (pipes, d, owed) ← m.pipes.right c true call
      goto { m with pipes := pipes } (.recvSettle c call m.pipes.rights.length d owed g) stack
  | .recvSettle c call k d (some p) g =>
    goto { m with pipes := m.pipes.set d p } (.recvSettle c call k d none g) stack
  | .recvSettle _ _ _ d none _ => do
      let (sent, _) ← m.pipes.var d
      goto m (.value sent) stack
  | .nackGate pass self g =>
    passGate m g (.nack pass self) (.value (some Values.unit)) .raise stack

/-- The data before the first step, with some channels that were made before. -/
def Shared.initial (chans : Nat) : Shared α where
  chans := Couple.Store.initial
  pipes := Couple.Store.initial
  nextPipe := 0
  nextChan := chans
  nextId := 0
  gates := []
  syncs := []
  rets := []
  futures := []
  returned := []

/-- The program that starts a thread for each process. -/
def start (chans : Nat) (procs : List (Proc α)) : ThreadPool (Shared α) (Thread α) :=
  ⟨.initial chans, procs.map fun p => ⟨.proc p, []⟩⟩

end SmlSharp.CML
