/-
What holds of the shared data and of each thread in every run, and what a step of one
thread leaves to the others.
-/
import SmlSharp.CML.Commit

namespace SmlSharp.CML

variable {α : Type} [Values α]

namespace Shared

/-- The sender of the pipe has made no move at it. -/
def NoLeft (m : Shared α) (c : Nat) : Prop :=
  ∀ (k : Nat) (call : Couple.Call (Option α) Unit),
    m.pipes.lefts[k]? = some call → call.couple ≠ c

/-- The receiver that made the call has made no move at a pipe. -/
def NoRight (m : Shared α) (n : Nat) : Prop :=
  ∀ (k : Nat) (call : Couple.Call Bool Nat), m.pipes.rights[k]? = some call → call.info ≠ n

/-- A move on the left of a pipe is made by its sender, after it has met a receiver; it
offers the value only with the gate closed by this attempt. -/
def LeftMove (m : Shared α) (call : Couple.Call (Option α) Unit) : Prop :=
  (∃ n, m.chans.Agreed call.couple n) ∧
    ∀ v, call.value = some v → ∃ l, m.chans.lefts[call.couple]? = some l ∧
      l.info.value = v ∧ m.gates.Holds l.info.gate (.send call.couple)

/-- A move on the right of a pipe is made by the receiver that its sender has met. -/
def RightMove (m : Shared α) (call : Couple.Call Bool Nat) : Prop :=
  m.chans.Agreed call.couple call.info ∧
    (call.value = true → ∃ r, m.chans.rights[call.info]? = some r ∧
      m.gates.Holds r.info.gate (.recv call.couple call.info))

/-- The attempt that closed a gate was made for that gate. -/
def AttemptOk (m : Shared α) (g : Nat) : Attempt α → Prop
  | .send c => ∃ l, m.chans.lefts[c]? = some l ∧ l.info.gate = g
  | .recv c n => m.chans.Agreed c n ∧ ∃ r, m.chans.rights[n]? = some r ∧ r.info.gate = g
  | .always _ => True
  | .nack pass self => ∃ ids, m.syncs.Holds pass ids ∧ self ∉ ids

/-- What a future holds is the event of its function. -/
def FutureOk (m : Shared α) (guarded : Guarded α) (e : Ready α) : Prop :=
  e = .never ∨ ∃ event, guarded.f.Leads (.event event) ∧
    Prepared m.futures guarded.pass e event

/-- The invariant of the shared data. -/
structure Ok (m : Shared α) : Prop where
  chans : m.chans.Ok
  pipes : m.pipes.Ok
  nextPipe : m.nextPipe = m.chans.lefts.length
  pipe : ∀ {c : Nat} {call}, m.chans.lefts[c]? = some call → call.value = c
  left : ∀ {k : Nat} {call}, m.pipes.lefts[k]? = some call → m.LeftMove call
  left_unique : ∀ {k k' : Nat} {call call'}, m.pipes.lefts[k]? = some call →
    m.pipes.lefts[k']? = some call' → call.couple = call'.couple → k = k'
  right : ∀ {k : Nat} {call}, m.pipes.rights[k]? = some call → m.RightMove call
  right_unique : ∀ {k k' : Nat} {call call'}, m.pipes.rights[k]? = some call →
    m.pipes.rights[k']? = some call' → call.couple = call'.couple → k = k'
  attempt : ∀ {g a}, m.gates.Holds g a → m.AttemptOk g a
  ret : ∀ {n chosen res}, m.rets.Info n chosen → m.rets.Holds n res →
    m.Result (Event.choose chosen.events).Offers chosen.gate res
  future : ∀ {k guarded e}, m.futures.Info k guarded → m.futures.Holds k e →
    m.FutureOk guarded e
  pass : ∀ {sync ids}, m.syncs.Holds sync ids → ∃ a u, m.Commits sync a u
  gate : ∀ {g sync}, m.gates.Info g sync → ∃ synced, m.syncs.Info sync synced
  /-- At most one gate of a call of `sync` is not dead. -/
  single : ∀ sync, ∃ g, ∀ g', m.gates.Info g' sync → g' = g ∨ m.Dead g'
  returned : ∀ {r}, r ∈ m.returned → ∃ synced g, m.syncs.Info r.sync synced ∧
    m.gates.Info g r.sync ∧ m.Result synced.event.Offers g (some r.value)

end Shared

/-- The calls of `sync` in a stack. -/
def loops (stack : List (Frame α)) : List Nat :=
  stack.filterMap fun
    | .loop _ pass _ => some pass
    | _ => none

/-- A call of `sync` that awaits the result of its event at the gate: all gates that
it has used before are dead. -/
structure Looping (m : Shared α) (i : Nat) (stack : List (Frame α)) (ev : Ready α)
    (pass : Nat) (event : Event α) (g : Nat) : Prop where
  sync : m.syncs.Info pass ⟨event, i⟩
  prepared : Prepared m.futures pass ev event
  gate : m.gates.Info g pass
  dead : ∀ g', m.gates.Info g' pass → g' ≠ g → m.Dead g'
  older : ∀ q ∈ loops stack, q < pass

mutual

/-- The stack awaits the result of something that makes one of the offers at the gate. -/
def Awaits (m : Shared α) (i : Nat) :
    List (Frame α) → (Base α → α → α → Prop) → Nat → Prop
  | .map f :: stack, offers, g => ∃ offers' : Base α → α → α → Prop,
      (∀ b u v w, offers b u v → (f v).Leads (.value w) → offers' b u w) ∧
        Awaits m i stack offers' g
  | .pass pass _ :: stack, offers, g => m.gates.Info g pass ∧ Awaits m i stack offers g
  | .ret ret :: stack, offers, g => stack = [] ∧ ∃ events, m.rets.Info ret ⟨g, events⟩ ∧
      ∀ b u v, offers b u v → (Event.choose events).Offers b u v
  | .loop ev pass next :: stack, offers, g => ∃ event, Looping m i stack ev pass event g ∧
      (∀ b u v, offers b u v → event.Offers b u v) ∧
        ∀ res, Continues m i stack (next res)
  | _, _, _ => False

/-- The stack awaits the result of the process. -/
def Continues (m : Shared α) (i : Nat) : List (Frame α) → Proc α → Prop
  | [], _ => True
  | .some :: stack, p => ∃ offers g,
      (∀ w, p.Leads (.value w) → m.Result offers g (some w)) ∧ Awaits m i stack offers g
  | .future k pass _ :: stack, p => stack = [] ∧ ∃ f, m.futures.Info k ⟨f, pass⟩ ∧
      ∀ event, p.Leads (.event event) → f.Leads (.event event)
  | _, _ => False

end

/-- The stack awaits something. -/
def Unwinds (m : Shared α) (i : Nat) (stack : List (Frame α)) : Prop :=
  (∃ offers g, Awaits m i stack offers g) ∨ ∃ p, Continues m i stack p

/-- The left call of the number on a channel is an attempt of the thread. -/
def Sending (m : Shared α) (i : Nat) (stack : List (Frame α)) (c : Nat) (v : α)
    (g : Nat) : Prop :=
  ∃ l offers, m.chans.lefts[c]? = some l ∧ l.info = ⟨i, g, v⟩ ∧
    (∀ u, offers (.send l.couple v) u u) ∧ Awaits m i stack offers g

def Receiving (m : Shared α) (i : Nat) (stack : List (Frame α)) (n g : Nat) : Prop :=
  ∃ r offers, m.chans.rights[n]? = some r ∧ r.info = ⟨i, g⟩ ∧
    (∀ u, offers (.recv r.couple) u u) ∧ Awaits m i stack offers g

/-- What holds of a thread where it stands. -/
def Control.Ok (m : Shared α) (i : Nat) (stack : List (Frame α)) : Control α → Prop
  | .proc p => Continues m i stack p
  | .eval e g => ∃ event pass offers, Prepared m.futures pass e event ∧
      m.gates.Info g pass ∧ (∀ b u v, event.Offers b u v → offers b u v) ∧
        Awaits m i stack offers g
  | .value res => ∃ offers g, m.Result offers g res ∧ Awaits m i stack offers g
  | .raise => Unwinds m i stack
  | .halt => True
  | .prepared e => ∃ k pass ids f, stack = [.future k pass ids] ∧
      m.futures.Info k ⟨f, pass⟩ ∧ m.FutureOk ⟨f, pass⟩ e
  | .choosing ret => ∃ g events, m.rets.Info ret ⟨g, events⟩ ∧
      Awaits m i stack (Event.choose events).Offers g
  | .sendPaired call d owed v g => Sending m i stack call v g ∧ m.chans.LeftAt d call ∧
      (∀ p, owed = some p → m.chans.Belongs d p) ∧ m.NoLeft call
  | .sendGate c v g => Sending m i stack c v g ∧ (∃ n, m.chans.Agreed c n) ∧ m.NoLeft c
  | .sendNone c => Unwinds m i stack ∧ (∃ l, m.chans.lefts[c]? = some l ∧ l.info.thread = i) ∧
      (∃ n, m.chans.Agreed c n) ∧ m.NoLeft c
  | .sendSome c v g => Sending m i stack c v g ∧ (∃ n, m.chans.Agreed c n) ∧ m.NoLeft c ∧
      m.gates.Holds g (.send c)
  | .sendKill d owed => Unwinds m i stack ∧ ∀ p, owed = some p → m.pipes.Belongs d p
  | .sendSettle c call d owed v g => Sending m i stack c v g ∧ m.gates.Holds g (.send c) ∧
      m.pipes.lefts[call]? = some ⟨c, some v, ()⟩ ∧ m.pipes.LeftAt d call ∧
        ∀ p, owed = some p → m.pipes.Belongs d p
  | .recvPaired call d owed g => Receiving m i stack call g ∧ m.chans.RightAt d call ∧
      (∀ p, owed = some p → m.chans.Belongs d p) ∧ m.NoRight call
  | .recvGate c call g => Receiving m i stack call g ∧ m.chans.Agreed c call ∧ m.NoRight call
  | .recvFalse c call => Unwinds m i stack ∧
      (∃ r, m.chans.rights[call]? = some r ∧ r.info.thread = i) ∧
        m.chans.Agreed c call ∧ m.NoRight call
  | .recvTrue c call g => Receiving m i stack call g ∧ m.chans.Agreed c call ∧ m.NoRight call ∧
      m.gates.Holds g (.recv c call)
  | .recvKill d owed => Unwinds m i stack ∧ ∀ p, owed = some p → m.pipes.Belongs d p
  | .recvSettle c call k d owed g => Receiving m i stack call g ∧
      m.gates.Holds g (.recv c call) ∧ m.pipes.rights[k]? = some ⟨c, true, call⟩ ∧
        m.pipes.RightAt d k ∧ ∀ p, owed = some p → m.pipes.Belongs d p
  | .nackGate pass self g => ∃ ids offers, m.syncs.Holds pass ids ∧ self ∉ ids ∧
      (∀ u, offers (.nack pass self) u u) ∧ Awaits m i stack offers g

def Thread.Ok (m : Shared α) (i : Nat) (thread : Thread α) : Prop :=
  thread.control.Ok m i thread.stack

/-- What a step of the thread of a number may change. -/
structure Changes (i : Nat) (m m' : Shared α) : Prop where
  grows : m.Extends m'
  lefts : ∀ (k : Nat) (call : Couple.Call (Option α) Unit), m'.pipes.lefts[k]? = some call →
    m.pipes.lefts[k]? = some call ∨
      ∃ l, m'.chans.lefts[call.couple]? = some l ∧ l.info.thread = i
  rights : ∀ (k : Nat) (call : Couple.Call Bool Nat), m'.pipes.rights[k]? = some call →
    m.pipes.rights[k]? = some call ∨
      ∃ r, m'.chans.rights[call.info]? = some r ∧ r.info.thread = i
  gates : ∀ g sync, m'.gates.Info g sync → m.gates.Info g sync ∨
    ∃ event, m'.syncs.Info sync ⟨event, i⟩

end SmlSharp.CML
