/-
Parallel iteration over an array: rounds of iterators, each divided over threads
that share the arrays, the counters of the elements and the flag to continue.
-/
import Mathlib.Logic.Function.Basic
import Mathlib.Logic.Relation

namespace SmlSharp.ForeachCommon

/-- What an iterator or a predicate does: it asks its context for values of the
previous round and of this round, and ends with a result. -/
inductive Ask (n : Nat) (α : Type) (β : Type) where
  | ret (result : β)
  | value (i : Fin n) (next : α → Ask n α β)
  | newValue (i : Fin n) (next : α → Ask n α β)

structure Loop (n : Nat) (α : Type) where
  iterator : Fin n → Ask n α α
  pred : Fin n → Ask n α Bool

def cutOff : Nat := 16

/-- What a thread does from some point of `step` on, one access to the shared
data after the other. -/
inductive Code (n : Nat) (α : Type) where
  | halt
  /-- `Array.sub (from, i)` -/
  | value (i : Fin n) (next : α → Code n α)
  /-- `getNewValue cur i`; `none` is the index `~1`. -/
  | newValue (cur : Option (Fin n)) (i : Fin n) (next : α → Code n α)
  /-- `Array.sub (to, i)` -/
  | fetch (i : Fin n) (next : α → Code n α)
  /-- `getNewValue` returns the value. -/
  | answer (i : Fin n) (v : α) (next : α → Code n α)
  /-- `Array.update (to, i, v)` -/
  | store (i : Fin n) (v : α) (rest : Code n α)
  /-- `Array.update (done, i, nextCount)` -/
  | finish (i : Fin n) (rest : Code n α)
  /-- `if Array.sub (done, i) = nextCount then ... else ...` -/
  | testDone (i : Fin n) (yes no : Code n α)
  /-- `if !maxCount >= nextCount then ... else ...` -/
  | testMax (yes no : Code n α)
  /-- `maxCount := nextCount` -/
  | setMax (rest : Code n α)

variable {n : Nat} {α β : Type}

/-- An iterator or a predicate that is called with `context cur`. -/
def Ask.run (cur : Option (Fin n)) (next : β → Code n α) : Ask n α β → Code n α
  | .ret result => next result
  | .value i ask => .value i fun v => (ask v).run cur next
  | .newValue i ask => .newValue cur i fun v => (ask v).run cur next

/-- The element is computed, stored and marked. -/
def compute (loop : Loop n α) (i : Fin n) (next : α → Code n α) : Code n α :=
  (loop.iterator i).run (some i) fun v => .store i v (.finish i (next v))

/-- `post i`, which looks at `count` more elements. -/
def post (loop : Loop n α) : Nat → Nat → Code n α
  | 0, _ => .halt
  | count + 1, i =>
    if h : i < n then
      (loop.pred ⟨i, h⟩).run none fun holds =>
        if holds then .setMax .halt else post loop count (i + 1)
    else .halt

/-- `body i`, which looks at `count` more elements. -/
def body (loop : Loop n α) (rest : Code n α) : Nat → Nat → Code n α
  | 0, _ => rest
  | count + 1, i =>
    if h : i < n then
      .testDone ⟨i, h⟩ (body loop rest count (i + 1))
        (compute loop ⟨i, h⟩ fun _ => body loop rest count (i + 1))
    else .halt

/-- The elements `id ≤ i < id + num` are computed; the predicate is tested on
`id ≤ i < num`. -/
def step (loop : Loop n α) (id num : Nat) : Code n α :=
  body loop (.testMax .halt (post loop (num - id) id)) num id

/-- What the threads of a round share, but for the array they only read. -/
structure Shared (n : Nat) (α : Type) where
  toArray : Fin n → α
  done : Fin n → Nat
  maxCount : Nat

/-- `cur <= i andalso i < id + num` -/
def isOwn (id num : Nat) (cur : Option (Fin n)) (i : Fin n) : Bool :=
  (match cur with
    | none => true
    | some cur => decide (cur.val ≤ i.val)) && decide (i.val < id + num)

/-- The next access of a thread to the shared data, if it is neither at its end
nor has to yield. -/
def threadStep (loop : Loop n α) (fromArray : Fin n → α) (nextCount id num : Nat)
    (s : Shared n α) : Code n α → Option (Shared n α × Code n α)
  | .halt => none
  | .value i next => some (s, next (fromArray i))
  | .newValue cur i next =>
    if s.done i = nextCount then some (s, .fetch i next)
    else if isOwn id num cur i then some (s, compute loop i fun v => .answer i v next)
    else none
  | .fetch i next => some (s, .answer i (s.toArray i) next)
  | .answer _ v next => some (s, next v)
  | .store i v rest => some ({ s with toArray := Function.update s.toArray i v }, rest)
  | .finish i rest => some ({ s with done := Function.update s.done i nextCount }, rest)
  | .testDone i yes no => some (s, if s.done i = nextCount then yes else no)
  | .testMax yes no => some (s, if s.maxCount ≥ nextCount then yes else no)
  | .setMax rest => some ({ s with maxCount := nextCount }, rest)

/-- The threads of a round: a call of `start` that has not begun, a running
`step`, a thread that waits for the two it made, and an ended one. -/
inductive Proc (n : Nat) (α : Type) where
  | start (id num : Nat)
  | thread (id num : Nat) (code : Code n α)
  | fork (left right : Proc n α)
  | ended

/-- A step of some thread. -/
inductive ProcStep (loop : Loop n α) (fromArray : Fin n → α) (nextCount : Nat) :
    Shared n α → Proc n α → Shared n α → Proc n α → Prop where
  | step {s id num} (h : num ≤ cutOff) :
      ProcStep loop fromArray nextCount s (.start id num) s
        (.thread id num (step loop id num))
  | create {s id num} (h : ¬ num ≤ cutOff) :
      ProcStep loop fromArray nextCount s (.start id num) s
        (.fork (.start id (num / 2)) (.start (id + num / 2) (num - num / 2)))
  | access {s id num code s' code'}
      (h : threadStep loop fromArray nextCount id num s code = some (s', code')) :
      ProcStep loop fromArray nextCount s (.thread id num code) s' (.thread id num code')
  | exit {s id num} :
      ProcStep loop fromArray nextCount s (.thread id num .halt) s .ended
  | left {s left right s' left'}
      (h : ProcStep loop fromArray nextCount s left s' left') :
      ProcStep loop fromArray nextCount s (.fork left right) s' (.fork left' right)
  | right {s left right s' right'}
      (h : ProcStep loop fromArray nextCount s right s' right') :
      ProcStep loop fromArray nextCount s (.fork left right) s' (.fork left right')
  | join {s} : ProcStep loop fromArray nextCount s (.fork .ended .ended) s .ended

inductive State (n : Nat) (α : Type) where
  | round (count : Nat) (fromArray : Fin n → α) (shared : Shared n α) (proc : Proc n α)
  | returned (array : Fin n → α)

/-- A step of the round. -/
inductive RoundStep (loop : Loop n α) : State n α → State n α → Prop where
  | proc {count fromArray s proc s' proc'}
      (h : ProcStep loop fromArray (count + 1) s proc s' proc') :
      RoundStep loop (.round count fromArray s proc) (.round count fromArray s' proc')

/-- A step of `foreach`.  The second round writes to a fresh array, the later ones
to the one that the round before has read. -/
inductive Step (loop : Loop n α) : State n α → State n α → Prop where
  | round {s s'} (h : RoundStep loop s s') : Step loop s s'
  | mainLoop {count fromArray s toArray'} (h : count < s.maxCount)
      (hto : 0 < count → toArray' = fromArray) :
      Step loop (.round count fromArray s .ended)
        (.round (count + 1) s.toArray { s with toArray := toArray' } (.start 0 n))
  | stop {count fromArray s} (h : ¬ count < s.maxCount) :
      Step loop (.round count fromArray s .ended) (.returned s.toArray)

/-- The state in which `foreach` starts with an array, `alloc` being what stands in
the fresh one. -/
def initial (input alloc : Fin n → α) : State n α :=
  .round 0 input ⟨alloc, fun _ => 0, 0⟩ (.start 0 n)

end SmlSharp.ForeachCommon
