/-
Computations that call out: a computation ends with a result, gets stuck, or
makes a call and continues with the answer to it.
-/

namespace SmlSharp

universe u v w

inductive Calls (Call : Type u) (Answer : Type v) (α : Type w) where
  | stuck
  | ret (result : α)
  | call (request : Call) (next : Answer → Calls Call Answer α)

namespace Calls

variable {Call : Type u} {Answer : Type v} {α β γ : Type w}

/-- The computation continued with its result. -/
def bind (x : Calls Call Answer α) (f : α → Calls Call Answer β) : Calls Call Answer β :=
  match x with
  | .stuck => .stuck
  | .ret result => f result
  | .call request next => .call request fun answer => (next answer).bind f

instance : Monad (Calls Call Answer) where
  pure := ret
  bind := bind

/-- The result of a partial operation. -/
def ofOption : Option α → Calls Call Answer α
  | some result => .ret result
  | none => .stuck

@[simp]
theorem ret_bind (result : α) (f : α → Calls Call Answer β) :
    (ret result >>= f) = f result := rfl

@[simp]
theorem stuck_bind (f : α → Calls Call Answer β) :
    ((stuck : Calls Call Answer α) >>= f) = stuck := rfl

@[simp]
theorem call_bind (request : Call) (next : Answer → Calls Call Answer α)
    (f : α → Calls Call Answer β) :
    (call request next >>= f) = call request fun answer => next answer >>= f := rfl

theorem bind_assoc (x : Calls Call Answer α) (f : α → Calls Call Answer β)
    (g : β → Calls Call Answer γ) : (x >>= f >>= g) = x >>= fun result => f result >>= g := by
  induction x with
  | stuck => rfl
  | ret result => rfl
  | call request next ih =>
    simp only [call_bind, ih]

end Calls

end SmlSharp
