/-
The sharing of results by the map of the accumulator: whole runs of `compute`
on one accumulator, and when each result has the value of its expression.
-/
import SmlSharp.RecordLayout.Compute

namespace SmlSharp

namespace RecordLayout

/-- The division of constants that raises `Div`. -/
def raisesDiv : Exp → Bool
  | .op .div (.word _) (.word divisor) => divisor == 0
  | _ => false

/-- A call of `compute`, with its exception. -/
def computeCall (acc : Accum) (exp : Exp) : Option (Value × Accum) :=
  if raisesDiv exp then none else some (compute acc exp)

def Exp.operands : Exp → List Value
  | .value v => [v]
  | .op _ left right => [left, right]

/-- A constant, a free variable or an earlier result. -/
def Allowed (base : Nat) (calls : List (Exp × Value)) : Value → Prop
  | .word _ => True
  | .var x => x.id < base ∨ ∃ call ∈ calls, call.2 = .var x

/-- The calls on one accumulator, each with its result.  The free variables are
those made before `base`; every step meets `condition`. -/
inductive Run (condition : Accum → Exp → Prop) (base : Nat) :
    Accum → List (Exp × Value) → Prop where
  | start : Run condition base (newComputationAccum base) []
  | call {acc acc' : Accum} {calls : List (Exp × Value)} {exp : Exp} {value : Value}
      (hrun : Run condition base acc calls)
      (hoperands : ∀ operand ∈ exp.operands, Allowed base calls operand)
      (hcondition : condition acc exp)
      (hcompute : computeCall acc exp = some (value, acc')) :
      Run condition base acc' (calls ++ [(exp, value)])

/-- The declarations leave the free variables as they are, and give every result
the value of its expression. -/
def Preserved (base : Nat) (acc : Accum) (calls : List (Exp × Value)) : Prop :=
  ∀ env : Env, (∀ id < base, acc.env env id = env id) ∧
    ∀ call ∈ calls, call.2.eval (acc.env env) = call.1.eval (acc.env env)

/-- The branch that returns an earlier result is not taken with an expression
whose operands differ. -/
def SharesOwn (acc : Accum) (exp : Exp) : Prop :=
  ∀ op left right, exp = .op op left right →
    (∃ value, normalizeExp exp = .value value) ∨
      compareValue left right = .eq ∨ acc.find exp = none

theorem eval_of_compareValue_eq {left right : Value}
    (h : compareValue left right = .eq) (env : Env) :
    left.eval env = right.eval env := by
  cases left with
  | var x =>
    cases right with
    | var y =>
      have hid : x.id = y.id := Nat.compare_eq_eq.mp h
      simp [Value.eval, hid]
    | word n => cases h
  | word m =>
    cases right with
    | var y => cases h
    | word n =>
      have hnat : m.toNat = n.toNat := Nat.compare_eq_eq.mp h
      exact BitVec.eq_of_toNat_eq hnat

theorem Op2.order_injective {op1 op2 : Op2} (h : op1.order = op2.order) :
    op1 = op2 := by
  cases op1 <;> cases op2 <;> first | rfl | cases h

variable {acc : Accum} {base : Nat} {value : Value} {exp : Exp}

/-- An entry that is found has the first operand twice. -/
theorem find_op {op : Op2} {left right : Value} {var : Var}
    (h : acc.find (.op op left right) = some var) :
    ∃ left' right', (.op op left' right', var) ∈ acc.expMap.1.listItemsi ∧
      compareValue left left' = .eq ∧ compareValue left' right' = .eq := by
  obtain ⟨key, hmem, hkey⟩ := BinaryMap.mem_of_find h
  cases key with
  | value v => cases hkey
  | op op' left' right' =>
    have hcompare : compareOp2 op left op' left' right' = .eq := hkey
    unfold compareOp2 at hcompare
    split at hcompare
    · next horder =>
      split at hcompare
      · next hleft =>
        rw [← Op2.order_injective (Nat.compare_eq_eq.mp horder)] at hmem
        exact ⟨left', right', hmem, hleft, hcompare⟩
      · next hne => exact absurd hcompare hne
    · next hne => exact absurd hcompare hne

/-- What holds between two calls: the results and the keys of the map have the
values that were asked for, and mention no variable that is still to come. -/
structure Accum.Inv (base : Nat) (acc : Accum) (calls : List (Exp × Value)) :
    Prop where
  le : base ≤ acc.next
  free : ∀ env : Env, ∀ id < base, acc.env env id = env id
  keys : ∀ entry ∈ acc.expMap.1.listItemsi, entry.2.id < acc.next ∧
    (∀ operand ∈ entry.1.operands, operand.Known acc.next) ∧
    ∀ env : Env, entry.1.eval (acc.env env) = acc.env env entry.2.id
  calls : ∀ call ∈ calls, call.2.Known acc.next ∧
    (∀ operand ∈ call.1.operands, operand.Known acc.next) ∧
    ∀ env : Env, call.2.eval (acc.env env) = call.1.eval (acc.env env)

theorem Accum.Inv.allowed {calls : List (Exp × Value)}
    (hinv : acc.Inv base calls) {operand : Value}
    (h : Allowed base calls operand) : operand.Known acc.next := by
  cases operand with
  | word n => trivial
  | var x =>
    rcases h with hbase | ⟨call, hcall, hresult⟩
    · exact Nat.lt_of_lt_of_le hbase hinv.le
    · have hknown := (hinv.calls call hcall).1
      rwa [hresult] at hknown

theorem Value.eval_update {bound : Nat} (hknown : value.Known bound)
    (env : Env) (word : Word32) :
    value.eval (Function.update env bound word) = value.eval env := by
  cases value with
  | word n => rfl
  | var x => exact Function.update_of_ne (Nat.ne_of_lt hknown) _ _

theorem Exp.eval_update {exp : Exp} {bound : Nat}
    (hknown : ∀ operand ∈ exp.operands, operand.Known bound)
    (env : Env) (word : Word32) :
    exp.eval (Function.update env bound word) = exp.eval env := by
  cases exp with
  | value value => exact Value.eval_update (hknown value (by simp [operands])) env word
  | op op left right =>
    rw [Exp.eval, Exp.eval, Value.eval_update (hknown left (by simp [operands])),
      Value.eval_update (hknown right (by simp [operands]))]

/-- A result that is there already, with the right value. -/
theorem Accum.Inv.reuse {calls : List (Exp × Value)}
    (hinv : acc.Inv base calls)
    (hoperands : ∀ operand ∈ exp.operands, operand.Known acc.next)
    (hknown : value.Known acc.next)
    (heval : ∀ env : Env, value.eval (acc.env env) = exp.eval (acc.env env)) :
    acc.Inv base (calls ++ [(exp, value)]) where
  le := hinv.le
  free := hinv.free
  keys := hinv.keys
  calls := by
    intro call hcall
    rcases List.mem_append.mp hcall with hold | hnew
    · exact hinv.calls call hold
    · cases List.mem_singleton.mp hnew
      exact ⟨hknown, hoperands, heval⟩

theorem Accum.Inv.declare {base : Nat} {acc : Accum} {calls : List (Exp × Value)}
    (hinv : acc.Inv base calls) {exp : Exp}
    (hoperands : ∀ operand ∈ exp.operands, operand.Known acc.next) :
    (acc.declare exp).2.Inv base (calls ++ [(exp, (acc.declare exp).1)]) where
  le := Nat.le_succ_of_le hinv.le
  free := by
    intro env id hid
    rw [declare_env, Function.update_of_ne
      (Nat.ne_of_lt (Nat.lt_of_lt_of_le hid hinv.le))]
    exact hinv.free env id hid
  keys := by
    intro entry hentry
    rcases BinaryMap.mem_insertCounted hentry with rfl | hold
    · refine ⟨Nat.lt_succ_self _, fun operand hoperand =>
        (hoperands operand hoperand).mono (Nat.le_succ _), fun env => ?_⟩
      rw [declare_env, Exp.eval_update hoperands, Function.update_self]
    · obtain ⟨hvar, hkeys, heval⟩ := hinv.keys entry hold
      refine ⟨Nat.lt_succ_of_lt hvar, fun operand hoperand =>
        (hkeys operand hoperand).mono (Nat.le_succ _), fun env => ?_⟩
      rw [declare_env, Exp.eval_update hkeys, heval env,
        Function.update_of_ne (Nat.ne_of_lt hvar)]
  calls := by
    intro call hcall
    rcases List.mem_append.mp hcall with hold | hnew
    · obtain ⟨hresult, hargs, heval⟩ := hinv.calls call hold
      refine ⟨hresult.mono (Nat.le_succ _), fun operand hoperand =>
        (hargs operand hoperand).mono (Nat.le_succ _), fun env => ?_⟩
      rw [declare_env, Exp.eval_update hargs, Value.eval_update hresult, heval env]
    · cases List.mem_singleton.mp hnew
      refine ⟨Nat.lt_succ_self _, fun operand hoperand =>
        (hoperands operand hoperand).mono (Nat.le_succ _), fun env => ?_⟩
      rw [declare_env, Exp.eval_update hoperands]
      exact Function.update_self _ _ _

/-- The operands of a simplified expression are all that its result mentions. -/
theorem normalizeExp_known {bound : Nat}
    (hnormal : normalizeExp exp = .value value)
    (hoperands : ∀ operand ∈ exp.operands, operand.Known bound) :
    value.Known bound := by
  cases exp with
  | value v =>
    cases hnormal
    exact hoperands _ (by simp [Exp.operands])
  | op op left right =>
    rcases normalizeExp_value hnormal with rfl | rfl | ⟨word, rfl⟩
    · exact hoperands _ (by simp [Exp.operands])
    · exact hoperands _ (by simp [Exp.operands])
    · trivial

/-- Whatever the second operand is, a result that is found is the one of the first
operand with itself. -/
theorem Accum.Inv.merged {calls : List (Exp × Value)} (hinv : acc.Inv base calls)
    {op : Op2} {left right : Value} {var : Var}
    (hfind : acc.find (.op op left right) = some var) :
    var.id < acc.next ∧ ∀ env : Env,
      (Value.var var).eval (acc.env env) = (Exp.op op left left).eval (acc.env env) := by
  obtain ⟨left', right', hmem, hleft, hright⟩ := find_op hfind
  obtain ⟨hvar, -, hkey⟩ := hinv.keys _ hmem
  refine ⟨hvar, fun env => ?_⟩
  have heval := hkey env
  rw [Exp.eval, ← eval_of_compareValue_eq hright, ← eval_of_compareValue_eq hleft]
    at heval
  exact heval.symm

/-- One call: where the condition holds, the result has the value that was asked
for. -/
theorem compute_inv {calls : List (Exp × Value)} (hinv : acc.Inv base calls)
    (hoperands : ∀ operand ∈ exp.operands, operand.Known acc.next)
    (hcondition : SharesOwn acc exp) :
    (compute acc exp).2.Inv base (calls ++ [(exp, (compute acc exp).1)]) := by
  unfold compute
  split
  · next value hnormal =>
    refine hinv.reuse hoperands (normalizeExp_known hnormal hoperands) fun env => ?_
    have heval := normalizeExp_eval (acc.env env) exp
    rwa [hnormal] at heval
  · next op' left' right' hnormal =>
    split
    · next var hfind =>
      cases exp with
      | value v => cases hnormal
      | op op left right =>
        have hsame : compareValue left right = .eq := by
          rcases hcondition op left right rfl with ⟨value, hvalue⟩ | hsame | hnone
          · rw [hnormal] at hvalue
            cases hvalue
          · exact hsame
          · rw [hfind] at hnone
            cases hnone
        obtain ⟨hvar, hmerged⟩ := hinv.merged hfind
        refine hinv.reuse hoperands hvar fun env => ?_
        rw [hmerged env, Exp.eval, Exp.eval, ← eval_of_compareValue_eq hsame]
    · exact hinv.declare hoperands

theorem newComputationAccum_inv (base : Nat) :
    (newComputationAccum base).Inv base [] where
  le := Nat.le_refl _
  free _ _ _ := rfl
  keys := by
    intro entry hentry
    cases hentry
  calls := by
    intro call hcall
    cases hcall

theorem Run.inv {calls : List (Exp × Value)}
    (hrun : Run SharesOwn base acc calls) : acc.Inv base calls := by
  induction hrun with
  | start => exact newComputationAccum_inv base
  | @call acc acc' calls exp value hrun hoperands hcondition hcompute ih =>
    unfold computeCall at hcompute
    split at hcompute
    · cases hcompute
    · have hresult := Option.some.inj hcompute
      have hinv := compute_inv ih
        (fun operand hoperand => ih.allowed (hoperands operand hoperand)) hcondition
      rwa [hresult] at hinv

/-- Runs in which no expression is merged with another one keep the values. -/
theorem run_preserved {base : Nat} {acc : Accum} {calls : List (Exp × Value)}
    (hrun : Run SharesOwn base acc calls) : Preserved base acc calls := by
  intro env
  have hinv := hrun.inv
  exact ⟨hinv.free env, fun call hcall => (hinv.calls call hcall).2.2 env⟩

def sumOf (left right : Nat) : Exp :=
  .op .add (.var ⟨left, []⟩) (.var ⟨right, []⟩)

theorem sumOf_allowed {base left right : Nat} {calls : List (Exp × Value)}
    (hleft : Allowed base calls (.var ⟨left, []⟩))
    (hright : Allowed base calls (.var ⟨right, []⟩)) :
    ∀ operand ∈ (sumOf left right).operands, Allowed base calls operand := by
  intro operand hoperand
  rcases List.mem_cons.mp hoperand with rfl | hoperand
  · exact hleft
  · cases List.mem_singleton.mp hoperand
    exact hright

/-- `z = x + y`, and twice `z + z`: the map of the accumulator finds the second one. -/
theorem run_preserved_double :
    ∃ acc calls, Run SharesOwn 2 acc calls ∧ Preserved 2 acc calls ∧
      calls = [(sumOf 0 1, .var ⟨2, []⟩), (sumOf 2 2, .var ⟨3, []⟩),
        (sumOf 2 2, .var ⟨3, []⟩)] ∧ acc.find (sumOf 2 2) = some ⟨3, []⟩ := by
  have hstart : Run SharesOwn 2 (newComputationAccum 2) [] := .start
  have hsum := Run.call hstart
    (sumOf_allowed (.inl Nat.two_pos) (.inl Nat.one_lt_two))
    (fun op left right _ => .inr (.inr rfl)) rfl
  have hresult : Allowed 2 ([] ++ [(sumOf 0 1, .var ⟨2, []⟩)]) (.var ⟨2, []⟩) :=
    .inr ⟨_, List.mem_singleton_self _, rfl⟩
  have hdouble := Run.call hsum (sumOf_allowed hresult hresult)
    (fun op left right _ => .inr (.inr rfl)) rfl
  have hagain := Run.call hdouble (sumOf_allowed
    (.inr ⟨_, List.mem_cons_self, rfl⟩) (.inr ⟨_, List.mem_cons_self, rfl⟩))
    (fun op left right heq => by
      cases heq
      exact .inr (.inl rfl)) rfl
  exact ⟨_, _, hagain, run_preserved hagain, rfl, rfl⟩

/-- `x + x` and then `x + y`: both get one variable. -/
theorem run_not_preserved :
    ∃ acc calls, Run (fun _ _ => True) 2 acc calls ∧ ¬ Preserved 2 acc calls := by
  refine ⟨_, _, .call (.call .start
    (sumOf_allowed (.inl Nat.two_pos) (.inl Nat.two_pos)) trivial rfl)
    (sumOf_allowed (.inl Nat.two_pos) (.inl Nat.one_lt_two)) trivial rfl,
    fun hpreserved => ?_⟩
  -- at `x = 1` and `y = 0` the second result is 2, not 1
  have hcalls := (hpreserved fun id => if id = 0 then 1 else 0).2
  have hsecond := hcalls (sumOf 0 1, .var ⟨2, []⟩) (by decide)
  revert hsecond
  decide

end RecordLayout

end SmlSharp
