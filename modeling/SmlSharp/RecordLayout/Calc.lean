/-
The calculus in which the layout of a record is computed: 32-bit operations on
constants and variables, the algebraic simplifier, and the accumulator that
names every result that is not a constant.
-/
import Mathlib.Logic.Function.Basic
import SmlSharp.Lib.BinaryMap

namespace SmlSharp

namespace RecordLayout

abbrev Word32 := BitVec 32

structure Var where
  id : Nat
  path : List String
deriving DecidableEq, Repr

inductive Value where
  | var (var : Var)
  | word (word : Word32)
deriving DecidableEq, Repr

inductive Op2 where
  | add
  | sub
  | div
  | and
  | or
  | lshift
  | rshift
deriving DecidableEq, Repr

inductive Exp where
  | value (value : Value)
  | op (op : Op2) (left right : Value)
deriving DecidableEq, Repr

inductive Dec where
  | val (var : Var) (exp : Exp)
deriving DecidableEq, Repr

/-- `bitmapWordSize`: the size of `word32`. -/
def bitmapWordSize : Nat := 4

def bitmapWordBits : Nat := bitmapWordSize * 8

def compareValue : Value → Value → Ordering
  | .var var1, .var var2 => compare var1.id var2.id
  | .var _, .word _ => .lt
  | .word word1, .word word2 => compare word1.toNat word2.toNat
  | .word _, .var _ => .gt

/-- Put the operands of a commutative operation in descending order. -/
def commute (op : Op2) (left right : Value) : Exp :=
  match compareValue left right with
  | .gt => .op op left right
  | .eq => .op op left right
  | .lt => .op op right left

def normalizeAdd : Value → Value → Exp
  | .word word1, .word word2 => .value (.word (word1 + word2))
  | left, .word word =>
    if word = 0 then .value left else commute .add left (.word word)
  | .word word, right =>
    if word = 0 then .value right else commute .add (.word word) right
  | left, right => commute .add left right

def normalizeSub : Value → Value → Exp
  | .word word1, .word word2 => .value (.word (word1 - word2))
  | left, .word word =>
    if word = 0 then .value left else .op .sub left (.word word)
  | left, right => .op .sub left right

def normalizeRshift : Value → Value → Exp
  | .word word, .var amount =>
    if word = 0 then .value (.word 0) else .op .rshift (.word word) (.var amount)
  | .word word, .word amount => .value (.word (word >>> amount.toNat))
  | left, .word amount =>
    if amount = 0 then .value left
    else if bitmapWordBits ≤ amount.toNat then .value (.word 0)
    else .op .rshift left (.word amount)
  | left, right => .op .rshift left right

/-- Division of constants by zero, which raises `Div`, is not modelled: the
divisor is always the pointer size. -/
def normalizeDiv : Value → Value → Exp
  | .word word1, .word word2 => .value (.word (word1 / word2))
  | left, .word word =>
    if word = 1 then .value left
    else if word = 2 then normalizeRshift left (.word 1)
    else if word = 4 then normalizeRshift left (.word 2)
    else if word = 8 then normalizeRshift left (.word 3)
    else if word = 16 then normalizeRshift left (.word 4)
    else .op .div left (.word word)
  | left, right => .op .div left right

def normalizeAnd : Value → Value → Exp
  | .word word1, .word word2 => .value (.word (word1 &&& word2))
  | left, .word word =>
    if word = -1 then .value left else commute .and left (.word word)
  | left, right => commute .and left right

def normalizeOr : Value → Value → Exp
  | .word word1, .word word2 => .value (.word (word1 ||| word2))
  | left, .word word =>
    if word = 0 then .value left else commute .or left (.word word)
  | left, right => commute .or left right

def normalizeLshift : Value → Value → Exp
  | .word word, .var amount =>
    if word = 0 then .value (.word 0) else .op .lshift (.word word) (.var amount)
  | .word word, .word amount => .value (.word (word <<< amount.toNat))
  | left, .word amount =>
    if amount = 0 then .value left
    else if amount = 1 then normalizeAdd left left
    else if bitmapWordBits ≤ amount.toNat then .value (.word 0)
    else .op .lshift left (.word amount)
  | left, right => .op .lshift left right

/-- `normalizeExp`, one definition for the rows of each operation. -/
def normalizeExp : Exp → Exp
  | .op .add left right => normalizeAdd left right
  | .op .sub left right => normalizeSub left right
  | .op .div left right => normalizeDiv left right
  | .op .and left right => normalizeAnd left right
  | .op .or left right => normalizeOr left right
  | .op .lshift left right => normalizeLshift left right
  | .op .rshift left right => normalizeRshift left right
  | .value value => .value value

def Op2.order : Op2 → Nat
  | .add => 0
  | .sub => 1
  | .div => 2
  | .and => 3
  | .or => 4
  | .lshift => 5
  | .rshift => 6

/-- The second operand of the left expression is never looked at: where the
first operands agree, the two operands of the right one are compared. -/
def compareOp2 (op1 : Op2) (left1 : Value) (op2 : Op2) (left2 right2 : Value) :
    Ordering :=
  match compare op1.order op2.order with
  | .eq =>
    match compareValue left1 left2 with
    | .eq => compareValue left2 right2
    | order => order
  | order => order

def compareExp : Exp → Exp → Ordering
  | .op op1 left1 _, .op op2 left2 right2 => compareOp2 op1 left1 op2 left2 right2
  | .op _ _ _, .value _ => .gt
  | .value _, .op _ _ _ => .lt
  | .value value1, .value value2 => compareValue value1 value2

/-- The accumulator: the source of new identifiers, the results that already
have a name, and the declarations made so far, the last one first. -/
structure Accum where
  next : Nat
  expMap : { map : BinaryMap Exp Var // map.Counted }
  decs : List Dec

def newComputationAccum (next : Nat) : Accum := ⟨next, ⟨.empty, trivial⟩, []⟩

def extractDecls (acc : Accum) : List Dec × Accum :=
  (acc.decs.reverse, { acc with expMap := ⟨.empty, trivial⟩, decs := [] })

/-- `ExpMap.find`. -/
def Accum.find (acc : Accum) (exp : Exp) : Option Var :=
  acc.expMap.1.find compareExp exp

/-- Name the value of an expression by a new variable. -/
def Accum.declare (acc : Accum) (exp : Exp) : Value × Accum :=
  let var : Var := ⟨acc.next, []⟩
  (.var var, ⟨acc.next + 1, BinaryMap.insertCounted compareExp acc.expMap exp var,
    .val var exp :: acc.decs⟩)

def compute (acc : Accum) (exp : Exp) : Value × Accum :=
  match normalizeExp exp with
  | .value value => (value, acc)
  | .op _ _ _ =>
    match acc.find exp with
    | some var => (.var var, acc)
    | none => acc.declare exp

/-! ## Evaluation -/

abbrev Env := Nat → Word32

/-- The operations of `Word32`, as `normalizeExp` folds them. -/
def evalOp2 : Op2 → Word32 → Word32 → Word32
  | .add, left, right => left + right
  | .sub, left, right => left - right
  | .div, left, right => left / right
  | .and, left, right => left &&& right
  | .or, left, right => left ||| right
  | .lshift, left, right => left <<< right.toNat
  | .rshift, left, right => left >>> right.toNat

def Value.eval (env : Env) : Value → Word32
  | .var x => env x.id
  | .word n => n

def Exp.eval (env : Env) : Exp → Word32
  | .value v => v.eval env
  | .op op2 left right => evalOp2 op2 (left.eval env) (right.eval env)

def evalDec (env : Env) : Dec → Env
  | .val var exp => Function.update env var.id (exp.eval env)

/-- The environment after the declarations, evaluated in order. -/
def evalDecs (env : Env) (decs : List Dec) : Env := decs.foldl evalDec env

def Accum.env (acc : Accum) (env : Env) : Env :=
  evalDecs env (extractDecls acc).1

/-- Whether the operation that is emitted is defined: `Word_lshift_unsafe` and
`Word_rshift_unsafe` are shifts of the target, which must be by less than the
width of a word, and `Word_div_unsafe` does not look for zero. -/
def Op2.isDefined : Op2 → Word32 → Bool
  | .div, right => right != 0
  | .lshift, right => right.toNat < bitmapWordBits
  | .rshift, right => right.toNat < bitmapWordBits
  | _, _ => true

/-- The value that the emitted code computes. -/
def Exp.run (env : Env) : Exp → Option Word32
  | .value v => some (v.eval env)
  | .op op2 left right =>
    if op2.isDefined (right.eval env) then
      some (evalOp2 op2 (left.eval env) (right.eval env))
    else none

def runDec (env : Env) : Dec → Option Env
  | .val var exp => (exp.run env).map (Function.update env var.id)

def Accum.run (acc : Accum) (env : Env) : Option Env :=
  (extractDecls acc).1.foldlM runDec env

@[simp] theorem Value.eval_word (env : Env) (word : Word32) :
    (Value.word word).eval env = word := rfl

@[simp] theorem Exp.eval_value (env : Env) (value : Value) :
    (Exp.value value).eval env = value.eval env := rfl

@[simp] theorem Exp.eval_op (env : Env) (op : Op2) (left right : Value) :
    (Exp.op op left right).eval env =
      evalOp2 op (left.eval env) (right.eval env) := rfl

@[simp] theorem newComputationAccum_env (next : Nat) (env : Env) :
    (newComputationAccum next).env env = env := rfl

theorem commute_eval (env : Env) (op : Op2) (left right : Value)
    (hcomm : ∀ word1 word2, evalOp2 op word1 word2 = evalOp2 op word2 word1) :
    (commute op left right).eval env =
      evalOp2 op (left.eval env) (right.eval env) := by
  unfold commute
  cases compareValue left right with
  | gt => rfl
  | eq => rfl
  | lt => exact hcomm _ _

theorem normalizeAdd_eval (env : Env) (left right : Value) :
    (normalizeAdd left right).eval env = left.eval env + right.eval env := by
  have hcomm : ∀ left right, (commute .add left right).eval env =
      left.eval env + right.eval env := fun left right =>
    commute_eval env .add left right fun _ _ => BitVec.add_comm _ _
  fun_cases normalizeAdd left right <;>
    simp_all

theorem normalizeSub_eval (env : Env) (left right : Value) :
    (normalizeSub left right).eval env = left.eval env - right.eval env := by
  fun_cases normalizeSub left right <;> simp_all [evalOp2]

theorem normalizeRshift_eval (env : Env) (left right : Value) :
    (normalizeRshift left right).eval env =
      left.eval env >>> (right.eval env).toNat := by
  have hlarge : ∀ (word amount : Word32), bitmapWordBits ≤ amount.toNat →
      word >>> amount.toNat = 0 := fun word amount hle =>
    BitVec.ushiftRight_eq_zero hle
  fun_cases normalizeRshift left right <;>
    simp_all [evalOp2]

theorem ushiftRight_eq_div {amount : Nat} (hlt : amount < 32) (word : Word32) :
    word >>> amount = word / BitVec.twoPow 32 amount := by
  apply BitVec.eq_of_toNat_eq
  rw [BitVec.toNat_ushiftRight, Nat.shiftRight_eq_div_pow, BitVec.toNat_udiv,
    BitVec.toNat_twoPow_of_lt hlt]

theorem normalizeDiv_eval (env : Env) (left right : Value) :
    (normalizeDiv left right).eval env = left.eval env / right.eval env := by
  have hshift : ∀ (amount : Nat) (hlt : amount < 32),
      (normalizeRshift left (.word (BitVec.ofNat 32 amount))).eval env =
        left.eval env / BitVec.twoPow 32 amount := by
    intro amount hlt
    rw [normalizeRshift_eval, Value.eval_word, BitVec.toNat_ofNat,
      Nat.mod_eq_of_lt (Nat.lt_trans hlt (by decide)), ushiftRight_eq_div hlt]
  fun_cases normalizeDiv left right with
  | case1 word1 word2 => rfl
  | case2 left _ => simp
  | case3 left _ => exact hshift 1 (by decide)
  | case4 left _ => exact hshift 2 (by decide)
  | case5 left _ => exact hshift 3 (by decide)
  | case6 left _ => exact hshift 4 (by decide)
  | case7 => rfl
  | case8 => rfl

theorem normalizeAnd_eval (env : Env) (left right : Value) :
    (normalizeAnd left right).eval env = left.eval env &&& right.eval env := by
  have hcomm : ∀ left right, (commute .and left right).eval env =
      left.eval env &&& right.eval env := fun left right =>
    commute_eval env .and left right fun _ _ => BitVec.and_comm _ _
  have hmask : ∀ word : Word32, word &&& 4294967295#32 = word := fun word =>
    BitVec.and_allOnes
  fun_cases normalizeAnd left right <;>
    simp_all

theorem normalizeOr_eval (env : Env) (left right : Value) :
    (normalizeOr left right).eval env = left.eval env ||| right.eval env := by
  have hcomm : ∀ left right, (commute .or left right).eval env =
      left.eval env ||| right.eval env := fun left right =>
    commute_eval env .or left right fun _ _ => BitVec.or_comm _ _
  fun_cases normalizeOr left right <;>
    simp_all

theorem normalizeLshift_eval (env : Env) (left right : Value) :
    (normalizeLshift left right).eval env =
      left.eval env <<< (right.eval env).toNat := by
  have hlarge : ∀ (word amount : Word32), bitmapWordBits ≤ amount.toNat →
      word <<< amount.toNat = 0 := fun word amount hle =>
    BitVec.shiftLeft_eq_zero hle
  have hdouble : ∀ word : Word32, word + word = word <<< 1 := by
    intro word
    rw [BitVec.shiftLeft_eq_mul_twoPow]
    simp
    bv_omega
  fun_cases normalizeLshift left right <;>
    simp_all [evalOp2, normalizeAdd_eval]

/-- The simplifier keeps the value of every expression. -/
theorem normalizeExp_eval (env : Env) (exp : Exp) :
    (normalizeExp exp).eval env = exp.eval env := by
  cases exp with
  | value value => rfl
  | op op left right =>
    cases op with
    | add => exact normalizeAdd_eval env left right
    | sub => exact normalizeSub_eval env left right
    | div => exact normalizeDiv_eval env left right
    | and => exact normalizeAnd_eval env left right
    | or => exact normalizeOr_eval env left right
    | lshift => exact normalizeLshift_eval env left right
    | rshift => exact normalizeRshift_eval env left right

/-- Operations on constants are folded. -/
theorem normalizeExp_words (op : Op2) (word1 word2 : Word32) :
    normalizeExp (.op op (.word word1) (.word word2)) =
      .value (.word (evalOp2 op word1 word2)) := by
  cases op <;> rfl

end RecordLayout

end SmlSharp
