/-
What one computation does: its value in the environment after the
declarations, which variables the result can mention, and that nothing named
before changes.  No key of the map compares as equal to any expression, so no
earlier result is ever used again.
-/
import SmlSharp.RecordLayout.Calc

namespace SmlSharp

namespace RecordLayout

/-- The variable of the value, if any, was made before the bound. -/
def Value.Known (bound : Nat) : Value → Prop
  | .var x => x.id < bound
  | .word _ => True

/-- The variable of the value, if any, was made at the bound or later. -/
def Value.Fresh (bound : Nat) : Value → Prop
  | .var x => bound ≤ x.id
  | .word _ => True

/-- The two values are not the same variable. -/
def Separate (left right : Value) : Prop :=
  ∀ x y, left = .var x → right = .var y → x.id ≠ y.id

@[simp] theorem Value.known_word (bound : Nat) (word : Word32) :
    (Value.word word).Known bound := trivial

@[simp] theorem Value.fresh_word (bound : Nat) (word : Word32) :
    (Value.word word).Fresh bound := trivial

variable {value : Value} {acc : Accum} {op : Op2}

theorem Value.Known.mono {low high : Nat}
    (hknown : value.Known low) (hle : low ≤ high) : value.Known high := by
  cases value with
  | var x => exact Nat.lt_of_lt_of_le hknown hle
  | word n => trivial

theorem Value.Fresh.mono {low high : Nat}
    (hfresh : value.Fresh high) (hle : low ≤ high) : value.Fresh low := by
  cases value with
  | var x => exact Nat.le_trans hle hfresh
  | word n => trivial

theorem separate_of_known_fresh {left right : Value} {bound : Nat}
    (hleft : left.Known bound) (hright : right.Fresh bound) :
    Separate left right := by
  intro x y hx hy
  subst hx hy
  exact Nat.ne_of_lt (Nat.lt_of_lt_of_le hleft hright)

theorem separate_of_fresh_known {left right : Value} {bound : Nat}
    (hleft : left.Fresh bound) (hright : right.Known bound) :
    Separate left right := by
  intro x y hx hy
  subst hx hy
  exact (Nat.ne_of_lt (Nat.lt_of_lt_of_le hright hleft)).symm

theorem separate_word_right (left : Value) (word : Word32) :
    Separate left (.word word) := by
  intro x y _ hy
  cases hy

theorem separate_word_left (word : Word32) (right : Value) :
    Separate (.word word) right := by
  intro x y hx
  cases hx

theorem compareValue_ne_eq {left right : Value} (hsep : Separate left right)
    (hwords : ∀ word1 word2, ¬ (left = .word word1 ∧ right = .word word2)) :
    compareValue left right ≠ .eq := by
  cases left with
  | var x =>
    cases right with
    | var y =>
      intro heq
      exact hsep x y rfl rfl (Nat.compare_eq_eq.mp heq)
    | word n => exact fun heq => nomatch heq
  | word m =>
    cases right with
    | var y => exact fun heq => nomatch heq
    | word n => exact absurd ⟨rfl, rfl⟩ (hwords m n)

/-- The keys of the map have operands that compare as different. -/
def Accum.Ok (acc : Accum) : Prop :=
  ∀ entry ∈ acc.expMap.1.listItemsi, ∀ op left right,
    entry.1 = .op op left right → compareValue left right ≠ .eq

theorem newComputationAccum_ok (next : Nat) : (newComputationAccum next).Ok := by
  intro entry hentry
  exact absurd hentry List.not_mem_nil

theorem compareExp_ne_eq (op : Op2) (left right : Value) {key : Exp}
    (hkey : ∀ op left right, key = .op op left right →
      compareValue left right ≠ .eq) :
    compareExp (.op op left right) key ≠ .eq := by
  cases key with
  | value v => exact fun heq => nomatch heq
  | op op2 left2 right2 =>
    have hne := hkey op2 left2 right2 rfl
    show compareOp2 op left op2 left2 right2 ≠ .eq
    unfold compareOp2
    cases compare op.order op2.order with
    | lt => exact fun heq => nomatch heq
    | gt => exact fun heq => nomatch heq
    | eq =>
      cases compareValue left left2 with
      | lt => exact fun heq => nomatch heq
      | gt => exact fun heq => nomatch heq
      | eq => exact hne

/-- The map never has an answer. -/
theorem Accum.Ok.find_eq_none (hok : acc.Ok) (op : Op2)
    (left right : Value) : acc.find (.op op left right) = none := by
  cases hfind : acc.find (.op op left right) with
  | none => rfl
  | some var =>
    obtain ⟨key, hmem, heq⟩ := BinaryMap.mem_of_find hfind
    exact absurd heq (compareExp_ne_eq op left right (hok (key, var) hmem))

/-- Later declarations leave what has a name as it is. -/
structure Extends (acc acc' : Accum) : Prop where
  ok : acc'.Ok
  le : acc.next ≤ acc'.next
  env : ∀ (env : Env) (id : Nat), id < acc.next → acc'.env env id = acc.env env id

theorem Extends.refl (hok : acc.Ok) : Extends acc acc :=
  ⟨hok, Nat.le_refl _, fun _ _ _ => rfl⟩

theorem Extends.trans {acc1 acc2 acc3 : Accum} (hfirst : Extends acc1 acc2)
    (hsecond : Extends acc2 acc3) : Extends acc1 acc3 where
  ok := hsecond.ok
  le := Nat.le_trans hfirst.le hsecond.le
  env := by
    intro env id hid
    rw [hsecond.env env id (Nat.lt_of_lt_of_le hid hfirst.le)]
    exact hfirst.env env id hid

theorem Extends.eval {acc acc' : Accum} (hext : Extends acc acc') {value : Value}
    (hknown : value.Known acc.next) (env : Env) :
    value.eval (acc'.env env) = value.eval (acc.env env) := by
  cases value with
  | var x => exact hext.env env x.id hknown
  | word n => rfl

theorem Extends.known {acc' : Accum} (hext : Extends acc acc')
    (hknown : value.Known acc.next) : value.Known acc'.next :=
  hknown.mono hext.le

theorem declare_env (acc : Accum) (exp : Exp) (env : Env) :
    (acc.declare exp).2.env env =
      Function.update (acc.env env) acc.next (exp.eval (acc.env env)) := by
  simp [Accum.env, Accum.declare, extractDecls, evalDecs, evalDec]

theorem declare_extends (hok : acc.Ok)
    {left right : Value} (hne : compareValue left right ≠ .eq) :
    Extends acc (acc.declare (.op op left right)).2 where
  ok := by
    intro entry hentry op' left' right' heq
    rcases BinaryMap.mem_insertCounted hentry with rfl | hold
    · cases heq
      exact hne
    · exact hok entry hold op' left' right' heq
  le := Nat.le_succ acc.next
  env := by
    intro env id hid
    rw [declare_env, Function.update_of_ne (Nat.ne_of_lt hid)]

/-- The two ways a computation goes. -/
theorem compute_cases (hok : acc.Ok) (op : Op2) (left right : Value) :
    (∃ value, normalizeExp (.op op left right) = .value value ∧
      compute acc (.op op left right) = (value, acc)) ∨
    ((∀ value, normalizeExp (.op op left right) ≠ .value value) ∧
      compute acc (.op op left right) = acc.declare (.op op left right)) := by
  unfold compute
  cases hnormal : normalizeExp (.op op left right) with
  | value value => exact Or.inl ⟨value, rfl, rfl⟩
  | op op' left' right' =>
    right
    constructor
    · intro value heq
      cases heq
    · simp only [hok.find_eq_none]

theorem commute_ne_value (op : Op2) (left right value : Value) :
    commute op left right ≠ .value value := by
  unfold commute
  cases compareValue left right <;> simp

theorem normalizeAdd_value {left right : Value}
    (hvalue : normalizeAdd left right = .value value) :
    left = value ∨ right = value ∨ ∃ word, .word word = value := by
  revert hvalue
  fun_cases normalizeAdd left right <;> intro hvalue <;>
    first
      | exact absurd hvalue (commute_ne_value _ _ _ _)
      | (cases hvalue; simp)

theorem normalizeRshift_value {left right : Value}
    (hvalue : normalizeRshift left right = .value value) :
    left = value ∨ ∃ word, .word word = value := by
  revert hvalue
  fun_cases normalizeRshift left right <;> intro hvalue <;> cases hvalue <;> simp

/-- A simplified expression is a constant or one of its operands. -/
theorem normalizeExp_value {left right : Value}
    (hnormal : normalizeExp (.op op left right) = .value value) :
    left = value ∨ right = value ∨ ∃ word, .word word = value := by
  have hshifted : ∀ left amount right,
      normalizeRshift left amount = .value value →
        left = value ∨ right = value ∨ ∃ word, .word word = value := by
    intro left amount right hvalue
    rcases normalizeRshift_value hvalue with heq | hword
    · exact Or.inl heq
    · exact Or.inr (Or.inr hword)
  revert hnormal
  cases op with
  | add => exact normalizeAdd_value
  | sub =>
    show normalizeSub left right = .value value → _
    fun_cases normalizeSub left right <;> intro hvalue <;> cases hvalue <;> simp
  | div =>
    show normalizeDiv left right = .value value → _
    fun_cases normalizeDiv left right with
    | case3 | case4 | case5 | case6 => exact hshifted _ _ _
    | _ =>
      intro hvalue
      cases hvalue <;> simp
  | and =>
    show normalizeAnd left right = .value value → _
    fun_cases normalizeAnd left right <;> intro hvalue <;>
      first
        | exact absurd hvalue (commute_ne_value _ _ _ _)
        | (cases hvalue; simp)
  | or =>
    show normalizeOr left right = .value value → _
    fun_cases normalizeOr left right <;> intro hvalue <;>
      first
        | exact absurd hvalue (commute_ne_value _ _ _ _)
        | (cases hvalue; simp)
  | lshift =>
    show normalizeLshift left right = .value value → _
    fun_cases normalizeLshift left right with
    | case5 left =>
      intro hvalue
      rcases normalizeAdd_value hvalue with heq | heq | hword
      · exact Or.inl heq
      · exact Or.inl heq
      · exact Or.inr (Or.inr hword)
    | _ =>
      intro hvalue
      cases hvalue <;> simp
  | rshift => exact hshifted left right right

@[simp] theorem compute_words (acc : Accum) (op : Op2) (word1 word2 : Word32) :
    compute acc (.op op (.word word1) (.word word2)) =
      (.word (evalOp2 op word1 word2), acc) := by
  unfold compute
  rw [normalizeExp_words]

section Compute

variable {acc : Accum} {left right : Value}

theorem compute_extends (op : Op2) (hok : acc.Ok) (hsep : Separate left right) :
    Extends acc (compute acc (.op op left right)).2 := by
  rcases compute_cases hok op left right with
    ⟨value, _, hcompute⟩ | ⟨hnot, hcompute⟩
  · rw [hcompute]
    exact Extends.refl hok
  · rw [hcompute]
    apply declare_extends hok
    apply compareValue_ne_eq hsep
    rintro word1 word2 ⟨rfl, rfl⟩
    exact hnot _ (normalizeExp_words op word1 word2)

theorem compute_known (op : Op2) (hok : acc.Ok) (hleft : left.Known acc.next)
    (hright : right.Known acc.next) : (compute acc (.op op left right)).1.Known
      (compute acc (.op op left right)).2.next := by
  rcases compute_cases hok op left right with
    ⟨value, hnormal, hcompute⟩ | ⟨_, hcompute⟩
  · rw [hcompute]
    rcases normalizeExp_value hnormal with rfl | rfl | ⟨word, rfl⟩
    · exact hleft
    · exact hright
    · trivial
  · rw [hcompute]
    exact Nat.lt_succ_self acc.next

/-- The value of a computation, in the environment after it. -/
theorem compute_eval (op : Op2) (left right : Value) (hok : acc.Ok) (env : Env) :
    (compute acc (.op op left right)).1.eval
        ((compute acc (.op op left right)).2.env env) =
      evalOp2 op (left.eval (acc.env env)) (right.eval (acc.env env)) := by
  rcases compute_cases hok op left right with
    ⟨value, hnormal, hcompute⟩ | ⟨_, hcompute⟩
  · rw [hcompute]
    have heval := normalizeExp_eval (acc.env env) (.op op left right)
    rw [hnormal] at heval
    exact heval
  · rw [hcompute, declare_env]
    exact Function.update_self acc.next _ _

/-- The result is a new variable unless the expression simplifies to a value
that is already there. -/
theorem compute_fresh_of (hok : acc.Ok)
    (hvalue : ∀ value, normalizeExp (.op op left right) = .value value →
      value.Fresh acc.next) :
    (compute acc (.op op left right)).1.Fresh acc.next := by
  rcases compute_cases hok op left right with
    ⟨value, hnormal, hcompute⟩ | ⟨_, hcompute⟩
  · rw [hcompute]
    exact hvalue value hnormal
  · rw [hcompute]
    exact Nat.le_refl acc.next

theorem compute_fresh (op : Op2) {bound : Nat} (hok : acc.Ok) (hle : bound ≤ acc.next)
    (hleft : left.Fresh bound) (hright : right.Fresh bound) :
    (compute acc (.op op left right)).1.Fresh bound := by
  rcases compute_cases hok op left right with
    ⟨value, hnormal, hcompute⟩ | ⟨_, hcompute⟩
  · rw [hcompute]
    rcases normalizeExp_value hnormal with rfl | rfl | ⟨word, rfl⟩
    · exact hleft
    · exact hright
    · trivial
  · rw [hcompute]
    exact hle

/-- A result whose value is known in the environment after it. -/
structure Computed (acc : Accum) (env : Env) (word : Word32) (result : Value × Accum) :
    Prop where
  ext : Extends acc result.2
  known : result.1.Known result.2.next
  eval : result.1.eval (result.2.env env) = word

theorem compute_computed (op : Op2) (hok : acc.Ok) (env : Env) (hsep : Separate left right)
    (hleft : left.Known acc.next) (hright : right.Known acc.next) :
    Computed acc env (evalOp2 op (left.eval (acc.env env)) (right.eval (acc.env env)))
      (compute acc (.op op left right)) :=
  ⟨compute_extends op hok hsep, compute_known op hok hleft hright,
    compute_eval op left right hok env⟩

/-! ### Undefined operations -/

/-- Every declaration computes a value. -/
def Accum.Runs (acc : Accum) (env : Env) : Prop := acc.run env = some (acc.env env)

theorem newComputationAccum_runs (next : Nat) (env : Env) :
    (newComputationAccum next).Runs env := rfl

theorem declare_runs {exp : Exp} {env : Env} (hruns : acc.Runs env)
    (hexp : exp.run (acc.env env) = some (exp.eval (acc.env env))) :
    (acc.declare exp).2.Runs env := by
  have hdecs : (acc.declare exp).2.run env = acc.run env >>= fun env' =>
      runDec env' (.val ⟨acc.next, []⟩ exp) := by
    simp [Accum.run, Accum.declare, extractDecls]
  rw [Accum.Runs, hdecs, hruns, declare_env]
  simp [runDec, hexp]

/-- Only an operation that is declared has to be defined. -/
theorem compute_runs {env : Env} (hruns : acc.Runs env)
    (hdefined : (∀ value, normalizeExp (.op op left right) ≠ .value value) →
      op.isDefined (right.eval (acc.env env)) = true) :
    (compute acc (.op op left right)).2.Runs env := by
  unfold compute
  split
  · exact hruns
  · next hnormal =>
    split
    · exact hruns
    · apply declare_runs hruns
      rw [Exp.run, if_pos (hdefined (by simp [hnormal]))]
      rfl

end Compute

end RecordLayout

end SmlSharp
