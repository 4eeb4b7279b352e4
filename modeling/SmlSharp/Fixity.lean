/-
Resolution of infix expressions: a shift-reduce automaton in which application
is an implicit strongest operator, against the trees in which every operator
binds by precedence and associativity.
-/
import Mathlib.Data.List.Basic
import Mathlib.Order.Basic

namespace SmlSharp

namespace Fixity

inductive Fix where
  | infixOp (n : Int)
  | infixrOp (n : Int)
  | nonfix
deriving DecidableEq

inductive Exp (α L : Type) where
  | app (fn arg : Exp α L) (loc : L)
  | op2 (op left right : Exp α L) (loc : L)
  | term (x : α) (loc : L)

inductive ParseError where
  | conflict
  | beginWithInfix
  | endWithInfix
deriving DecidableEq

inductive Action where
  | shift
  | reduce
  | conflict
deriving DecidableEq

/-- The decision between the operator on the stack and the next one; a nonfix
term raises a bug. -/
def action : Fix → Fix → Option Action
  | .infixOp x, .infixOp y => some (if x < y then .shift else .reduce)
  | .infixrOp x, .infixrOp y => some (if x ≤ y then .shift else .reduce)
  | .infixOp x, .infixrOp y =>
    some (if x = y then .conflict else if x < y then .shift else .reduce)
  | .infixrOp x, .infixOp y =>
    some (if x = y then .conflict else if x < y then .shift else .reduce)
  | .nonfix, _ => none
  | _, .nonfix => none

variable {α L : Type}

structure Item (α L : Type) where
  fix : Fix
  term : α
  loc : L

abbrev Stack (α L : Type) := List (Fix × Exp α L)

/-- A reported error: its kind, the term and its location. -/
abbrev Report (α L : Type) := ParseError × α × L

inductive Failure where
  | bug (message : String)
  | outOfFuel
deriving DecidableEq

def Exp.location : Exp α L → L
  | .app _ _ l => l
  | .op2 _ _ _ l => l
  | .term _ l => l

section Automaton

variable (mergeLocs : L → L → L)

def app (x y : Exp α L) : Exp α L :=
  .app x y (mergeLocs x.location y.location)

def op2 (f x y : Exp α L) : Exp α L :=
  .op2 f x y (mergeLocs x.location y.location)

/-- What one turn of the loop does: go on with another stack and input, perhaps
after reporting an error, or stop. -/
inductive Turn (α L : Type) where
  | next (stack : Stack α L) (input : List (Item α L))
      (report : Option (Report α L))
  | done (exp : Exp α L)
  | bug (message : String)

def turn : Stack α L → List (Item α L) → Turn α L
  | (.nonfix, y) :: (.nonfix, x) :: t, input =>
    .next ((.nonfix, app mergeLocs x y) :: t) input none
  | stack, ⟨.nonfix, x, l⟩ :: t => .next ((.nonfix, .term x l) :: stack) t none
  | stack@((.nonfix, z) :: (a, y) :: (.nonfix, x) :: t),
      input@(⟨b, w, l⟩ :: s) =>
      match action a b with
      | some .shift => .next ((b, .term w l) :: stack) s none
      | some .reduce =>
        .next ((.nonfix, op2 mergeLocs y x z) :: t) input none
      | some .conflict =>
        .next ((b, .term w l) :: stack) s (some (.conflict, w, l))
      | none => .bug "action"
  | (.nonfix, z) :: (_, y) :: (.nonfix, x) :: t, [] =>
    .next ((.nonfix, op2 mergeLocs y x z) :: t) [] none
  | stack@((.nonfix, _) :: _), ⟨a, y, l⟩ :: s =>
    .next ((a, .term y l) :: stack) s none
  | stack, ⟨_, x, l⟩ :: s =>
    .next ((.nonfix, .term x l) :: stack) s (some (.beginWithInfix, x, l))
  | [(.nonfix, x)], [] => .done x
  | (_, .term x l) :: t, [] =>
    .next ((.nonfix, .term x l) :: t) [] (some (.endWithInfix, x, l))
  | (_, _) :: _, [] => .bug "Fixity.parse: 1"
  | [], [] => .bug "Fixity.parse: 2"

/-- The loop, with a bound on its turns. -/
def loop : Nat → Stack α L → List (Item α L) →
    Except Failure (Exp α L × List (Report α L))
  | 0, _, _ => .error .outOfFuel
  | fuel + 1, stack, input =>
    match turn mergeLocs stack input with
    | .next stack input report => do
        let (exp, reports) ← loop fuel stack input
        .ok (exp, report.toList ++ reports)
    | .done exp => .ok (exp, [])
    | .bug message => .error (.bug message)

end Automaton

/-- Every turn consumes an item of weight four, or shrinks the stack, whose
entries weigh two (and three for an operator on top). -/
def turns (stack : Stack α L) (input : List (Item α L)) : Nat :=
  4 * input.length + 2 * stack.length +
    match stack with
    | (.nonfix, _) :: _ => 0
    | [] => 0
    | _ :: _ => 1

def parse (mergeLocs : L → L → L) (terms : List (Item α L)) :
    Except Failure (Exp α L × List (Report α L)) :=
  loop mergeLocs (turns [] terms + 1) [] terms

/-! ### The runs of the automaton -/

/-- A stack that waits for an operand: operators over their left operands. -/
inductive Below : Stack α L → Prop where
  | nil : Below []
  | op {a : Fix} {y : α} {l : L} {x : Exp α L} {t : Stack α L} :
      a ≠ .nonfix → Below t → Below ((a, .term y l) :: (.nonfix, x) :: t)

/-- The stacks that the loop meets. -/
inductive Shaped : Stack α L → List (Item α L) → Prop where
  | waiting {t : Stack α L} {input : List (Item α L)} :
      Below t → (t ≠ [] ∨ input ≠ []) → Shaped t input
  | operand {z : Exp α L} {t : Stack α L} {input : List (Item α L)} :
      Below t → Shaped ((.nonfix, z) :: t) input
  | adjacent {x y : Exp α L} {t : Stack α L} {input : List (Item α L)} :
      Below t → Shaped ((.nonfix, y) :: (.nonfix, x) :: t) input

variable {a b : Fix} {stack stack' : Stack α L} {input input' : List (Item α L)} {exp : Exp α L}
  {reports : List (Report α L)} {c outer : Fix} {inners rest : List Fix} {t : Stack α L}
  {above : Option Fix} {z : Exp α L} {before : List Fix}

section Runs

variable (mergeLocs : L → L → L)

/-- Everything that a turn can do on the stacks that the loop meets. -/
inductive Rule : Stack α L → List (Item α L) → Stack α L → List (Item α L) →
    Option (Report α L) → Prop where
  | apply {x y : Exp α L} {t : Stack α L} {input : List (Item α L)} :
      Below t → Rule ((.nonfix, y) :: (.nonfix, x) :: t) input
        ((.nonfix, app mergeLocs x y) :: t) input none
  | operand {x : α} {l : L} {t : Stack α L} {s : List (Item α L)} :
      Below t →
      Rule t (⟨.nonfix, x, l⟩ :: s) ((.nonfix, .term x l) :: t) s none
  | juxtapose {z : Exp α L} {x : α} {l : L} {t : Stack α L}
      {s : List (Item α L)} : Below t →
      Rule ((.nonfix, z) :: t) (⟨.nonfix, x, l⟩ :: s)
        ((.nonfix, .term x l) :: (.nonfix, z) :: t) s none
  | first {z : Exp α L} {b : Fix} {w : α} {l : L} {s : List (Item α L)} :
      b ≠ .nonfix → Rule [(.nonfix, z)] (⟨b, w, l⟩ :: s)
        [(b, .term w l), (.nonfix, z)] s none
  | shift {z x : Exp α L} {a b : Fix} {y w : α} {k l : L} {t : Stack α L}
      {s : List (Item α L)} : Below t → a ≠ .nonfix → b ≠ .nonfix →
      action a b = some .shift →
      Rule ((.nonfix, z) :: (a, .term y k) :: (.nonfix, x) :: t)
        (⟨b, w, l⟩ :: s)
        ((b, .term w l) :: (.nonfix, z) :: (a, .term y k) :: (.nonfix, x) :: t)
        s none
  | conflict {z x : Exp α L} {a b : Fix} {y w : α} {k l : L} {t : Stack α L}
      {s : List (Item α L)} : Below t → a ≠ .nonfix → b ≠ .nonfix →
      action a b = some .conflict →
      Rule ((.nonfix, z) :: (a, .term y k) :: (.nonfix, x) :: t)
        (⟨b, w, l⟩ :: s)
        ((b, .term w l) :: (.nonfix, z) :: (a, .term y k) :: (.nonfix, x) :: t)
        s (some (.conflict, w, l))
  | reduce {z x : Exp α L} {a b : Fix} {y w : α} {k l : L} {t : Stack α L}
      {s : List (Item α L)} : Below t → a ≠ .nonfix → b ≠ .nonfix →
      action a b = some .reduce →
      Rule ((.nonfix, z) :: (a, .term y k) :: (.nonfix, x) :: t)
        (⟨b, w, l⟩ :: s)
        ((.nonfix, op2 mergeLocs (.term y k) x z) :: t) (⟨b, w, l⟩ :: s) none
  | close {z x : Exp α L} {a : Fix} {y : α} {k : L} {t : Stack α L} :
      Below t → a ≠ .nonfix →
      Rule ((.nonfix, z) :: (a, .term y k) :: (.nonfix, x) :: t) []
        ((.nonfix, op2 mergeLocs (.term y k) x z) :: t) [] none
  | beginWith {b : Fix} {w : α} {l : L} {t : Stack α L}
      {s : List (Item α L)} : Below t → b ≠ .nonfix →
      Rule t (⟨b, w, l⟩ :: s) ((.nonfix, .term w l) :: t) s
        (some (.beginWithInfix, w, l))
  | endWith {x : Exp α L} {a : Fix} {y : α} {l : L} {t : Stack α L} :
      Below t → a ≠ .nonfix →
      Rule ((a, .term y l) :: (.nonfix, x) :: t) []
        ((.nonfix, .term y l) :: (.nonfix, x) :: t) []
        (some (.endWithInfix, y, l))

variable {mergeLocs}

theorem action_isSome (ha : a ≠ .nonfix) (hb : b ≠ .nonfix) :
    ∃ decision, action a b = some decision := by
  cases a <;> cases b <;> simp_all [action]

/-- A turn takes the stacks of the loop to such stacks by one of the rules, and
comes closer to the end. -/
theorem Rule.shaped {report : Option (Report α L)}
    (hrule : Rule mergeLocs stack input stack' input' report) :
    Shaped stack' input' ∧ turns stack' input' < turns stack input := by
  cases hrule with
  | apply hbelow => exact ⟨.operand hbelow, by simp [turns]⟩
  | operand hbelow =>
    refine ⟨.operand hbelow, ?_⟩
    cases hbelow <;> simp [turns] <;> omega
  | juxtapose hbelow => exact ⟨.adjacent hbelow, by simp [turns]; omega⟩
  | @first z b w l s hb =>
    refine ⟨.waiting (.op hb .nil) (by simp), ?_⟩
    cases b <;> simp_all [turns] <;> omega
  | @shift z x a b y w k l t s hbelow ha hb haction =>
    refine ⟨.waiting (.op hb (.op ha hbelow)) (by simp), ?_⟩
    cases b <;> simp_all [turns] <;> omega
  | @conflict z x a b y w k l t s hbelow ha hb haction =>
    refine ⟨.waiting (.op hb (.op ha hbelow)) (by simp), ?_⟩
    cases b <;> simp_all [turns] <;> omega
  | reduce hbelow => exact ⟨.operand hbelow, by simp [turns]⟩
  | close hbelow => exact ⟨.operand hbelow, by simp [turns]⟩
  | beginWith hbelow hb =>
    refine ⟨.operand hbelow, ?_⟩
    cases hbelow <;> simp [turns] <;> omega
  | @endWith x a y l t hbelow ha =>
    refine ⟨.adjacent hbelow, ?_⟩
    cases a <;> simp_all [turns]

theorem Rule.turn_eq {report : Option (Report α L)}
    (hrule : Rule mergeLocs stack input stack' input' report) :
    turn mergeLocs stack input = .next stack' input' report := by
  cases hrule with
  | apply hbelow => simp [turn]
  | operand hbelow => cases hbelow <;> simp_all [turn]
  | juxtapose hbelow => cases hbelow <;> simp_all [turn]
  | @first z b w l s hb => cases b <;> simp_all [turn]
  | @shift z x a b y w k l t s hbelow ha hb haction =>
    cases a <;> cases b <;> simp_all [turn]
  | @conflict z x a b y w k l t s hbelow ha hb haction =>
    cases a <;> cases b <;> simp_all [turn]
  | @reduce z x a b y w k l t s hbelow ha hb haction =>
    cases a <;> cases b <;> simp_all [turn]
  | @close z x a y k t hbelow ha =>
    cases a <;> simp_all [turn]
  | @beginWith b w l t s hbelow hb =>
    cases hbelow <;> cases b <;> simp_all [turn]
  | @endWith x a y l t hbelow ha =>
    cases a <;> simp_all [turn]

/-- On the stacks of the loop a rule applies, unless the loop is done. -/
theorem Shaped.progress (mergeLocs : L → L → L) (hshaped : Shaped stack input) :
    (∃ exp, stack = [(.nonfix, exp)] ∧ input = []) ∨ ∃ stack' input' report,
        Rule mergeLocs stack input stack' input' report := by
  cases hshaped with
  | adjacent hbelow => exact Or.inr ⟨_, _, _, .apply hbelow⟩
  | waiting hbelow hne =>
    cases input with
    | nil =>
      cases hbelow with
      | nil => simp at hne
      | op ha hbelow => exact Or.inr ⟨_, _, _, .endWith hbelow ha⟩
    | cons item s =>
      obtain ⟨b, w, l⟩ := item
      by_cases hb : b = .nonfix
      · subst hb
        exact Or.inr ⟨_, _, _, .operand hbelow⟩
      · exact Or.inr ⟨_, _, _, .beginWith hbelow hb⟩
  | operand hbelow =>
    cases input with
    | nil =>
      cases hbelow with
      | nil => exact Or.inl ⟨_, rfl, rfl⟩
      | op ha hbelow => exact Or.inr ⟨_, _, _, .close hbelow ha⟩
    | cons item s =>
      obtain ⟨b, w, l⟩ := item
      by_cases hb : b = .nonfix
      · subst hb
        exact Or.inr ⟨_, _, _, .juxtapose hbelow⟩
      · cases hbelow with
        | nil => exact Or.inr ⟨_, _, _, .first hb⟩
        | op ha hbelow =>
          obtain ⟨decision, haction⟩ := action_isSome ha hb
          cases decision with
          | shift => exact Or.inr ⟨_, _, _, .shift hbelow ha hb haction⟩
          | reduce =>
            exact Or.inr ⟨_, _, _, .reduce hbelow ha hb haction⟩
          | conflict =>
            exact Or.inr ⟨_, _, _, .conflict hbelow ha hb haction⟩

variable (mergeLocs)

/-- A run of the loop to its end, with everything that it reports. -/
inductive Run : Stack α L → List (Item α L) → Exp α L →
    List (Report α L) → Prop where
  | done (exp : Exp α L) : Run [(.nonfix, exp)] [] exp []
  | step {stack stack' : Stack α L} {input input' : List (Item α L)}
      {report : Option (Report α L)} {exp : Exp α L}
      {reports : List (Report α L)} :
      Rule mergeLocs stack input stack' input' report →
      Run stack' input' exp reports →
      Run stack input exp (report.toList ++ reports)

variable {mergeLocs}

theorem Shaped.run (mergeLocs : L → L → L) (hshaped : Shaped stack input) :
    ∃ exp reports, Run mergeLocs stack input exp reports := by
  induction hsize : turns stack input using Nat.strongRecOn generalizing stack input with
  | _ size ih =>
    rcases hshaped.progress mergeLocs with
      ⟨exp, rfl, rfl⟩ | ⟨stack', input', report, hrule⟩
    · exact ⟨exp, [], .done exp⟩
    · obtain ⟨hshaped', hless⟩ := hrule.shaped
      obtain ⟨exp, reports, hrun⟩ := ih _ (hsize ▸ hless) hshaped' rfl
      exact ⟨exp, _, .step hrule hrun⟩

theorem Run.loop_eq (hrun : Run mergeLocs stack input exp reports) {fuel : Nat}
    (hfuel : turns stack input < fuel) :
    loop mergeLocs fuel stack input = .ok (exp, reports) := by
  induction hrun generalizing fuel with
  | done exp =>
    obtain ⟨fuel, rfl⟩ := Nat.exists_eq_add_one_of_ne_zero (by omega : fuel ≠ 0)
    simp [loop, turn]
  | step hrule _ ih =>
    obtain ⟨-, hless⟩ := hrule.shaped
    obtain ⟨fuel, rfl⟩ := Nat.exists_eq_add_one_of_ne_zero (by omega : fuel ≠ 0)
    rw [loop, hrule.turn_eq]
    simp only [ih (Nat.lt_of_lt_of_le hless (Nat.le_of_lt_succ hfuel)), bind,
      Except.bind]

theorem Run.unique {exp' : Exp α L} {reports' : List (Report α L)}
    (hrun : Run mergeLocs stack input exp reports)
    (hrun' : Run mergeLocs stack input exp' reports') :
    exp = exp' ∧ reports = reports' := by
  have heq := hrun.loop_eq (Nat.lt_succ_self _)
  have heq' := hrun'.loop_eq (Nat.lt_succ_self _)
  rw [heq] at heq'
  simpa using heq'

end Runs

/-! ### The terms stay in their order -/

/-- The terms of a tree, from left to right. -/
def Exp.yield : Exp α L → List (α × L)
  | .app fn arg _ => fn.yield ++ arg.yield
  | .op2 op left right _ => left.yield ++ op.yield ++ right.yield
  | .term x l => [(x, l)]

def stackYield : Stack α L → List (α × L)
  | [] => []
  | (_, exp) :: t => stackYield t ++ exp.yield

def inputYield (input : List (Item α L)) : List (α × L) :=
  input.map fun item => (item.term, item.loc)

variable {mergeLocs : L → L → L}

attribute [local simp] Exp.yield stackYield inputYield

theorem Rule.yield {stack stack' : Stack α L} {input input' : List (Item α L)}
    {report : Option (Report α L)}
    (hrule : Rule mergeLocs stack input stack' input' report) :
    stackYield stack' ++ inputYield input' =
      stackYield stack ++ inputYield input := by
  cases hrule <;> simp [app, op2]

theorem Run.yield {stack : Stack α L} {input : List (Item α L)}
    {exp : Exp α L} {reports : List (Report α L)}
    (hrun : Run mergeLocs stack input exp reports) :
    exp.yield = stackYield stack ++ inputYield input := by
  induction hrun with
  | done exp => simp
  | step hrule _ ih => rw [ih, hrule.yield]

/-! ### The trees that precedence and associativity allow -/

def Fix.isInfix (fix : Fix) : Bool :=
  fix != .nonfix

def Fix.precedence : Fix → Int
  | .infixOp n => n
  | .infixrOp n => n
  | .nonfix => 0

/-- An operator at the top of the left operand binds tighter than the operator
to its right. -/
def BindsLeft (inner outer : Fix) : Prop :=
  outer.precedence < inner.precedence ∨
    ∃ n, inner = .infixOp n ∧ outer = .infixOp n

/-- An operator at the top of the right operand binds tighter than the operator
to its left. -/
def BindsRight (outer inner : Fix) : Prop :=
  outer.precedence < inner.precedence ∨
    ∃ n, outer = .infixrOp n ∧ inner = .infixrOp n

/-- Infix expressions: applications of a head to arguments, and operators. -/
inductive Tree (α L : Type) where
  | operand (head : α × L) (args : List (α × L))
  | infixed (op : Fix) (x : α) (loc : L) (left right : Tree α L)

namespace Tree

/-- The operator at the top of a tree. -/
def top : Tree α L → Option Fix
  | operand _ _ => none
  | infixed op _ _ _ _ => some op

/-- Every operator binds its neighbours: by higher precedence, and at equal
precedence to the left for INFIX and to the right for INFIXR. -/
def Resolved : Tree α L → Prop
  | operand _ _ => True
  | infixed op _ _ left right =>
    op ≠ .nonfix ∧ left.Resolved ∧ right.Resolved ∧
      (∀ inner ∈ left.top, BindsLeft inner op) ∧
      ∀ inner ∈ right.top, BindsRight op inner

/-- The items that a tree is written with. -/
def items : Tree α L → List (Item α L)
  | operand head args =>
    ⟨.nonfix, head.1, head.2⟩ :: args.map fun arg => ⟨.nonfix, arg.1, arg.2⟩
  | infixed op x loc left right => left.items ++ ⟨op, x, loc⟩ :: right.items

def toExp (mergeLocs : L → L → L) : Tree α L → Exp α L
  | operand head args =>
    args.foldl (fun fn arg => app mergeLocs fn (.term arg.1 arg.2))
      (.term head.1 head.2)
  | infixed _ x loc left right =>
    op2 mergeLocs (.term x loc) (left.toExp mergeLocs)
      (right.toExp mergeLocs)

end Tree

/-- Neighbouring nonfix terms, grouped. -/
inductive Group (α L : Type) where
  | operand (head : α × L) (args : List (α × L))
  | operator (fix : Fix) (x : α) (loc : L)

def group : List (Item α L) → List (Group α L)
  | [] => []
  | ⟨.nonfix, x, l⟩ :: rest =>
    match group rest with
    | .operand head args :: groups => .operand (x, l) (head :: args) :: groups
    | groups => .operand (x, l) [] :: groups
  | ⟨fix, x, l⟩ :: rest => .operator fix x l :: group rest

/-- Operands and operators alternate, with operands at both ends. -/
inductive Alternating : List (Group α L) → Prop where
  | one (head : α × L) (args : List (α × L)) :
      Alternating [.operand head args]
  | cons (head : α × L) (args : List (α × L)) (fix : Fix) (x : α) (l : L)
      {groups : List (Group α L)} : Alternating groups →
      Alternating (.operand head args :: .operator fix x l :: groups)

def operators (input : List (Item α L)) : List Fix :=
  (input.map Item.fix).filter Fix.isInfix

/-- One is INFIX and the other INFIXR. -/
def Mixed : Fix → Fix → Prop
  | .infixOp _, .infixrOp _ => True
  | .infixrOp _, .infixOp _ => True
  | _, _ => False

/-- The next operator that does not bind tighter does not mix with `op` at the
same precedence. -/
def Compatible (op : Fix) : List Fix → Prop
  | [] => True
  | next :: rest =>
    if op.precedence < next.precedence then Compatible op rest
    else ¬ (next.precedence = op.precedence ∧ Mixed op next)

/-- No two operators of the same precedence that are neighbours, once the
operators that bind tighter are gone, are one INFIX and the other INFIXR. -/
def NoConflict : List Fix → Prop
  | [] => True
  | op :: rest => Compatible op rest ∧ NoConflict rest

/-! ### Operators and precedence -/

attribute [local simp] Tree.items Tree.top group Compatible turn turns

theorem action_shift_iff (ha : a ≠ .nonfix) (hb : b ≠ .nonfix) :
    action a b = some .shift ↔ BindsRight a b := by
  cases a <;> cases b <;> grind [action, BindsRight, Fix.precedence]

theorem action_reduce_iff (ha : a ≠ .nonfix) (hb : b ≠ .nonfix) :
    action a b = some .reduce ↔ BindsLeft a b := by
  cases a <;> cases b <;> grind [action, BindsLeft, Fix.precedence]

theorem action_conflict_iff (ha : a ≠ .nonfix) (hb : b ≠ .nonfix) :
    action a b = some .conflict ↔ b.precedence = a.precedence ∧ Mixed a b := by
  cases a <;> cases b <;> grind [action, Mixed, Fix.precedence]

theorem BindsLeft.trans (hab : BindsLeft a b)
    (hbc : BindsLeft b c) : BindsLeft a c := by
  rcases hab with hlt | ⟨n, rfl, rfl⟩
  · rcases hbc with hlt' | ⟨n, rfl, rfl⟩
    · exact Or.inl (Int.lt_trans hlt' hlt)
    · exact Or.inl hlt
  · exact hbc

theorem BindsRight.trans (hab : BindsRight a b)
    (hbc : BindsRight b c) : BindsRight a c := by
  rcases hab with hlt | ⟨n, rfl, rfl⟩
  · rcases hbc with hlt' | ⟨n, rfl, rfl⟩
    · exact Or.inl (Int.lt_trans hlt hlt')
    · exact Or.inl hlt
  · exact hbc

/-- An operator under the right operand of one that binds tighter than `c`. -/
theorem BindsLeft.of_right (hba : BindsRight b a)
    (hbc : BindsLeft b c) : BindsLeft a c := by
  rcases hbc with hlt | ⟨n, rfl, rfl⟩
  · rcases hba with hlt' | ⟨n, rfl, rfl⟩
    · exact Or.inl (Int.lt_trans hlt hlt')
    · exact Or.inl hlt
  · rcases hba with hlt' | ⟨m, heq, -⟩
    · exact Or.inl hlt'
    · cases heq

theorem BindsRight.of_left (hab : BindsLeft a b)
    (hcb : BindsRight c b) : BindsRight c a := by
  rcases hcb with hlt | ⟨n, rfl, rfl⟩
  · rcases hab with hlt' | ⟨n, rfl, rfl⟩
    · exact Or.inl (Int.lt_trans hlt hlt')
    · exact Or.inl hlt
  · rcases hab with hlt' | ⟨m, -, heq⟩
    · exact Or.inl hlt'
    · cases heq

@[simp] theorem operators_nil : operators ([] : List (Item α L)) = [] := rfl

@[simp] theorem operators_append (left right : List (Item α L)) :
    operators (left ++ right) = operators left ++ operators right := by
  simp [operators]

@[simp] theorem operators_nonfix (x : α) (l : L) (rest : List (Item α L)) :
    operators (⟨.nonfix, x, l⟩ :: rest) = operators rest := by
  simp [operators, Fix.isInfix]

theorem operators_cons {op : Fix} (hop : op ≠ .nonfix) (x : α) (l : L)
    (rest : List (Item α L)) :
    operators (⟨op, x, l⟩ :: rest) = op :: operators rest := by
  have hinfix : op.isInfix = true := by simpa [Fix.isInfix] using hop
  simp [operators, hinfix]

@[simp] theorem operators_args (args : List (α × L)) :
    operators (args.map fun arg => (⟨.nonfix, arg.1, arg.2⟩ : Item α L)) =
      [] := by
  induction args with
  | nil => rfl
  | cons arg args ih => simpa using ih

/-- Every operator of a left operand binds tighter than the one to its right. -/
theorem Tree.Resolved.bindsLeft {tree : Tree α L} (hresolved : tree.Resolved)
    (htop : ∀ inner ∈ tree.top, BindsLeft inner outer) :
    ∀ inner ∈ operators tree.items, BindsLeft inner outer := by
  induction tree generalizing outer with
  | operand head args => simp
  | infixed op x loc left right ihLeft ihRight =>
    obtain ⟨hop, hleft, hright, hbindsLeft, hbindsRight⟩ := hresolved
    have houter : BindsLeft op outer := htop op rfl
    intro inner hinner
    rw [Tree.items, operators_append, operators_cons hop] at hinner
    rcases List.mem_append.mp hinner with hmem | hmem
    · exact (ihLeft hleft hbindsLeft inner hmem).trans houter
    · rcases List.mem_cons.mp hmem with rfl | hmem
      · exact houter
      · apply ihRight hright _ inner hmem
        intro top htop'
        exact houter.of_right (hbindsRight top htop')

theorem Tree.Resolved.bindsRight {tree : Tree α L} (hresolved : tree.Resolved)
    (htop : ∀ inner ∈ tree.top, BindsRight outer inner) :
    ∀ inner ∈ operators tree.items, BindsRight outer inner := by
  induction tree generalizing outer with
  | operand head args => simp
  | infixed op x loc left right ihLeft ihRight =>
    obtain ⟨hop, hleft, hright, hbindsLeft, hbindsRight⟩ := hresolved
    have houter : BindsRight outer op := htop op rfl
    intro inner hinner
    rw [Tree.items, operators_append, operators_cons hop] at hinner
    rcases List.mem_append.mp hinner with hmem | hmem
    · apply ihLeft hleft _ inner hmem
      intro top htop'
      exact houter.of_left (hbindsLeft top htop')
    · rcases List.mem_cons.mp hmem with rfl | hmem
      · exact houter
      · exact houter.trans (ihRight hright hbindsRight inner hmem)

/-- The scan of an operator to the right stops at one it binds tighter than. -/
theorem compatible_append {op : Fix}
    (hinners : Compatible op inners) (hop : BindsLeft op outer) :
    Compatible op (inners ++ outer :: rest) := by
  induction inners with
  | nil =>
    rcases hop with hlt | ⟨n, rfl, rfl⟩
    · have hnlt : ¬ op.precedence < outer.precedence := by omega
      have hne : outer.precedence ≠ op.precedence := by omega
      simp [hnlt, hne]
    · simp [Mixed]
  | cons inner inners ih =>
    by_cases hlt : op.precedence < inner.precedence
    · simp only [Compatible, hlt, if_true, List.cons_append] at hinners ⊢
      exact ih hinners
    · simp only [Compatible, hlt, if_false, List.cons_append] at hinners ⊢
      exact hinners

theorem noConflict_append (hinners : NoConflict inners) (hrest : NoConflict (outer :: rest))
    (hbinds : ∀ inner ∈ inners, BindsLeft inner outer) :
    NoConflict (inners ++ outer :: rest) := by
  induction inners with
  | nil => exact hrest
  | cons inner inners ih =>
    obtain ⟨hcompatible, htail⟩ := hinners
    exact ⟨compatible_append hcompatible (hbinds inner (by simp)),
      ih htail fun other hother => hbinds other (by simp [hother])⟩

theorem compatible_of_bindsRight {op : Fix}
    (hbinds : ∀ inner ∈ inners, BindsRight op inner) :
    Compatible op inners := by
  induction inners with
  | nil => trivial
  | cons inner inners ih =>
    have htail := ih fun other hother => hbinds other (by simp [hother])
    rcases hbinds inner (by simp) with hlt | ⟨n, rfl, rfl⟩
    · simpa [hlt] using htail
    · simp [Mixed]

theorem Tree.Resolved.noConflict {tree : Tree α L}
    (hresolved : tree.Resolved) : NoConflict (operators tree.items) := by
  induction tree with
  | operand head args => simp [NoConflict]
  | infixed op x loc left right ihLeft ihRight =>
    obtain ⟨hop, hleft, hright, hbindsLeft, hbindsRight⟩ := hresolved
    rw [Tree.items, operators_append, operators_cons hop]
    apply noConflict_append (ihLeft hleft)
    · exact ⟨compatible_of_bindsRight (hright.bindsRight hbindsRight),
        ihRight hright⟩
    · exact hleft.bindsLeft hbindsLeft

/-! ### Grouped items -/

theorem group_operator {fix : Fix} (hfix : fix ≠ .nonfix) (x : α) (l : L)
    (rest : List (Item α L)) :
    group (⟨fix, x, l⟩ :: rest) = .operator fix x l :: group rest := by
  cases fix <;> simp_all [group]

/-- What may follow a term of an operand. -/
def AfterTerm : List (Item α L) → Prop
  | [] => True
  | ⟨.nonfix, _, _⟩ :: rest => AfterTerm rest
  | _ :: rest => Alternating (group rest)

theorem alternating_term (x : α) (l : L) (rest : List (Item α L)) :
    Alternating (group (⟨.nonfix, x, l⟩ :: rest)) ↔ AfterTerm rest := by
  induction rest generalizing x l with
  | nil => simpa [AfterTerm] using Alternating.one (x, l) []
  | cons item rest ih =>
    obtain ⟨fix, y, k⟩ := item
    by_cases hfix : fix = .nonfix
    · subst hfix
      rw [AfterTerm, ← ih y k]
      obtain ⟨head, args, groups, hgroup⟩ : ∃ head args groups,
          group ((⟨.nonfix, y, k⟩ : Item α L) :: rest) =
            .operand head args :: groups := by
        rw [group]
        split
        · exact ⟨_, _, _, rfl⟩
        · exact ⟨_, _, _, rfl⟩
      have hmore : group ((⟨.nonfix, x, l⟩ : Item α L) ::
          ⟨.nonfix, y, k⟩ :: rest) =
            .operand (x, l) (head :: args) :: groups := by
        rw [group, hgroup]
      rw [hgroup, hmore]
      constructor
      · intro halternating
        cases halternating with
        | one => exact .one _ _
        | cons _ _ fix z m htail => exact .cons _ _ fix z m htail
      · intro halternating
        cases halternating with
        | one => exact .one _ _
        | cons _ _ fix z m htail => exact .cons _ _ fix z m htail
    · have hafter : AfterTerm (⟨fix, y, k⟩ :: rest) ↔
          Alternating (group rest) := by
        cases fix <;> simp_all [AfterTerm]
      have hgroup : group ((⟨.nonfix, x, l⟩ : Item α L) ::
          ⟨fix, y, k⟩ :: rest) =
            .operand (x, l) [] :: .operator fix y k :: group rest := by
        rw [group, group_operator hfix]
      rw [hafter, hgroup]
      constructor
      · intro halternating
        cases halternating with
        | cons _ _ _ _ _ htail => exact htail
      · exact .cons _ _ _ _ _

theorem afterTerm_operator {fix : Fix} (hfix : fix ≠ .nonfix) (x : α) (l : L)
    (rest : List (Item α L)) :
    AfterTerm (⟨fix, x, l⟩ :: rest) ↔ Alternating (group rest) := by
  cases fix <;> simp_all [AfterTerm]

theorem not_alternating_nil : ¬ Alternating (group ([] : List (Item α L))) := by
  intro halternating
  cases halternating

theorem not_alternating_operator {fix : Fix} (hfix : fix ≠ .nonfix) (x : α)
    (l : L) (rest : List (Item α L)) :
    ¬ Alternating (group (⟨fix, x, l⟩ :: rest)) := by
  rw [group_operator hfix]
  intro halternating
  cases halternating

theorem afterTerm_args (args : List (α × L)) {rest : List (Item α L)}
    (hrest : AfterTerm rest) :
    AfterTerm (args.map (fun arg => ⟨.nonfix, arg.1, arg.2⟩) ++ rest) := by
  induction args with
  | nil => exact hrest
  | cons arg args ih => simpa [AfterTerm] using ih

/-- Items of a resolved tree before whatever may follow a term. -/
theorem Tree.Resolved.alternating_append {tree : Tree α L}
    (hresolved : tree.Resolved) {rest : List (Item α L)}
    (hrest : AfterTerm rest) : Alternating (group (tree.items ++ rest)) := by
  induction tree generalizing rest with
  | operand head args =>
    rw [Tree.items, List.cons_append, alternating_term]
    exact afterTerm_args args hrest
  | infixed op x loc left right ihLeft ihRight =>
    obtain ⟨hop, hleft, hright, -, -⟩ := hresolved
    rw [Tree.items, List.append_assoc, List.cons_append]
    exact ihLeft hleft ((afterTerm_operator hop x loc _).mpr
      (ihRight hright hrest))

/-! ### A run without errors builds a resolved tree -/

section Trees

variable (mergeLocs : L → L → L)

/-- A stack that waits for an operand, with the items it was built from and its
top operator. -/
inductive Waiting : Stack α L → List (Item α L) → Option Fix → Prop where
  | nil : Waiting [] [] none
  | op {t : Stack α L} {items : List (Item α L)} {above : Option Fix}
      {tree : Tree α L} {a : Fix} {y : α} {l : L} :
      Waiting t items above → a ≠ .nonfix → tree.Resolved →
      (∀ inner ∈ tree.top, BindsLeft inner a) →
      (∀ outer ∈ above, BindsRight outer a) →
      Waiting ((a, .term y l) :: (.nonfix, tree.toExp mergeLocs) :: t)
        (items ++ tree.items ++ [⟨a, y, l⟩]) (some a)

/-- The stacks of a run without errors, with the items they were built from. -/
inductive Parsed : Stack α L → List (Item α L) → List (Item α L) → Prop where
  | waiting {t : Stack α L} {items input : List (Item α L)}
      {above : Option Fix} :
      Waiting mergeLocs t items above → Parsed t items input
  | operand {t : Stack α L} {items input : List (Item α L)}
      {above : Option Fix} {tree : Tree α L} :
      Waiting mergeLocs t items above → tree.Resolved →
      (∀ outer ∈ above, ∀ inner ∈ tree.top, BindsRight outer inner) →
      (∀ inner ∈ tree.top, ∀ item ∈ input.head?,
        item.fix ≠ .nonfix ∧ BindsLeft inner item.fix) →
      Parsed ((.nonfix, tree.toExp mergeLocs) :: t) (items ++ tree.items) input
  | adjacent {t : Stack α L} {items input : List (Item α L)}
      {above : Option Fix} {head : α × L} {args : List (α × L)} {x : α}
      {l : L} : Waiting mergeLocs t items above →
      Parsed ((.nonfix, .term x l) ::
          (.nonfix, (Tree.operand head args).toExp mergeLocs) :: t)
        (items ++ (Tree.operand head args).items ++ [⟨.nonfix, x, l⟩]) input

variable {mergeLocs}

theorem Waiting.top_ne {items : List (Item α L)} (hwaiting : Waiting mergeLocs t items above)
    {e : Exp α L} {t' : Stack α L} : t ≠ (.nonfix, e) :: t' := by
  rintro rfl
  cases hwaiting with
  | op _ ha => exact ha rfl

theorem Below.top_ne (hbelow : Below t) {e : Exp α L}
    {t' : Stack α L} : t ≠ (.nonfix, e) :: t' := by
  rintro rfl
  cases hbelow with
  | op ha => exact ha rfl

/-- The tree and the rest of a stack with an operand on top. -/
theorem Parsed.operand_inv {items : List (Item α L)}
    (hparsed : Parsed mergeLocs ((.nonfix, z) :: t) items input)
    (hbelow : Below t) :
    ∃ items' above, ∃ tree : Tree α L, z = tree.toExp mergeLocs ∧
      items = items' ++ tree.items ∧ Waiting mergeLocs t items' above ∧
      tree.Resolved ∧
      (∀ outer ∈ above, ∀ inner ∈ tree.top, BindsRight outer inner) ∧
      (∀ inner ∈ tree.top, ∀ item ∈ input.head?,
        item.fix ≠ .nonfix ∧ BindsLeft inner item.fix) := by
  cases hparsed with
  | waiting hwaiting => exact absurd rfl hwaiting.top_ne
  | operand hwaiting hresolved habove hhead =>
    exact ⟨_, _, _, rfl, rfl, hwaiting, hresolved, habove, hhead⟩
  | adjacent hwaiting => exact absurd rfl hbelow.top_ne

theorem Parsed.waiting_inv {items : List (Item α L)}
    (hparsed : Parsed mergeLocs t items input) (hbelow : Below t) :
    ∃ above, Waiting mergeLocs t items above := by
  cases hparsed with
  | waiting hwaiting => exact ⟨_, hwaiting⟩
  | operand hwaiting => exact absurd rfl hbelow.top_ne
  | adjacent hwaiting => exact absurd rfl hbelow.top_ne

/-- The operator under a waiting stack's top, with the operand below it. -/
theorem Waiting.op_inv {y x : Exp α L} {items : List (Item α L)}
    (hwaiting : Waiting mergeLocs ((a, y) :: (.nonfix, x) :: t) items above) :
    ∃ items' above', ∃ tree : Tree α L, ∃ w l, y = .term w l ∧
      x = tree.toExp mergeLocs ∧ items = items' ++ tree.items ++ [⟨a, w, l⟩] ∧
      above = some a ∧ Waiting mergeLocs t items' above' ∧ tree.Resolved ∧
      (∀ inner ∈ tree.top, BindsLeft inner a) ∧
      (∀ outer ∈ above', BindsRight outer a) := by
  cases hwaiting with
  | op hwaiting ha hresolved hleft habove =>
    exact ⟨_, _, _, _, _, rfl, rfl, rfl, rfl, hwaiting, hresolved, hleft,
      habove⟩

/-- Reducing an operator between two operands gives a resolved tree. -/
theorem Parsed.reduced {x : Exp α L} {y : α} {k : L} {items : List (Item α L)}
    (hparsed : Parsed mergeLocs
      ((.nonfix, z) :: (a, .term y k) :: (.nonfix, x) :: t) items input)
    (hbelow : Below t) (ha : a ≠ .nonfix) (hhead : ∀ item ∈ input.head?,
      item.fix ≠ .nonfix ∧ BindsLeft a item.fix) :
    Parsed mergeLocs ((.nonfix, op2 mergeLocs (.term y k) x z) :: t) items
      input := by
  obtain ⟨items', above, right, rfl, rfl, hwaiting, hright, habove, -⟩ :=
    hparsed.operand_inv (.op ha hbelow)
  obtain ⟨items'', above', left, w, l, hterm, rfl, rfl, rfl, hwaiting', hleft,
    hbinds, habove'⟩ := hwaiting.op_inv
  obtain ⟨rfl, rfl⟩ : y = w ∧ k = l := by simpa using hterm
  have hresolved : (Tree.infixed a y k left right).Resolved :=
    ⟨ha, hleft, hright, hbinds, habove a rfl⟩
  have hnew : Parsed mergeLocs ((.nonfix, _) :: t) _ input :=
    Parsed.operand hwaiting' hresolved (by
      intro outer houter inner hinner
      obtain rfl : a = inner := by simpa using hinner
      exact habove' outer houter)
    (by
      intro inner hinner item hitem
      obtain rfl : a = inner := by simpa using hinner
      exact hhead item hitem)
  simpa [Tree.toExp] using hnew

/-- One turn without an error. -/
theorem Rule.parsed (hrule : Rule mergeLocs stack input stack' input' none)
    {items : List (Item α L)} (hparsed : Parsed mergeLocs stack items input) :
    ∃ items', Parsed mergeLocs stack' items' input' ∧
      items' ++ input' = items ++ input := by
  cases hrule with
  | @apply x y t input hbelow =>
    cases hparsed with
    | waiting hwaiting => exact absurd rfl hwaiting.top_ne
    | operand hwaiting => exact absurd rfl hwaiting.top_ne
    | @adjacent _ items _ above head args x l hwaiting =>
      refine ⟨_, ?_, rfl⟩
      have hresolved : (Tree.operand head (args ++ [(x, l)])).Resolved :=
        trivial
      have hnew : Parsed mergeLocs ((.nonfix, _) :: t) _ input :=
        Parsed.operand hwaiting hresolved (by simp)
          (by simp)
      simpa [Tree.toExp] using hnew
  | @operand x l t s hbelow =>
    obtain ⟨above, hwaiting⟩ := hparsed.waiting_inv hbelow
    have hresolved : (Tree.operand (x, l) []).Resolved := trivial
    have hnew : Parsed mergeLocs ((.nonfix, _) :: stack) _ input' :=
      Parsed.operand hwaiting hresolved (by simp)
        (by simp)
    exact ⟨_, hnew, by simp⟩
  | @juxtapose z x l t s hbelow =>
    obtain ⟨items', above, tree, rfl, rfl, hwaiting, -, -, hhead⟩ :=
      hparsed.operand_inv hbelow
    cases tree with
    | operand head args => exact ⟨_, .adjacent hwaiting, by simp⟩
    | infixed op y k left right =>
      exact absurd rfl (hhead op rfl _ rfl).1
  | @first z b w l s hb =>
    obtain ⟨items', above, tree, rfl, rfl, hwaiting, hresolved, -, hhead⟩ :=
      hparsed.operand_inv .nil
    cases hwaiting with
    | nil =>
      have hnew : Waiting mergeLocs
          [(b, .term w l), (.nonfix, tree.toExp mergeLocs)] _ _ :=
        .op .nil hb hresolved (fun inner hinner => (hhead inner hinner _ rfl).2)
          (by simp)
      exact ⟨_, .waiting hnew, by simp⟩
  | @shift z x a b y w k l t s hbelow ha hb haction =>
    obtain ⟨items', above, tree, rfl, rfl, hwaiting, hresolved, habove,
      hhead⟩ := hparsed.operand_inv (.op ha hbelow)
    have hbinds := (action_shift_iff ha hb).mp haction
    obtain ⟨_, _, _, _, _, _, _, _, rfl, _⟩ := hwaiting.op_inv
    refine ⟨_, .waiting (.op hwaiting hb hresolved
      (fun inner hinner => (hhead inner hinner _ rfl).2) ?_), by simp⟩
    intro outer houter
    obtain rfl : a = outer := by simpa using houter
    exact hbinds
  | @reduce z x a b y w k l t s hbelow ha hb haction =>
    refine ⟨items, hparsed.reduced hbelow ha ?_, rfl⟩
    intro item hitem
    obtain rfl : ⟨b, w, l⟩ = item := by simpa using hitem
    exact ⟨hb, (action_reduce_iff ha hb).mp haction⟩
  | @close z x a y k t hbelow ha =>
    exact ⟨items, hparsed.reduced hbelow ha (by simp), rfl⟩

theorem Run.parsed {stack : Stack α L} {input : List (Item α L)}
    {exp : Exp α L} {reports : List (Report α L)}
    (hrun : Run mergeLocs stack input exp reports) (hnone : reports = [])
    {items : List (Item α L)} (hparsed : Parsed mergeLocs stack items input) :
    ∃ tree : Tree α L, tree.toExp mergeLocs = exp ∧ tree.Resolved ∧
      tree.items = items ++ input := by
  induction hrun generalizing items with
  | done exp =>
    obtain ⟨items', above, tree, rfl, rfl, hwaiting, hresolved, -, -⟩ :=
      hparsed.operand_inv .nil
    cases hwaiting with
    | nil => exact ⟨tree, rfl, hresolved, by simp⟩
  | @step _ _ _ _ report _ _ hrule _ ih =>
    cases report with
    | some report => simp at hnone
    | none =>
      obtain ⟨items', hparsed', heq⟩ := hrule.parsed hparsed
      obtain ⟨tree, hexp, hresolved, hitems⟩ := ih (by simpa using hnone)
        hparsed'
      exact ⟨tree, hexp, hresolved, hitems.trans heq⟩

/-! ### A resolved tree is what its items parse to -/

/-- A stack that waits for an operand, with its top operator. -/
inductive BelowTop : Stack α L → Option Fix → Prop where
  | nil : BelowTop [] none
  | op {a : Fix} {y : α} {l : L} {x : Exp α L} {t : Stack α L} :
      a ≠ .nonfix → Below t →
      BelowTop ((a, .term y l) :: (.nonfix, x) :: t) (some a)

theorem BelowTop.below (hbelow : BelowTop t above) : Below t := by
  cases hbelow with
  | nil => exact .nil
  | op ha hbelow => exact .op ha hbelow

theorem Run.prepend (hrule : Rule mergeLocs stack input stack' input' none)
    (hrun : Run mergeLocs stack' input' exp reports) :
    Run mergeLocs stack input exp reports := by
  simpa using Run.step hrule hrun

theorem run_args (hbelow : Below t) (args : List (α × L))
    (fn : Exp α L) {rest : List (Item α L)}
    (hrun : Run mergeLocs ((.nonfix, args.foldl
      (fun fn arg => app mergeLocs fn (.term arg.1 arg.2)) fn) :: t) rest exp
      reports) : Run mergeLocs ((.nonfix, fn) :: t)
      (args.map (fun arg => ⟨.nonfix, arg.1, arg.2⟩) ++ rest) exp reports := by
  induction args generalizing fn with
  | nil => exact hrun
  | cons arg args ih =>
    apply Run.prepend (.juxtapose hbelow)
    apply Run.prepend (.apply hbelow)
    exact ih _ hrun

/-- The items of a resolved tree bring the tree onto the stack. -/
theorem Tree.Resolved.run {tree : Tree α L} (hresolved : tree.Resolved) (hbelow : BelowTop t above)
    (habove : ∀ outer ∈ above, ∀ inner ∈ tree.top, BindsRight outer inner)
    {rest : List (Item α L)} (hhead : ∀ inner ∈ tree.top, ∀ item ∈ rest.head?,
      item.fix ≠ .nonfix ∧ BindsLeft inner item.fix)
    (hrun : Run mergeLocs ((.nonfix, tree.toExp mergeLocs) :: t) rest exp
      reports) : Run mergeLocs t (tree.items ++ rest) exp reports := by
  induction tree generalizing t above rest with
  | operand head args =>
    apply Run.prepend (.operand hbelow.below)
    exact run_args hbelow.below args _ hrun
  | infixed op x loc left right ihLeft ihRight =>
    obtain ⟨hop, hleft, hright, hbindsLeft, hbindsRight⟩ := hresolved
    have houter : ∀ outer ∈ above, BindsRight outer op :=
      fun outer hmem => habove outer hmem op rfl
    have hnext := hhead op rfl
    -- the last turn reduces the operator between its operands
    have hreduce : Run mergeLocs ((.nonfix, right.toExp mergeLocs) ::
        (op, .term x loc) :: (.nonfix, left.toExp mergeLocs) :: t) rest exp
        reports := by
      cases rest with
      | nil => exact Run.prepend (.close hbelow.below hop) hrun
      | cons item rest =>
        obtain ⟨hb, hbinds⟩ := hnext item rfl
        exact Run.prepend (.reduce hbelow.below hop hb
          ((action_reduce_iff hop hb).mpr hbinds)) hrun
    have hafter : Run mergeLocs ((op, .term x loc) ::
        (.nonfix, left.toExp mergeLocs) :: t) (right.items ++ rest) exp
        reports := by
      refine ihRight hright (.op hop hbelow.below) ?_ ?_ hreduce
      · intro outer houter' inner hinner
        obtain rfl : op = outer := by simpa using houter'
        exact hbindsRight inner hinner
      · intro inner hinner item hitem
        obtain ⟨hb, hbinds⟩ := hnext item hitem
        exact ⟨hb, hbinds.of_right (hbindsRight inner hinner)⟩
    have hshift : Run mergeLocs ((.nonfix, left.toExp mergeLocs) :: t)
        (⟨op, x, loc⟩ :: (right.items ++ rest)) exp reports := by
      cases hbelow with
      | nil => exact Run.prepend (.first hop) hafter
      | op ha hbelow =>
        exact Run.prepend (.shift hbelow ha hop
          ((action_shift_iff ha hop).mpr (houter _ rfl))) hafter
    rw [Tree.items, List.append_assoc, List.cons_append]
    refine ihLeft hleft hbelow ?_ ?_ hshift
    · intro outer hmem inner hinner
      exact (houter outer hmem).of_left (hbindsLeft inner hinner)
    · intro inner hinner item hitem
      obtain rfl : ⟨op, x, loc⟩ = item := by simpa using hitem
      exact ⟨hop, hbindsLeft inner hinner⟩

theorem Tree.Resolved.run_items (mergeLocs : L → L → L) {tree : Tree α L}
    (hresolved : tree.Resolved) :
    Run mergeLocs [] tree.items (tree.toExp mergeLocs) [] := by
  have hrun : Run mergeLocs [] (tree.items ++ []) (tree.toExp mergeLocs) [] :=
    hresolved.run .nil (by simp) (by simp) (.done _)
  simpa using hrun

end Trees

/-! ### Alternating items without conflicts give no errors -/

/-- The operators of a stack before those of its input. -/
def operatorsOnto : Stack α L → List Fix → List Fix
  | [], rest => rest
  | (a, _) :: t, rest => operatorsOnto t (if a.isInfix then a :: rest else rest)

@[simp] theorem operatorsOnto_nonfix (x : Exp α L) (t : Stack α L)
    (rest : List Fix) :
    operatorsOnto ((.nonfix, x) :: t) rest = operatorsOnto t rest := rfl

theorem operatorsOnto_fixed (ha : a ≠ .nonfix) (x : Exp α L)
    (t : Stack α L) (rest : List Fix) :
    operatorsOnto ((a, x) :: t) rest = operatorsOnto t (a :: rest) := by
  have hinfix : a.isInfix = true := by simpa [Fix.isInfix] using ha
  simp [operatorsOnto, hinfix]

theorem operatorsOnto_append (t : Stack α L) (rest : List Fix) :
    operatorsOnto t rest = operatorsOnto t [] ++ rest := by
  induction t generalizing rest with
  | nil => rfl
  | cons entry t ih =>
    obtain ⟨a, x⟩ := entry
    cases ha : a.isInfix with
    | false => simpa [operatorsOnto, ha] using ih rest
    | true =>
      simp only [operatorsOnto, ha, if_true]
      rw [ih (a :: rest), ih [a]]
      simp

theorem compatible_drop {op : Fix}
    (hop : Compatible op (before ++ a :: b :: rest)) (hbinds : BindsLeft a b) :
    Compatible op (before ++ b :: rest) := by
  induction before with
  | nil =>
    simp only [List.nil_append] at hop ⊢
    by_cases hlt : op.precedence < a.precedence
    · simpa [hlt] using hop
    · simp only [Compatible, hlt, if_false] at hop ⊢
      rcases hbinds with hless | ⟨n, rfl, rfl⟩
      · have hnlt : ¬ op.precedence < b.precedence := by omega
        have hne : b.precedence ≠ op.precedence := by omega
        simp [hnlt, hne]
      · rw [if_neg hlt]
        exact hop
  | cons other before ih =>
    by_cases hlt : op.precedence < other.precedence
    · simp only [List.cons_append, Compatible, hlt, if_true] at hop ⊢
      exact ih hop
    · simp only [List.cons_append, Compatible, hlt, if_false] at hop ⊢
      exact hop

theorem noConflict_drop (hno : NoConflict (before ++ a :: b :: rest)) (hbinds : BindsLeft a b) :
    NoConflict (before ++ b :: rest) := by
  induction before with
  | nil => exact hno.2
  | cons op before ih =>
    obtain ⟨hop, htail⟩ := hno
    exact ⟨compatible_drop hop hbinds, ih htail⟩

theorem noConflict_right (hno : NoConflict (before ++ rest)) : NoConflict rest := by
  induction before with
  | nil => exact hno
  | cons op before ih => exact ih hno.2

theorem noConflict_left (hno : NoConflict (before ++ rest)) : NoConflict before := by
  have hcompatible : ∀ (op : Fix) (ops : List Fix),
      Compatible op (ops ++ rest) → Compatible op ops := by
    intro op ops hop
    induction ops with
    | nil => trivial
    | cons other ops ih =>
      by_cases hlt : op.precedence < other.precedence
      · simp only [List.cons_append, Compatible, hlt, if_true] at hop ⊢
        exact ih hop
      · simp only [List.cons_append, Compatible, hlt, if_false] at hop ⊢
        exact hop
  induction before with
  | nil => trivial
  | cons op before ih => exact ⟨hcompatible op before hno.1, ih hno.2⟩

/-- The stacks of the loop on alternating items without conflicts. -/
inductive Clean : Stack α L → List (Item α L) → Prop where
  | waiting {t : Stack α L} {input : List (Item α L)} :
      Below t → Alternating (group input) →
      NoConflict (operatorsOnto t (operators input)) → Clean t input
  | operand {z : Exp α L} {t : Stack α L} {input : List (Item α L)} :
      Below t → AfterTerm input →
      NoConflict (operatorsOnto t (operators input)) →
      Clean ((.nonfix, z) :: t) input
  | adjacent {x y : Exp α L} {t : Stack α L} {input : List (Item α L)} :
      Below t → AfterTerm input →
      NoConflict (operatorsOnto t (operators input)) →
      Clean ((.nonfix, y) :: (.nonfix, x) :: t) input

theorem Clean.waiting_inv (hclean : Clean t input) (hbelow : Below t) :
    Alternating (group input) ∧
      NoConflict (operatorsOnto t (operators input)) := by
  cases hclean with
  | waiting _ halternating hno => exact ⟨halternating, hno⟩
  | operand => exact absurd rfl hbelow.top_ne
  | adjacent => exact absurd rfl hbelow.top_ne

theorem Clean.operand_inv (hclean : Clean ((.nonfix, z) :: t) input)
    (hbelow : Below t) :
    AfterTerm input ∧ NoConflict (operatorsOnto t (operators input)) := by
  cases hclean with
  | waiting hbelow' => exact absurd rfl hbelow'.top_ne
  | operand _ hafter hno => exact ⟨hafter, hno⟩
  | adjacent => exact absurd rfl hbelow.top_ne

theorem Rule.clean {report : Option (Report α L)}
    (hrule : Rule mergeLocs stack input stack' input' report)
    (hclean : Clean stack input) : report = none ∧ Clean stack' input' := by
  cases hrule with
  | apply hbelow =>
    refine ⟨rfl, ?_⟩
    cases hclean with
    | waiting hbelow' => exact absurd rfl hbelow'.top_ne
    | operand hbelow' => exact absurd rfl hbelow'.top_ne
    | adjacent _ hafter hno => exact .operand hbelow hafter hno
  | operand hbelow =>
    obtain ⟨halternating, hno⟩ := hclean.waiting_inv hbelow
    rw [alternating_term] at halternating
    exact ⟨rfl, .operand hbelow halternating (by simpa using hno)⟩
  | juxtapose hbelow =>
    obtain ⟨hafter, hno⟩ := hclean.operand_inv hbelow
    exact ⟨rfl, .adjacent hbelow hafter (by simpa using hno)⟩
  | first hb =>
    obtain ⟨hafter, hno⟩ := hclean.operand_inv .nil
    rw [afterTerm_operator hb] at hafter
    rw [operators_cons hb] at hno
    refine ⟨rfl, .waiting (.op hb .nil) hafter ?_⟩
    rw [operatorsOnto_fixed hb]
    simpa using hno
  | shift hbelow ha hb =>
    obtain ⟨hafter, hno⟩ := hclean.operand_inv (.op ha hbelow)
    rw [afterTerm_operator hb] at hafter
    rw [operators_cons hb] at hno
    refine ⟨rfl, .waiting (.op hb (.op ha hbelow)) hafter ?_⟩
    rw [operatorsOnto_fixed hb]
    simpa using hno
  | @conflict z x a b y w k l t s hbelow ha hb haction =>
    obtain ⟨-, hno⟩ := hclean.operand_inv (.op ha hbelow)
    rw [operators_cons hb, operatorsOnto_fixed ha, operatorsOnto_nonfix,
      operatorsOnto_append] at hno
    obtain ⟨hcompatible, -⟩ := noConflict_right hno
    obtain ⟨hprecedence, hmixed⟩ := (action_conflict_iff ha hb).mp haction
    have hnlt : ¬ a.precedence < b.precedence := by omega
    simp only [Compatible, hnlt, if_false] at hcompatible
    exact absurd ⟨hprecedence, hmixed⟩ hcompatible
  | @reduce z x a b y w k l t s hbelow ha hb haction =>
    obtain ⟨hafter, hno⟩ := hclean.operand_inv (.op ha hbelow)
    refine ⟨rfl, .operand hbelow hafter ?_⟩
    rw [operators_cons hb, operatorsOnto_append]
    rw [operators_cons hb, operatorsOnto_fixed ha, operatorsOnto_nonfix,
      operatorsOnto_append] at hno
    exact noConflict_drop hno ((action_reduce_iff ha hb).mp haction)
  | @close z x a y k t hbelow ha =>
    obtain ⟨hafter, hno⟩ := hclean.operand_inv (.op ha hbelow)
    refine ⟨rfl, .operand hbelow hafter ?_⟩
    rw [operatorsOnto_fixed ha, operatorsOnto_nonfix,
      operatorsOnto_append] at hno
    exact noConflict_left hno
  | beginWith hbelow hb =>
    obtain ⟨halternating, -⟩ := hclean.waiting_inv hbelow
    exact absurd halternating (not_alternating_operator hb _ _ _)
  | endWith hbelow ha =>
    obtain ⟨halternating, -⟩ := hclean.waiting_inv (.op ha hbelow)
    exact absurd halternating not_alternating_nil

theorem Run.clean {stack : Stack α L} {input : List (Item α L)}
    {exp : Exp α L} {reports : List (Report α L)}
    (hrun : Run mergeLocs stack input exp reports)
    (hclean : Clean stack input) : reports = [] := by
  induction hrun with
  | done exp => rfl
  | step hrule _ ih =>
    obtain ⟨rfl, hclean'⟩ := hrule.clean hclean
    simpa using ih hclean'

/-- A resolved tree is determined by its items and its expression. -/
theorem Tree.Resolved.eq_of_toExp {tree other : Tree α L}
    (hresolved : tree.Resolved) (hother : other.Resolved)
    (hexp : tree.toExp mergeLocs = other.toExp mergeLocs)
    (hitems : tree.items = other.items) : tree = other := by
  induction tree generalizing other with
  | operand head args =>
    cases other with
    | operand head' args' =>
      simp only [Tree.items, List.cons.injEq, Item.mk.injEq, true_and]
        at hitems
      have hargs : args = args' := by
        refine List.map_injective_iff.mpr ?_ hitems.2
        intro arg arg' heq
        simp only [Item.mk.injEq, true_and] at heq
        exact Prod.ext heq.1 heq.2
      rw [Prod.ext hitems.1.1 hitems.1.2, hargs]
    | infixed op x loc left right =>
      have hops := congrArg operators hitems
      simp [operators_cons hother.1] at hops
  | infixed op x loc left right ihLeft ihRight =>
    cases other with
    | operand head args =>
      have hops := congrArg operators hitems
      simp [operators_cons hresolved.1] at hops
    | infixed op' x' loc' left' right' =>
      obtain ⟨-, hleft, hright, -⟩ := hresolved
      obtain ⟨-, hleft', hright', -⟩ := hother
      simp only [Tree.toExp, op2, Exp.op2.injEq] at hexp
      obtain ⟨-, hexpLeft, hexpRight, -⟩ := hexp
      have hyield := (hleft.run_items mergeLocs).yield
      have hyield' := (hleft'.run_items mergeLocs).yield
      rw [hexpLeft, hyield'] at hyield
      have hlength : left.items.length = left'.items.length := by
        simpa [stackYield, inputYield] using
          (congrArg List.length hyield).symm
      obtain ⟨hitemsLeft, hrest⟩ := List.append_inj hitems hlength
      simp only [List.cons.injEq, Item.mk.injEq] at hrest
      obtain ⟨⟨rfl, rfl, rfl⟩, hitemsRight⟩ := hrest
      rw [ihLeft hleft hleft' hexpLeft hitemsLeft,
        ihRight hright hright' hexpRight hitemsRight]

/-- Resolution of infix expressions, for every list of items: the loop
terminates without a bug and keeps the terms in their order; it reports no
error exactly when operands and operators alternate without conflicts, and
then the tree is the one resolved tree of the items. -/
theorem parse_resolves (mergeLocs : L → L → L) (terms : List (Item α L))
    (hne : terms ≠ []) :
    ∃ exp reports, parse mergeLocs terms = .ok (exp, reports) ∧
      (∀ fuel, turns ([] : Stack α L) terms < fuel →
        loop mergeLocs fuel [] terms = .ok (exp, reports)) ∧
      exp.yield = inputYield terms ∧
      (reports = [] ↔
        Alternating (group terms) ∧ NoConflict (operators terms)) ∧
      (reports = [] → ∃ tree : Tree α L, tree.toExp mergeLocs = exp ∧
        tree.items = terms ∧ tree.Resolved ∧
        ∀ other : Tree α L, other.items = terms → other.Resolved →
          other = tree) := by
  have hshaped : Shaped ([] : Stack α L) terms := .waiting .nil (Or.inr hne)
  obtain ⟨exp, reports, hrun⟩ := hshaped.run mergeLocs
  have htree : reports = [] → ∃ tree : Tree α L,
      tree.toExp mergeLocs = exp ∧ tree.Resolved ∧ tree.items = terms := by
    intro hnone
    obtain ⟨tree, hexp, hresolved, hitems⟩ :=
      hrun.parsed hnone (.waiting .nil)
    exact ⟨tree, hexp, hresolved, by simpa using hitems⟩
  refine ⟨exp, reports, hrun.loop_eq (Nat.lt_succ_self _),
    fun fuel hfuel => hrun.loop_eq hfuel, ?_, ⟨?_, ?_⟩, ?_⟩
  · simpa [stackYield] using hrun.yield
  · intro hnone
    obtain ⟨tree, -, hresolved, hitems⟩ := htree hnone
    have hend : AfterTerm ([] : List (Item α L)) := trivial
    have halternating := hresolved.alternating_append hend
    rw [List.append_nil, hitems] at halternating
    exact ⟨halternating, hitems ▸ hresolved.noConflict⟩
  · rintro ⟨halternating, hno⟩
    exact hrun.clean (.waiting .nil halternating hno)
  · intro hnone
    obtain ⟨tree, hexp, hresolved, hitems⟩ := htree hnone
    refine ⟨tree, hexp, hitems, hresolved, ?_⟩
    intro other hotherItems hother
    have hotherRun := hother.run_items mergeLocs
    rw [hotherItems] at hotherRun
    obtain ⟨hsame, -⟩ := hrun.unique hotherRun
    exact hother.eq_of_toExp hresolved (hsame.symm.trans hexp.symm)
      (hotherItems.trans hitems.symm)

/-- `a + b`. -/
theorem parse_resolves_sum :
    ∃ exp reports, parse (fun _ _ => ())
        [⟨.nonfix, "a", ()⟩, ⟨.infixOp 6, "+", ()⟩, ⟨.nonfix, "b", ()⟩] =
          .ok (exp, reports) ∧ exp.yield = [("a", ()), ("+", ()), ("b", ())] := by
  obtain ⟨exp, reports, hparse, -, hyield, -⟩ :=
    parse_resolves (fun _ _ => ()) [⟨.nonfix, "a", ()⟩,
      ⟨.infixOp 6, "+", ()⟩, ⟨.nonfix, "b", ()⟩] (by simp)
  exact ⟨exp, reports, hparse, hyield⟩

/-- No two operators that follow one another mix at the same precedence. -/
def NeighboursAgree (ops : List Fix) : Prop :=
  ops.IsChain fun a b => ¬ (a.precedence = b.precedence ∧ Mixed a b)

/-- In `a + b * c ## d` with `+` and `##` of one precedence and `*` of a higher
one the neighbours agree, and the parser reports a conflict. -/
theorem parse_reports_distant_conflict :
    ¬ ∀ terms : List (Item String Unit), terms ≠ [] →
      ∀ exp reports, parse (fun _ _ => ()) terms = .ok (exp, reports) →
        (reports = [] ↔ Alternating (group terms) ∧
          NeighboursAgree (operators terms)) := by
  intro hclaim
  have hiff := hclaim
    [⟨.nonfix, "a", ()⟩, ⟨.infixOp 6, "+", ()⟩, ⟨.nonfix, "b", ()⟩,
      ⟨.infixOp 7, "*", ()⟩, ⟨.nonfix, "c", ()⟩, ⟨.infixrOp 6, "##", ()⟩,
      ⟨.nonfix, "d", ()⟩] (by simp) _ _ rfl
  have hagree : NeighboursAgree [.infixOp 6, .infixOp 7, .infixrOp 6] := by
    simp [NeighboursAgree, Fix.precedence]
  have hnone := hiff.mpr
    ⟨.cons _ _ _ _ _ (.cons _ _ _ _ _ (.cons _ _ _ _ _ (.one _ _))), hagree⟩
  exact absurd hnone (by simp)

end Fixity

end SmlSharp
