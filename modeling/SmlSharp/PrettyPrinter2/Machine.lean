/-
Format expressions and the backtracking machine that prints them.
-/
import Mathlib.Algebra.Ring.Int.Defs
import Mathlib.Algebra.Ring.Nat
import SmlSharp.Lib.Machine
import Mathlib.Data.Int.Basic
import Mathlib.Data.List.Basic

namespace SmlSharp

namespace PrettyPrinter2

/-! ### Format expressions -/

inductive Priority where
  | preferred (priority : Int)
  | deferred
deriving DecidableEq

inductive AssocDirection where
  | left
  | right
  | neutral
deriving DecidableEq

/-- The associativity written at a guard. -/
structure GuardAssoc where
  cut : Bool
  strength : Int
  direction : AssocDirection
deriving DecidableEq

inductive Expression where
  | term (len : Int) (text : String)
  | newline
  | guard (assoc : Option GuardAssoc) (body : List Expression)
  | indicator (space : Bool) (newline : Option Priority)
  | startOfIndent (n : Int)
  | endOfIndent
  | sequence (body : List Expression)

structure Assoc where
  strength : Int
  direction : AssocDirection
deriving DecidableEq

def leftAssoc (assoc : Assoc) : Assoc :=
  match assoc.direction with
  | .right => ⟨assoc.strength, .neutral⟩
  | _ => assoc

def rightAssoc (assoc : Assoc) : Assoc :=
  match assoc.direction with
  | .left => ⟨assoc.strength, .neutral⟩
  | _ => assoc

def isWeakerThanOrEqualTo (a1 a2 : Assoc) : Bool :=
  decide (a1.strength < a2.strength) ||
    match a1.direction, a2.direction with
    | .left, .neutral => decide (a1.strength ≤ a2.strength)
    | .right, .neutral => decide (a1.strength ≤ a2.strength)
    | d1, d2 => decide (d1 = d2) && decide (a1.strength = a2.strength)

/-! ### Output -/

inductive Text where
  | string (text : String)
  | space (count : Int)
  | newline
deriving DecidableEq

/-- The output function itself is outside of the model: `outputFn` tells
whether there is one, and the strings it is given are kept in the
configuration. -/
structure Output where
  outputFn : Bool
  /-- In reverse order. -/
  buffer : List Text
  column : Int
  width : Int

def canPut (output : Output) (len : Int) : Bool :=
  decide (output.column + len ≤ output.width)

def putString (output : Output) (len : Int) (text : String) : Output :=
  { output with
    buffer := if text = "" then output.buffer else .string text :: output.buffer
    column := output.column + len }

def putSpace (output : Output) (count : Int) : Output :=
  if count > 0 then
    { output with
      buffer := .space count :: output.buffer
      column := output.column + count }
  else output

def putNewline (output : Output) : Output :=
  { output with buffer := .newline :: output.buffer, column := 0 }

def whiteSpaces (n : Int) : String :=
  String.ofList (List.replicate n.toNat ' ')

def getLineBody (z : List String) : List Text → List String × List Text
  | .string text :: texts => getLineBody (text :: z) texts
  | .space n :: texts => getLineBody (whiteSpaces n :: z) texts
  | texts => (z, texts)

def getLine (z : List String) : List Text → List String × List Text
  | .newline :: texts => getLine ("\n" :: z) texts
  | .space _ :: texts => getLine z texts
  | texts => getLineBody z texts

theorem getLineBody_length (z : List String) (texts : List Text) :
    (getLineBody z texts).2.length ≤ texts.length := by
  fun_induction getLineBody z texts with
  | case1 z text texts ih => exact Nat.le_succ_of_le ih
  | case2 z n texts ih => exact Nat.le_succ_of_le ih
  | case3 z texts => exact Nat.le_refl _

theorem getLine_length (z : List String) (text : Text) (texts : List Text) :
    (getLine z (text :: texts)).2.length < (text :: texts).length := by
  induction texts generalizing z text with
  | nil => cases text <;> simp [getLine, getLineBody]
  | cons text' texts ih =>
    cases text with
    | newline => exact Nat.lt_succ_of_lt (ih ("\n" :: z) text')
    | space _ => exact Nat.lt_succ_of_lt (ih z text')
    | string text =>
      exact Nat.lt_succ_of_le (getLineBody_length (text :: z) (text' :: texts))

/-- The lines of a buffer, the first one first. -/
def getLines (z : List String) : List Text → List String
  | [] => z
  | text :: texts =>
    let line := getLine z (text :: texts)
    getLines line.1 line.2
termination_by texts => texts.length
decreasing_by exact getLine_length z text texts

/-- The strings that `commit` gives to the output function, in this order. -/
def commit (z : List String) : List Text → List String
  | [] => z
  | text :: texts =>
    let line := getLine [] (text :: texts)
    match line.1 with
    | [] => commit z line.2
    | strings => commit (String.join strings :: z) line.2
termination_by texts => texts.length
decreasing_by all_goals exact getLine_length [] text texts

/-- The strings given to the output function, and the output after it. -/
def dump (output : Output) : List String × Output :=
  if output.outputFn then
    (commit [] output.buffer, { output with buffer := [] })
  else ([], output)

/-! ### The machine -/

structure Indent where
  level : Int
  indents : List Int

/-- The context of nested guards. -/
inductive Context where
  /-- In a guard: `base` outermost guards are ignored, `nest` is its level, and
  `priority` the lowest priority for indicators to be line breaks. -/
  | guard (base nest priority : Int)
  /-- Not in a guard, or in a guard whose preferred indicators have all become
  line breaks. -/
  | top (base : Int)

inductive Next where
  | next (input : List Expression) (assoc : Assoc)
  /-- The end of a guard. -/
  | delim (indent : Indent)

inductive RestartPriority where
  | preferred (nest priority : Int)
  | deferred

/-- A state without its restart. -/
structure Frame where
  input : List Expression
  indent : Indent
  assoc : Assoc
  next : List Next
  context : Context

/-- A restart without the restart of its state. -/
structure Saved where
  priority : RestartPriority
  output : Output
  frame : Frame

/-- The restarts are nested through their states: `NORESTART` is the empty
list, and the restart of the state saved in the head is the tail. -/
structure State where
  frame : Frame
  restart : List Saved

/-- `emitted` holds the strings given to the output function so far, which
backtracking does not take back. -/
structure Config where
  emitted : List String
  output : Output
  state : State

structure Printed where
  emitted : List String
  returned : String

def precedesTo : RestartPriority → RestartPriority → Bool
  | .deferred, .deferred => true
  | .deferred, .preferred _ _ => false
  | .preferred _ _, .deferred => true
  | .preferred n1 p1, .preferred n2 p2 =>
    decide (n1 < n2) || (decide (n1 = n2) && decide (p1 < p2))

def precedesToRestart (priority : RestartPriority) : List Saved → Bool
  | [] => true
  | saved :: _ => precedesTo priority saved.priority

def endGuard : Context → Context
  | .guard base nest priority =>
    if base = nest then .top base else .guard base (nest - 1) priority
  | .top nest => if nest > 0 then .top (nest - 1) else .top nest

def startGuard : Context → Context
  | .top n => .guard n n 0
  | .guard base nest priority => .guard base (nest + 1) priority

def endIndent (indent : Indent) : Indent :=
  match indent.indents with
  | n :: indents => ⟨indent.level - n, indents⟩
  | [] => indent

/-- `if space then Term (1, " ") :: input else input`. -/
def spaceBefore (space : Bool) (input : List Expression) : List Expression :=
  if space then .term 1 " " :: input else input

/-- `case input of nil => assoc | _ :: _ => leftAssoc assoc`. -/
def guardAssoc (input : List Expression) (assoc : Assoc) : Assoc :=
  match input with
  | [] => assoc
  | _ :: _ => leftAssoc assoc

/-- `case input of [EndOfIndent] => assoc | _ => leftAssoc assoc`. -/
def sequenceAssoc (input : List Expression) (assoc : Assoc) : Assoc :=
  match input with
  | [.endOfIndent] => assoc
  | _ => leftAssoc assoc

/-- The restart that remains after a line break. -/
def newlineRestart (context : Context) (restart : List Saved) : List Saved :=
  match context with
  | .top _ => []
  | .guard base _ _ =>
    match restart with
    | [] => []
    | saved :: rest =>
      match saved.priority with
      | .deferred => []
      | .preferred nest _ => if nest > base then [] else saved :: rest

def topOf : Context → Context
  | .top base => .top base
  | .guard _ nest _ => .top nest

/-- One call of `run`: the arguments of the next call, or what is printed. -/
def step (config : Config) : Config ⊕ Printed :=
  let ⟨emitted, output, ⟨⟨input, indent, assoc, next, context⟩, restart⟩⟩ := config
  match input with
  | [] =>
    match next with
    | .delim indent :: next =>
      .inl ⟨emitted, output,
        ⟨⟨[], indent, assoc, next, endGuard context⟩, restart⟩⟩
    | [] =>
      let dumped := dump output
      .inr ⟨emitted ++ dumped.1, String.join (getLines [] dumped.2.buffer)⟩
    | .next input assoc :: next =>
      .inl ⟨emitted, output, ⟨⟨input, indent, assoc, next, context⟩, restart⟩⟩
  | .sequence [] :: input =>
    .inl ⟨emitted, output, ⟨⟨input, indent, assoc, next, context⟩, restart⟩⟩
  | [.sequence newInput] =>
    .inl ⟨emitted, output, ⟨⟨newInput, indent, assoc, next, context⟩, restart⟩⟩
  | .sequence newInput :: input =>
    .inl ⟨emitted, output,
      ⟨⟨newInput, indent, sequenceAssoc input assoc,
        .next input (rightAssoc assoc) :: next, context⟩, restart⟩⟩
  | .startOfIndent n :: input =>
    .inl ⟨emitted, output,
      ⟨⟨input, ⟨indent.level + n, n :: indent.indents⟩, assoc, next, context⟩,
        restart⟩⟩
  | .endOfIndent :: input =>
    .inl ⟨emitted, output,
      ⟨⟨input, endIndent indent, assoc, next, context⟩, restart⟩⟩
  | .guard (some ⟨cut, strength, direction⟩) body :: input =>
    let innerAssoc : Assoc := ⟨strength, direction⟩
    let outerAssoc := guardAssoc input assoc
    if cut || isWeakerThanOrEqualTo outerAssoc innerAssoc then
      .inl ⟨emitted, output,
        ⟨⟨[.guard none body], indent, innerAssoc,
          .next input (rightAssoc assoc) :: next, context⟩, restart⟩⟩
    else
      .inl ⟨emitted, output,
        ⟨⟨[.term 1 "("], indent, outerAssoc,
          .next [.guard none body] innerAssoc
            :: .next (.term 1 ")" :: input) (rightAssoc assoc) :: next,
          context⟩, restart⟩⟩
  | .guard none body :: input =>
    .inl ⟨emitted, output,
      ⟨⟨body, ⟨output.column, []⟩, guardAssoc input assoc,
        .delim indent :: .next input (rightAssoc assoc) :: next,
        startGuard context⟩, restart⟩⟩
  | .indicator space (some (.preferred n)) :: input =>
    match context with
    | .top base =>
      .inl ⟨emitted, output,
        ⟨⟨.newline :: input, indent, assoc, next, .top base⟩, restart⟩⟩
    | .guard base nest priority =>
      if nest = base ∧ n ≤ priority then
        .inl ⟨emitted, output,
          ⟨⟨.newline :: input, indent, assoc, next, .guard base nest priority⟩,
            restart⟩⟩
      else
        .inl ⟨emitted, output,
          ⟨⟨spaceBefore space input, indent, assoc, next,
              .guard base nest priority⟩,
            if precedesToRestart (.preferred nest n) restart then
              ⟨.preferred nest n, output,
                ⟨.newline :: input, indent, assoc, next, .guard nest nest n⟩⟩
                :: restart
            else restart⟩⟩
  | .indicator space (some .deferred) :: input =>
    .inl ⟨emitted, output,
      ⟨⟨spaceBefore space input, indent, assoc, next, context⟩,
        if precedesToRestart .deferred restart then
          ⟨.deferred, output,
            ⟨.newline :: input, indent, assoc, next, topOf context⟩⟩ :: restart
        else restart⟩⟩
  | .indicator space none :: input =>
    .inl ⟨emitted, output,
      ⟨⟨spaceBefore space input, indent, assoc, next, context⟩, restart⟩⟩
  | .newline :: input =>
    let newRestart := newlineRestart context restart
    match newRestart with
    | [] =>
      let dumped := dump (putNewline output)
      .inl ⟨emitted ++ dumped.1, putSpace dumped.2 indent.level,
        ⟨⟨input, indent, rightAssoc assoc, next, context⟩, newRestart⟩⟩
    | _ :: _ =>
      .inl ⟨emitted, putSpace (putNewline output) indent.level,
        ⟨⟨input, indent, rightAssoc assoc, next, context⟩, newRestart⟩⟩
  | .term len text :: input =>
    if canPut output len then
      .inl ⟨emitted, putString output len text,
        ⟨⟨input, indent, rightAssoc assoc, next, context⟩, restart⟩⟩
    else
      match restart with
      | saved :: restart => .inl ⟨emitted, saved.output, ⟨saved.frame, restart⟩⟩
      | [] =>
        .inl ⟨emitted, putString output len text,
          ⟨⟨input, indent, rightAssoc assoc, next, topOf context⟩, []⟩⟩

/-- The machine returns where all input is used up. -/
theorem step_done {config : Config} {printed : Printed}
    (hstep : step config = .inr printed) :
    config.state.frame.input = [] ∧ config.state.frame.next = [] ∧
      printed = ⟨config.emitted ++ (dump config.output).1,
        String.join (getLines [] (dump config.output).2.buffer)⟩ := by
  obtain ⟨emitted, output, ⟨⟨input, indent, assoc, next, context⟩, restart⟩⟩ := config
  match input, hstep with
  | [], hstep =>
    match next, hstep with
    | [], hstep => exact ⟨rfl, rfl, (Sum.inr.inj hstep).symm⟩
    | .delim _ :: _, hstep => cases hstep
    | .next _ _ :: _, hstep => cases hstep
  | .sequence [] :: _, hstep => cases hstep
  | [.sequence (_ :: _)], hstep => cases hstep
  | .sequence (_ :: _) :: _ :: _, hstep => cases hstep
  | .startOfIndent _ :: _, hstep => cases hstep
  | .endOfIndent :: _, hstep => cases hstep
  | .guard (some ⟨cut, strength, direction⟩) _ :: _, hstep =>
    simp only [step] at hstep
    split at hstep <;> cases hstep
  | .guard none _ :: _, hstep => cases hstep
  | .indicator _ (some (.preferred _)) :: _, hstep =>
    simp only [step] at hstep
    split at hstep
    · cases hstep
    · split at hstep <;> cases hstep
  | .indicator _ (some .deferred) :: _, hstep => cases hstep
  | .indicator _ none :: _, hstep => cases hstep
  | .newline :: _, hstep =>
    simp only [step] at hstep
    split at hstep <;> cases hstep
  | .term _ _ :: _, hstep =>
    simp only [step] at hstep
    split at hstep
    · cases hstep
    · split at hstep <;> cases hstep

/-! ### Termination -/

mutual

/-- The number of steps that an expression takes at most when no restart is
taken.  An indicator leaves the same work to the state and to its restart. -/
def Expression.weight : Expression → Nat
  | .term _ _ => 1
  | .newline => 1
  | .guard none body => weights body + 3
  | .guard (some _) body => weights body + 8
  | .indicator _ _ => 3
  | .startOfIndent _ => 1
  | .endOfIndent => 1
  | .sequence body => weights body + 2

def weights : List Expression → Nat
  | [] => 0
  | expression :: expressions => expression.weight + weights expressions

end

def Next.weight : Next → Nat
  | .next input _ => weights input + 1
  | .delim _ => 1

def nextWeights : List Next → Nat
  | [] => 0
  | next :: rest => next.weight + nextWeights rest

def Frame.weight (frame : Frame) : Nat :=
  weights frame.input + nextWeights frame.next

def savedRank : List Saved → Nat
  | [] => 0
  | saved :: rest => 2 ^ saved.frame.weight + savedRank rest

def Config.rank (config : Config) : Nat :=
  2 ^ config.state.frame.weight + savedRank config.state.restart

@[simp] theorem weights_nil : weights [] = 0 := rfl

@[simp] theorem weights_cons (expression : Expression)
    (expressions : List Expression) :
    weights (expression :: expressions) = expression.weight + weights expressions :=
  rfl

@[simp] theorem nextWeights_nil : nextWeights [] = 0 := rfl

@[simp] theorem nextWeights_cons (next : Next) (rest : List Next) :
    nextWeights (next :: rest) = next.weight + nextWeights rest := rfl

theorem weights_spaceBefore (space : Bool) (input : List Expression) :
    weights (spaceBefore space input) ≤ weights input + 1 := by
  cases space with
  | false => exact Nat.le_succ _
  | true => simp [spaceBefore, Expression.weight, Nat.add_comm]

theorem newlineRestart_eq (context : Context) (restart : List Saved) :
    newlineRestart context restart = [] ∨
      newlineRestart context restart = restart := by
  unfold newlineRestart
  repeat' split
  all_goals simp

theorem savedRank_newlineRestart (context : Context) (restart : List Saved) :
    savedRank (newlineRestart context restart) ≤ savedRank restart := by
  rcases newlineRestart_eq context restart with hnone | hsame
  · rw [hnone]
    exact Nat.zero_le _
  · rw [hsame]

/-- Ahead with the input, with the restarts that there were. -/
theorem rank_lt_of_weight_lt {config config' : Config}
    (hweight : config'.state.frame.weight < config.state.frame.weight)
    (hrestart : savedRank config'.state.restart ≤ savedRank config.state.restart) :
    config'.rank < config.rank := by
  have hpow : 2 ^ config'.state.frame.weight < 2 ^ config.state.frame.weight :=
    Nat.pow_lt_pow_right (by decide) hweight
  unfold Config.rank
  omega

/-- Ahead with the input, with one restart more. -/
theorem rank_lt_of_restart {config config' : Config} {saved : Saved}
    {restart : List Saved}
    (hweight : config'.state.frame.weight + 2 ≤ config.state.frame.weight)
    (hsaved : saved.frame.weight + 2 ≤ config.state.frame.weight)
    (hrestart : config'.state.restart = saved :: restart)
    (hrest : config.state.restart = restart) : config'.rank < config.rank := by
  have hpow : 2 ^ config'.state.frame.weight + 2 ^ saved.frame.weight
      < 2 ^ config.state.frame.weight := by
    have h1 : 2 ^ (config'.state.frame.weight + 2) ≤ 2 ^ config.state.frame.weight :=
      Nat.pow_le_pow_right (by decide) hweight
    have h2 : 2 ^ (saved.frame.weight + 2) ≤ 2 ^ config.state.frame.weight :=
      Nat.pow_le_pow_right (by decide) hsaved
    have hpos : 0 < 2 ^ config.state.frame.weight := Nat.two_pow_pos _
    rw [Nat.pow_add] at h1 h2
    omega
  unfold Config.rank
  rw [hrestart, hrest, savedRank]
  omega

theorem step_rank_lt {config config' : Config}
    (hstep : step config = .inl config') : config'.rank < config.rank := by
  obtain ⟨emitted, output, ⟨⟨input, indent, assoc, next, context⟩, restart⟩⟩ := config
  match input, hstep with
  | [], hstep =>
    match next, hstep with
    | .delim _ :: _, hstep =>
      cases hstep
      exact rank_lt_of_weight_lt
        (by simp [Frame.weight, Next.weight]) (Nat.le_refl _)
    | .next _ _ :: _, hstep =>
      cases hstep
      exact rank_lt_of_weight_lt
        (by simp [Frame.weight, Next.weight]) (Nat.le_refl _)
  | .sequence [] :: _, hstep =>
    cases hstep
    exact rank_lt_of_weight_lt
      (by simp [Frame.weight, Expression.weight]) (Nat.le_refl _)
  | [.sequence (_ :: _)], hstep =>
    cases hstep
    exact rank_lt_of_weight_lt
      (by simp [Frame.weight, Expression.weight]) (Nat.le_refl _)
  | .sequence (_ :: _) :: _ :: _, hstep =>
    cases hstep
    exact rank_lt_of_weight_lt
      (by simp [Frame.weight, Expression.weight, Next.weight]; omega)
      (Nat.le_refl _)
  | .startOfIndent _ :: _, hstep =>
    cases hstep
    exact rank_lt_of_weight_lt
      (by simp [Frame.weight, Expression.weight]) (Nat.le_refl _)
  | .endOfIndent :: _, hstep =>
    cases hstep
    exact rank_lt_of_weight_lt
      (by simp [Frame.weight, Expression.weight]) (Nat.le_refl _)
  | .guard (some ⟨cut, strength, direction⟩) body :: input, hstep =>
    simp only [step] at hstep
    split at hstep
    · cases hstep
      exact rank_lt_of_weight_lt
        (by simp [Frame.weight, Expression.weight, Next.weight]; omega)
        (Nat.le_refl _)
    · cases hstep
      exact rank_lt_of_weight_lt
        (by simp [Frame.weight, Expression.weight, Next.weight]; omega)
        (Nat.le_refl _)
  | .guard none body :: input, hstep =>
    cases hstep
    exact rank_lt_of_weight_lt
      (by simp [Frame.weight, Expression.weight, Next.weight]; omega)
      (Nat.le_refl _)
  | .indicator space (some (.preferred n)) :: input, hstep =>
    have hspace := weights_spaceBefore space input
    match context, hstep with
    | .top _, hstep =>
      cases hstep
      exact rank_lt_of_weight_lt
        (by simp [Frame.weight, Expression.weight]) (Nat.le_refl _)
    | .guard base nest priority, hstep =>
      simp only [step] at hstep
      split at hstep
      · cases hstep
        exact rank_lt_of_weight_lt
          (by simp [Frame.weight, Expression.weight]) (Nat.le_refl _)
      · cases hstep
        split
        · exact rank_lt_of_restart
            (by simp [Frame.weight, Expression.weight]; omega)
            (by simp [Frame.weight, Expression.weight]; omega) rfl rfl
        · exact rank_lt_of_weight_lt
            (by simp [Frame.weight, Expression.weight]; omega) (Nat.le_refl _)
  | .indicator space (some .deferred) :: input, hstep =>
    have hspace := weights_spaceBefore space input
    cases hstep
    split
    · exact rank_lt_of_restart
        (by simp [Frame.weight, Expression.weight]; omega)
        (by simp [Frame.weight, Expression.weight]; omega) rfl rfl
    · exact rank_lt_of_weight_lt
        (by simp [Frame.weight, Expression.weight]; omega) (Nat.le_refl _)
  | .indicator space none :: input, hstep =>
    have hspace := weights_spaceBefore space input
    cases hstep
    exact rank_lt_of_weight_lt
      (by simp [Frame.weight, Expression.weight]; omega) (Nat.le_refl _)
  | .newline :: input, hstep =>
    have hrestart := savedRank_newlineRestart context restart
    simp only [step] at hstep
    split at hstep
    · cases hstep
      exact rank_lt_of_weight_lt
        (by simp [Frame.weight, Expression.weight]) hrestart
    · cases hstep
      exact rank_lt_of_weight_lt
        (by simp [Frame.weight, Expression.weight]) hrestart
  | .term len text :: input, hstep =>
    simp only [step] at hstep
    split at hstep
    · cases hstep
      exact rank_lt_of_weight_lt
        (by simp [Frame.weight, Expression.weight]) (Nat.le_refl _)
    · match restart, hstep with
      | saved :: restart, hstep =>
        cases hstep
        have hpos : 0 < 2 ^ Frame.weight ⟨.term len text :: input, indent, assoc,
          next, context⟩ := Nat.two_pow_pos _
        simp only [Config.rank, savedRank]
        omega
      | [], hstep =>
        cases hstep
        exact rank_lt_of_weight_lt
          (by simp [Frame.weight, Expression.weight]) (Nat.le_refl _)

/-- The machine stops on every input. -/
def terminating : Machine.Terminating step where
  rank := Config.rank
  rank_lt := step_rank_lt

def run (config : Config) : Printed :=
  Machine.run terminating config

theorem run_end (emitted : List String) (output : Output) (indent : Indent)
    (assoc : Assoc) (context : Context) (restart : List Saved) :
    run ⟨emitted, output, ⟨⟨[], indent, assoc, [], context⟩, restart⟩⟩ =
      ⟨emitted ++ (dump output).1,
        String.join (getLines [] (dump output).2.buffer)⟩ :=
  Machine.run_done rfl

def start (outputFn : Bool) (width : Int) (expressions : List Expression) :
    Config :=
  ⟨[], ⟨outputFn, [], 0, width⟩,
    ⟨⟨[.guard none expressions], ⟨0, []⟩, ⟨0, .neutral⟩, [], .top 0⟩, []⟩⟩

/-- `format` with or without an output function. -/
def format (outputFn : Bool) (width : Int) (expressions : List Expression) :
    Printed :=
  run (start outputFn width expressions)

/-- A text that does not fit brings back the state of the first restart. -/
inductive Restarts : Config → Config → Prop
  | mk {emitted : List String} {output : Output} {len : Int} {text : String}
      {input : List Expression} {indent : Indent} {assoc : Assoc} {next : List Next}
      {context : Context} {saved : Saved} {restart : List Saved}
      (hfit : canPut output len = false) :
      Restarts
        ⟨emitted, output,
          ⟨⟨.term len text :: input, indent, assoc, next, context⟩, saved :: restart⟩⟩
        ⟨emitted, saved.output, ⟨saved.frame, restart⟩⟩

theorem Restarts.step_eq {config config' : Config} (h : Restarts config config') :
    step config = .inl config' := by
  cases h with
  | mk hfit => simp [step, hfit]

/-- From every configuration the printer returns within its rank; a restart makes
the rank smaller, and no run comes back to a configuration. -/
theorem run_terminates :
    (∀ config, ∃ count ≤ config.rank,
      Machine.loop step (count + 1) config = some (run config)) ∧
    (∀ outputFn width expressions, ∃ count,
      Machine.loop step count (start outputFn width expressions) =
        some (format outputFn width expressions)) ∧
    (∀ config config', Restarts config config' →
      step config = .inl config' ∧ config'.rank < config.rank) ∧
    ∀ config config',
      Relation.TransGen (fun config config' => step config = .inl config')
        config config' → config'.rank < config.rank ∧ config' ≠ config := by
  refine ⟨Machine.loop_run terminating, ?_, ?_, ?_⟩
  · intro outputFn width expressions
    obtain ⟨count, -, hloop⟩ :=
      Machine.loop_run terminating (start outputFn width expressions)
    exact ⟨count + 1, hloop⟩
  · intro config config' hrestart
    exact ⟨hrestart.step_eq, step_rank_lt hrestart.step_eq⟩
  · intro config config' hsteps
    have hlt : config'.rank < config.rank :=
      Machine.rank_lt_of_steps terminating hsteps
    refine ⟨hlt, ?_⟩
    rintro rfl
    exact Nat.lt_irrefl _ hlt

/-- With no room at all, a deferred line break is taken back to. -/
theorem run_terminates_narrow :
    let saved : Saved := ⟨.deferred, ⟨false, [], 0, 0⟩,
      ⟨[.newline, .term 1 "a"], ⟨0, []⟩, ⟨0, .neutral⟩, [], .top 0⟩⟩
    let config : Config := ⟨[], ⟨false, [], 0, 0⟩,
      ⟨⟨[.term 1 "a"], ⟨0, []⟩, ⟨0, .neutral⟩, [], .top 0⟩, [saved]⟩⟩
    Config.rank ⟨[], saved.output, ⟨saved.frame, []⟩⟩ < config.rank :=
  (run_terminates.2.2.1 _ _ (Restarts.mk (by decide))).2

end PrettyPrinter2

end SmlSharp
