/-
The rendering on one line, and when it is printed.
-/
import SmlSharp.PrettyPrinter2.Layout

namespace SmlSharp

namespace PrettyPrinter2

/-! ### The flat rendering -/

/-- The associativity that `run` has at an expression, with `rest` after it in
its list. -/
def headAssoc (expression : Expression) (rest : List Expression)
    (assoc : Assoc) : Assoc :=
  match expression, rest with
  | .guard _ _, rest => guardAssoc rest assoc
  | .sequence _, [] => assoc
  | .sequence _, rest => sequenceAssoc rest assoc
  | _, _ => assoc

/-- The associativity that `run` has after a flat expression. -/
def restAssoc (expression : Expression) (assoc : Assoc) : Assoc :=
  match expression with
  | .term _ _ => rightAssoc assoc
  | .newline => rightAssoc assoc
  | .guard _ _ => rightAssoc assoc
  | .indicator true _ => rightAssoc assoc
  | .indicator false _ => assoc
  | .startOfIndent _ => assoc
  | .endOfIndent => assoc
  | .sequence [] => assoc
  | .sequence (_ :: _) => rightAssoc assoc

mutual

/-- The texts of an expression on one line, with their lengths. -/
def Expression.flat (assoc : Assoc) : Expression → List (Int × String)
  | .term len text => [(len, text)]
  | .newline => []
  | .guard none body => flatAll assoc body
  | .guard (some inner) body =>
    if isBare assoc inner then flatAll inner.toAssoc body
    else (1, "(") :: (flatAll inner.toAssoc body ++ [(1, ")")])
  | .indicator true _ => [(1, " ")]
  | .indicator false _ => []
  | .startOfIndent _ => []
  | .endOfIndent => []
  | .sequence body => flatAll assoc body

def flatAll (assoc : Assoc) : List Expression → List (Int × String)
  | [] => []
  | expression :: rest =>
    expression.flat (headAssoc expression rest assoc)
      ++ flatAll (restAssoc expression assoc) rest

end

/-- The flat rendering of format expressions. -/
def flat (expressions : List Expression) : List (Int × String) :=
  flatAll ⟨0, .neutral⟩ expressions

def flatText (texts : List (Int × String)) : String :=
  String.join (texts.map Prod.snd)

def flatWidth (texts : List (Int × String)) : Int :=
  (texts.map Prod.fst).sum

/-- From `column` on, no text goes beyond the width. -/
def Fits (width column : Int) : List (Int × String) → Prop
  | [] => True
  | text :: texts => column + text.1 ≤ width ∧ Fits width (column + text.1) texts

instance Fits.decidable (width : Int) : (column : Int) →
    (texts : List (Int × String)) → Decidable (Fits width column texts)
  | _, [] => inferInstanceAs (Decidable True)
  | column, text :: texts =>
    have := Fits.decidable width (column + text.1) texts
    inferInstanceAs (Decidable (column + text.1 ≤ width ∧
      Fits width (column + text.1) texts))

mutual

/-- Whether an expression can be on one line: it has no unconditional line
break and, where it is in the outermost guard, each preferred indicator outside
of inner guards has a priority of at least one. -/
def Expression.oneLine (outermost : Bool) : Expression → Bool
  | .term _ _ => true
  | .newline => false
  | .guard _ body => oneLine false body
  | .indicator _ (some (.preferred priority)) => !outermost || decide (1 ≤ priority)
  | .indicator _ (some .deferred) => true
  | .indicator _ none => true
  | .startOfIndent _ => true
  | .endOfIndent => true
  | .sequence body => oneLine outermost body

def oneLine (outermost : Bool) : List Expression → Bool
  | [] => true
  | expression :: rest => expression.oneLine outermost && oneLine outermost rest

end

theorem flatWidth_cons (text : Int × String) (texts : List (Int × String)) :
    flatWidth (text :: texts) = text.1 + flatWidth texts := by
  simp [flatWidth]

variable {texts : List (Int × String)} {inner' : Assoc} {nest : Nat} {rest : List Expression}
  {assoc : Assoc}

theorem fits_append {width column : Int} {texts' : List (Int × String)} :
    Fits width column (texts ++ texts') ↔
      Fits width column texts ∧ Fits width (column + flatWidth texts) texts' := by
  induction texts generalizing column with
  | nil => simp [Fits, flatWidth]
  | cons text texts ih =>
    rw [flatWidth_cons, ← Int.add_assoc]
    simp [Fits, ih, and_assoc]

/-! ### The run on one line -/

def putStrings (output : Output) : List (Int × String) → Output
  | [] => output
  | text :: texts => putStrings (putString output text.1 text.2) texts

theorem putStrings_append (output : Output) (texts texts' : List (Int × String)) :
    putStrings output (texts ++ texts') =
      putStrings (putStrings output texts) texts' := by
  induction texts generalizing output with
  | nil => rfl
  | cons text texts ih => exact ih _

theorem putStrings_column (output : Output) (texts : List (Int × String)) :
    (putStrings output texts).column = output.column + flatWidth texts := by
  induction texts generalizing output with
  | nil => simp [putStrings, flatWidth]
  | cons text texts ih =>
    simp [putStrings, ih, putString, flatWidth, Int.add_assoc]

theorem putStrings_width (output : Output) (texts : List (Int × String)) :
    (putStrings output texts).width = output.width := by
  induction texts generalizing output with
  | nil => rfl
  | cons text texts ih => exact ih _

theorem putStrings_outputFn (output : Output) (texts : List (Int × String)) :
    (putStrings output texts).outputFn = output.outputFn := by
  induction texts generalizing output with
  | nil => rfl
  | cons text texts ih => exact ih _

theorem putStrings_text {output : Output} {before : String}
    (hbefore : ∀ atEnd, bufferText atEnd output.buffer = before)
    (texts : List (Int × String)) (atEnd : Bool) :
    bufferText atEnd (putStrings output texts).buffer =
      before ++ flatText texts := by
  induction texts generalizing output before with
  | nil => simp [putStrings, flatText, hbefore]
  | cons text texts ih =>
    have htext : ∀ atEnd, bufferText atEnd (putString output text.1 text.2).buffer =
        before ++ text.2 := by
      intro atEnd
      unfold putString
      by_cases hempty : text.2 = ""
      · simp [hempty, hbefore]
      · simp [hempty, bufferText, hbefore]
    rw [putStrings, ih htext]
    simp [flatText, String.append_assoc]

/-- The texts that fit are printed, and the input behind them is reached. -/
def PrintsFlat (context : Context) (input : List Expression) (assoc : Assoc)
    (texts : List (Int × String)) (rest : List Expression) (assoc' : Assoc) :
    Prop :=
  ∀ (emitted : List String) (output : Output) (indent : Indent)
    (next : List Next) (restart : List Saved),
    Fits output.width output.column texts →
      ∃ indent' restart', Machine.Steps step
        ⟨emitted, output, ⟨⟨input, indent, assoc, next, context⟩, restart⟩⟩
        ⟨emitted, putStrings output texts,
          ⟨⟨rest, indent', assoc', next, context⟩, restart'⟩⟩

section PrintsFlat

variable {context : Context} {input input' rest : List Expression}
  {assoc assoc' assoc'' : Assoc} {texts texts' : List (Int × String)}

theorem PrintsFlat.done : PrintsFlat context rest assoc [] rest assoc :=
  fun _ _ indent _ restart _ => ⟨indent, restart, .refl⟩

theorem PrintsFlat.trans (h : PrintsFlat context input assoc texts input' assoc')
    (h' : PrintsFlat context input' assoc' texts' rest assoc'') :
    PrintsFlat context input assoc (texts ++ texts') rest assoc'' := by
  intro emitted output indent next restart hfits
  obtain ⟨hfirst, hsecond⟩ := fits_append.mp hfits
  rw [← putStrings_column, ← putStrings_width output texts] at hsecond
  obtain ⟨indent', restart', hsteps⟩ := h emitted output indent next restart hfirst
  obtain ⟨indent'', restart'', hsteps'⟩ :=
    h' emitted (putStrings output texts) indent' next restart' hsecond
  rw [putStrings_append]
  exact ⟨indent'', restart'', hsteps.trans hsteps'⟩

/-- A step that prints nothing. -/
theorem PrintsFlat.quiet (hstep : ∀ emitted output indent next restart, ∃ indent' restart',
      step ⟨emitted, output, ⟨⟨input, indent, assoc, next, context⟩, restart⟩⟩ =
        .inl ⟨emitted, output,
          ⟨⟨input', indent', assoc', next, context⟩, restart'⟩⟩)
    (h : PrintsFlat context input' assoc' texts rest assoc'') :
    PrintsFlat context input assoc texts rest assoc'' := by
  intro emitted output indent next restart hfits
  obtain ⟨indent', restart', hnext⟩ := hstep emitted output indent next restart
  obtain ⟨indent'', restart'', hsteps⟩ :=
    h emitted output indent' next restart' hfits
  exact ⟨indent'', restart'', hsteps.head hnext⟩

theorem PrintsFlat.term (len : Int) (text : String) :
    PrintsFlat context (.term len text :: rest) assoc [(len, text)] rest
      (rightAssoc assoc) := by
  intro emitted output indent next restart hfits
  have hcan : canPut output len = true := decide_eq_true hfits.1
  refine ⟨indent, restart, .single ?_⟩
  simp only [step, hcan, if_true]
  rfl

/-- The space of an indicator. -/
theorem PrintsFlat.spaceBefore (context : Context) (space : Bool)
    (rest : List Expression) (assoc : Assoc) :
    PrintsFlat context (spaceBefore space rest) assoc
      (if space then [(1, " ")] else []) rest
      (if space then rightAssoc assoc else assoc) := by
  cases space with
  | false => exact .done
  | true => exact .term 1 " "

/-- An input that was pushed onto `next`. -/
theorem PrintsFlat.pop {body : List Expression} {inner : Assoc}
    (h : PrintsFlat context body inner texts [] inner') (emitted : List String)
    (output : Output) (indent : Indent) (next : List Next) (restart : List Saved)
    (hfits : Fits output.width output.column texts) :
    ∃ indent' restart', Machine.Steps step ⟨emitted, output,
        ⟨⟨body, indent, inner, .next rest assoc' :: next, context⟩, restart⟩⟩
      ⟨emitted, putStrings output texts,
        ⟨⟨rest, indent', assoc', next, context⟩, restart'⟩⟩ := by
  obtain ⟨indent', restart', hsteps⟩ :=
    h emitted output indent (.next rest assoc' :: next) restart hfits
  exact ⟨indent', restart', hsteps.tail rfl⟩

/-- A step that pushes an input onto `next`. -/
theorem PrintsFlat.pushed {body : List Expression} {inner : Assoc}
    (hstep : ∀ emitted output indent next restart,
      step ⟨emitted, output, ⟨⟨input, indent, assoc, next, context⟩, restart⟩⟩ =
        .inl ⟨emitted, output,
          ⟨⟨body, indent, inner, .next rest assoc' :: next, context⟩, restart⟩⟩)
    (h : PrintsFlat context body inner texts [] inner') :
    PrintsFlat context input assoc texts rest assoc' := by
  intro emitted output indent next restart hfits
  obtain ⟨indent', restart', hsteps⟩ :=
    h.pop emitted output indent next restart hfits
  exact ⟨indent', restart', hsteps.head (hstep _ _ _ _ _)⟩

end PrintsFlat

/-- The contexts on one line: `nest` guards inside of the outermost one. -/
def flatContext (nest : Nat) : Context := .guard 0 nest 0

theorem endGuard_startGuard (nest : Nat) :
    endGuard (startGuard (flatContext nest)) = flatContext nest := by
  have hinner : (0 : Int) ≠ nest + 1 := by omega
  simp only [startGuard, endGuard, flatContext, if_neg hinner]
  rw [Int.add_sub_cancel]

theorem PrintsFlat.guard {nest : Nat} {body rest : List Expression}
    {assoc inner' : Assoc} {texts : List (Int × String)}
    (h : PrintsFlat (flatContext (nest + 1)) body (guardAssoc rest assoc) texts []
      inner') :
    PrintsFlat (flatContext nest) (.guard none body :: rest) assoc texts rest
      (rightAssoc assoc) := by
  intro emitted output indent next restart hfits
  obtain ⟨indent', restart', hsteps⟩ := h emitted output ⟨output.column, []⟩
    (.delim indent :: .next rest (rightAssoc assoc) :: next) restart hfits
  have hopen : step ⟨emitted, output, ⟨⟨.guard none body :: rest, indent, assoc,
        next, flatContext nest⟩, restart⟩⟩ =
      .inl ⟨emitted, output, ⟨⟨body, ⟨output.column, []⟩, guardAssoc rest assoc,
        .delim indent :: .next rest (rightAssoc assoc) :: next,
        flatContext (nest + 1)⟩, restart⟩⟩ := rfl
  have hclose : step ⟨emitted, putStrings output texts, ⟨⟨[], indent', inner',
        .delim indent :: .next rest (rightAssoc assoc) :: next,
        flatContext (nest + 1)⟩, restart'⟩⟩ =
      .inl ⟨emitted, putStrings output texts, ⟨⟨[], indent, inner',
        .next rest (rightAssoc assoc) :: next, flatContext nest⟩, restart'⟩⟩ := by
    have hcontext : endGuard (flatContext (nest + 1)) = flatContext nest :=
      endGuard_startGuard nest
    simp only [step, hcontext]
  exact ⟨indent, restart', ((hsteps.head hopen).tail hclose).tail rfl⟩

/-- A guard with an associativity is left bare. -/
theorem PrintsFlat.bare {body : List Expression} {inner : GuardAssoc}
    (hbare : isBare (guardAssoc rest assoc) inner = true)
    (h : PrintsFlat (flatContext (nest + 1)) body inner.toAssoc texts [] inner') :
    PrintsFlat (flatContext nest) (.guard (some inner) body :: rest) assoc texts
      rest (rightAssoc assoc) := by
  have hcond : (inner.cut || isWeakerThanOrEqualTo (guardAssoc rest assoc)
    ⟨inner.strength, inner.direction⟩) = true := hbare
  have hbody : PrintsFlat (flatContext nest) [.guard none body] inner.toAssoc
      texts [] (rightAssoc inner.toAssoc) := .guard h
  refine .pushed (fun emitted output indent next restart => ?_) hbody
  simp only [step, hcond, if_true]
  rfl

theorem PrintsFlat.parens {body : List Expression} {inner : GuardAssoc}
    (hbare : isBare (guardAssoc rest assoc) inner = false)
    (h : PrintsFlat (flatContext (nest + 1)) body inner.toAssoc texts [] inner') :
    PrintsFlat (flatContext nest) (.guard (some inner) body :: rest) assoc
      ((1, "(") :: (texts ++ [(1, ")")])) rest (rightAssoc assoc) := by
  have hcond : (inner.cut || isWeakerThanOrEqualTo (guardAssoc rest assoc)
    ⟨inner.strength, inner.direction⟩) = false := hbare
  have hleft : PrintsFlat (flatContext nest) [.term 1 "("] (guardAssoc rest assoc)
      [(1, "(")] [] (rightAssoc (guardAssoc rest assoc)) := .term 1 "("
  have hguard : PrintsFlat (flatContext nest) [.guard none body] inner.toAssoc
      texts [] (rightAssoc inner.toAssoc) := .guard h
  have hright : PrintsFlat (flatContext nest) (.term 1 ")" :: rest)
      (rightAssoc assoc) [(1, ")")] rest (rightAssoc (rightAssoc assoc)) :=
    .term 1 ")"
  intro emitted output indent next restart hfits
  obtain ⟨hopen, hrest⟩ := hfits
  obtain ⟨hinner, hclose⟩ := fits_append.mp hrest
  let opened := putString output 1 "("
  have hwidth := putStrings_width opened texts
  have hcolumn := putStrings_column opened texts
  have hclose' : Fits (putStrings opened texts).width
      (putStrings opened texts).column [(1, ")")] := by
    rw [hwidth, hcolumn]
    exact hclose
  -- The guard and the closing parenthesis are pending inputs of their own.
  obtain ⟨indent₁, restart₁, hsteps₁⟩ :=
    hleft.pop emitted output indent
      (.next (.term 1 ")" :: rest) (rightAssoc assoc) :: next) restart
      ⟨hopen, trivial⟩
  obtain ⟨indent₂, restart₂, hsteps₂⟩ :=
    hguard.pop emitted opened indent₁ next restart₁ hinner
  obtain ⟨indent₃, restart₃, hsteps₃⟩ :=
    hright emitted (putStrings opened texts) indent₂ next restart₂ hclose'
  rw [rightAssoc_rightAssoc] at hsteps₃
  refine ⟨indent₃, restart₃, ?_⟩
  have hparens : putStrings output ((1, "(") :: (texts ++ [(1, ")")])) =
      putStrings (putStrings opened texts) [(1, ")")] := putStrings_append _ _ _
  rw [hparens]
  refine ((hsteps₁.trans hsteps₂).trans hsteps₃).head ?_
  simp only [step, hcond, Bool.false_eq_true, if_false]
  rfl

/-- In the outermost guard a preferred indicator is a line break only if its
priority is not positive. -/
theorem PrintsFlat.preferred {nest : Nat} {rest : List Expression} {assoc : Assoc}
    {n : Int} (space : Bool) (hline : (!decide (nest = 0) || decide (1 ≤ n)) = true) :
    PrintsFlat (flatContext nest) (.indicator space (some (.preferred n)) :: rest)
      assoc (if space then [(1, " ")] else []) rest
      (if space then rightAssoc assoc else assoc) := by
  have hflat : ¬((nest : Int) = 0 ∧ n ≤ 0) := by
    simp only [Bool.or_eq_true, Bool.not_eq_true', decide_eq_false_iff_not,
      decide_eq_true_eq] at hline
    omega
  refine .quiet (fun emitted output indent next restart => ?_) (.spaceBefore _ space rest assoc)
  simp only [step, flatContext, if_neg hflat]
  exact ⟨_, _, rfl⟩

mutual

theorem Expression.printsFlat (expression : Expression) (nest : Nat)
    (assoc : Assoc) (rest : List Expression)
    (hline : expression.oneLine (decide (nest = 0)) = true) :
    ∃ assoc', PrintsFlat (flatContext nest) (expression :: rest) assoc
        (expression.flat (headAssoc expression rest assoc)) rest assoc' ∧
      (rest ≠ [] → assoc' = restAssoc expression assoc) := by
  match expression with
  | .term len text => exact ⟨_, .term len text, fun _ => rfl⟩
  | .newline => cases hline
  | .startOfIndent n =>
    exact ⟨_, .quiet (fun _ _ _ _ _ => ⟨_, _, rfl⟩) .done, fun _ => rfl⟩
  | .endOfIndent =>
    exact ⟨_, .quiet (fun _ _ _ _ _ => ⟨_, _, rfl⟩) .done, fun _ => rfl⟩
  | .indicator space none =>
    have hprints : PrintsFlat (flatContext nest) (.indicator space none :: rest)
        assoc _ rest _ :=
      .quiet (fun _ _ _ _ _ => ⟨_, _, rfl⟩) (.spaceBefore _ space rest assoc)
    cases space <;> exact ⟨_, hprints, fun _ => rfl⟩
  | .indicator space (some .deferred) =>
    have hprints : PrintsFlat (flatContext nest)
        (.indicator space (some .deferred) :: rest) assoc _ rest _ :=
      .quiet (fun _ _ _ _ _ => ⟨_, _, rfl⟩) (.spaceBefore _ space rest assoc)
    cases space <;> exact ⟨_, hprints, fun _ => rfl⟩
  | .indicator space (some (.preferred n)) =>
    have hprints : PrintsFlat (flatContext nest)
        (.indicator space (some (.preferred n)) :: rest) assoc _ rest _ :=
      .preferred space hline
    cases space <;> exact ⟨_, hprints, fun _ => rfl⟩
  | .sequence [] =>
    exact ⟨_, .quiet (fun _ _ _ _ _ => ⟨_, _, rfl⟩) .done, fun _ => rfl⟩
  | .sequence (first :: body) =>
    match rest with
    | [] =>
      obtain ⟨assoc', hbody⟩ := printsFlat (first :: body) nest assoc hline
      exact ⟨_, .quiet (fun _ _ _ _ _ => ⟨_, _, rfl⟩) hbody,
        fun hne => absurd rfl hne⟩
    | first' :: rest =>
      obtain ⟨assoc', hbody⟩ := printsFlat (first :: body) nest
        (sequenceAssoc (first' :: rest) assoc) hline
      exact ⟨_, .pushed (fun _ _ _ _ _ => rfl) hbody, fun _ => rfl⟩
  | .guard none body =>
    obtain ⟨assoc', hbody⟩ := printsFlat body (nest + 1)
      (guardAssoc rest assoc) hline
    exact ⟨_, .guard hbody, fun _ => rfl⟩
  | .guard (some inner) body =>
    obtain ⟨assoc', hbody⟩ := printsFlat body (nest + 1) inner.toAssoc hline
    cases hbare : isBare (guardAssoc rest assoc) inner with
    | true =>
      have hprints := PrintsFlat.bare hbare hbody
      refine ⟨rightAssoc assoc, ?_, fun _ => rfl⟩
      simpa only [Expression.flat, headAssoc, hbare, if_true] using hprints
    | false =>
      have hprints := PrintsFlat.parens hbare hbody
      refine ⟨rightAssoc assoc, ?_, fun _ => rfl⟩
      simpa [Expression.flat, headAssoc, hbare] using hprints

theorem printsFlat (expressions : List Expression) (nest : Nat) (assoc : Assoc)
    (hline : oneLine (decide (nest = 0)) expressions = true) :
    ∃ assoc', PrintsFlat (flatContext nest) expressions assoc
      (flatAll assoc expressions) [] assoc' := by
  match expressions with
  | [] => exact ⟨_, .done⟩
  | expression :: rest =>
    obtain ⟨hhead, htail⟩ := Bool.and_eq_true_iff.mp hline
    obtain ⟨assoc', hprints, hassoc⟩ :=
      expression.printsFlat nest assoc rest hhead
    match rest with
    | [] =>
      refine ⟨assoc', ?_⟩
      simpa [flatAll] using hprints
    | next :: rest =>
      obtain ⟨assoc'', hrest⟩ := printsFlat (next :: rest) nest assoc' htail
      rw [hassoc (by simp)] at hprints hrest
      exact ⟨assoc'', hprints.trans hrest⟩

end

/-- The flat rendering is printed where it fits. -/
theorem format_flat {width : Int} {expressions : List Expression}
    (hline : oneLine true expressions = true)
    (hfits : Fits width 0 (flat expressions)) :
    (format false width expressions).returned = flatText (flat expressions) := by
  obtain ⟨assoc', hbody⟩ := printsFlat expressions 0 ⟨0, .neutral⟩ hline
  let output : Output := ⟨false, [], 0, width⟩
  obtain ⟨indent', restart', hsteps⟩ := hbody [] output ⟨0, []⟩
    [.delim ⟨0, []⟩, .next [] ⟨0, .neutral⟩] [] hfits
  have hstart : step (start false width expressions) =
      .inl ⟨[], output, ⟨⟨expressions, ⟨0, []⟩, ⟨0, .neutral⟩,
        [.delim ⟨0, []⟩, .next [] ⟨0, .neutral⟩], flatContext 0⟩, []⟩⟩ := rfl
  have hend : run (start false width expressions) = run _ :=
    Machine.run_steps (((hsteps.head hstart).tail rfl).tail rfl)
  have hbatch : (putStrings output (flat expressions)).outputFn = false :=
    putStrings_outputFn _ _
  have hempty : ∀ atEnd, bufferText atEnd output.buffer = "" := fun _ => rfl
  rw [format, hend, run_end]
  simp only
  rw [← flat, dump_batch hbatch, getLines_text, putStrings_text hempty]
  simp

/-! ### What is printed -/

/-- What is printed is the terms in their order, with line breaks, spaces and
parentheses around guards: nothing is lost or printed twice, and where the flat
rendering fits it is printed. -/
theorem format_lossless (outputFn : Bool) (width : Int)
    (expressions : List Expression) :
    (∃ pieces, Laid expressions pieces ∧
      Prints pieces (format outputFn width expressions).text) ∧
    (oneLine true expressions = true → Fits width 0 (flat expressions) →
      (format outputFn width expressions).text = flatText (flat expressions)) := by
  rw [format_text]
  constructor
  · obtain ⟨l, hdecided, hprints⟩ := format_decided width expressions
    have hlaid := hdecided.laid
    generalize l.pieces = pieces at hlaid hprints
    cases hlaid with
    | guard _ hbody hrest =>
      cases hrest
      rw [List.append_nil] at hprints
      exact ⟨_, hbody, hprints⟩
  · intro hline hfits
    exact format_flat hline hfits

/-- Eleven columns fit into eighty, and the preferred break is printed as a
space. -/
theorem format_lossless_greeting :
    (format true 80 [.guard none [.term 5 "Hello", .indicator true
      (some (.preferred 1)), .term 5 "world"]]).text = "Hello world" :=
  (format_lossless true 80 _).2 (by decide) (by decide)

/-- A preferred indicator of priority zero in the outermost guard is a line
break on any width. -/
theorem preferredZero_breaks :
    ¬ ∀ (outputFn : Bool) (width : Int) (expressions : List Expression),
      oneLine false expressions = true → Fits width 0 (flat expressions) →
        (format outputFn width expressions).text = flatText (flat expressions) := by
  intro h
  let expressions := [Expression.indicator false (some (.preferred 0))]
  have hflat := h false 80 expressions rfl trivial
  have hsteps : Machine.Steps step (start false 80 expressions)
      ⟨[], ⟨false, [.newline], 0, 80⟩,
        ⟨⟨[], ⟨0, []⟩, ⟨0, .neutral⟩, [], .top 0⟩, []⟩⟩ :=
    .head rfl (.head rfl (.head rfl (.head rfl (.head rfl .refl))))
  have hprinted : run (start false 80 expressions) = run _ :=
    Machine.run_steps hsteps
  rw [format_text, format, hprinted, run_end, dump_batch rfl, getLines_text]
    at hflat
  exact absurd hflat (by decide)

end PrettyPrinter2

end SmlSharp
