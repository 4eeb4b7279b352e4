/-
The guards that are enclosed in parentheses, against those that the pass on
whole expressions encloses.
-/
import SmlSharp.AssocResolver
import SmlSharp.PrettyPrinter2.Layout

namespace SmlSharp

namespace PrettyPrinter2

open AssocResolver (ParameterRecord toHead toRest hasVisible isVisible flatten
  marksAll Encloses resolve)

/-! ### Where the associativity gets lost -/

/-- What a guard inherits from its position.  It is `kept` unless `run` has
replaced the direction by the neutral one too early. -/
inductive Inherited where
  /-- Not inside of a guard with an associativity. -/
  | outermost
  | inside (assoc : Assoc) (kept : Bool)

/-- Whether nothing follows an expression that inherits, apart from an end of
indentation after a sequence. -/
def isAtEnd (expression : Expression) (rest : List Expression) : Bool :=
  match expression, rest with
  | .guard _ _, [] => true
  | .guard _ _, _ :: _ => false
  | .sequence _, [] => true
  | .sequence _, [.endOfIndent] => true
  | .sequence _, _ :: _ => false
  | _, _ => true

/-- Whether `run` takes an expression for the left operand.  `broken` tells
whether an indicator is a line break. -/
def isLeftOperand (broken : Bool) (expression : Expression) : Bool :=
  match expression with
  | .term _ _ => true
  | .newline => true
  | .guard _ _ => true
  | .indicator space _ => space || broken
  | .startOfIndent _ => false
  | .endOfIndent => false
  | .sequence [] => false
  | .sequence (_ :: _) => true

def neutralIf (lost : Bool) (assoc : Assoc) : Assoc :=
  if lost then ⟨assoc.strength, .neutral⟩ else assoc

def Inherited.head (expression : Expression) (rest : List Expression) :
    Inherited → Inherited
  | .outermost => .outermost
  | .inside assoc kept =>
    .inside (neutralIf (decide (assoc.direction = .right) && hasVisible rest) assoc)
      (kept && (decide (assoc.direction ≠ .right) || isAtEnd expression rest))

def Inherited.rest (broken : Bool) (expression : Expression) :
    Inherited → Inherited
  | .outermost => .outermost
  | .inside assoc kept =>
    .inside
      (neutralIf
        (decide (assoc.direction = .left) && (flatten expression).any isVisible)
        assoc)
      (kept && (decide (assoc.direction ≠ .left) || !isLeftOperand broken expression))

/-- Whether a guard gets the parentheses that it should have.  `run` starts with
strength 0 at the outermost guards, where the reference starts with -1. -/
def Inherited.agrees (inherited : Inherited) (inner : GuardAssoc) : Bool :=
  inner.cut ||
    match inherited with
    | .outermost =>
      !(decide (inner.strength = 0) && decide (inner.direction ≠ .neutral)) &&
        !(decide (inner.strength = -1) && decide (inner.direction = .neutral))
    | .inside assoc kept =>
      kept || !(decide (inner.toAssoc = assoc) && decide (assoc.direction ≠ .neutral))

mutual

/-- With the indicators that are line breaks, and those that are left over. -/
def Expression.agrees (inherited : Inherited) :
    Expression → List Bool → Bool × List Bool
  | .term _ _, breaks => (true, breaks)
  | .newline, breaks => (true, breaks)
  | .guard none body, breaks => agrees inherited body breaks
  | .guard (some inner) body, breaks =>
    let inside := agrees (.inside inner.toAssoc true) body breaks
    (inherited.agrees inner && inside.1, inside.2)
  | .indicator _ _, breaks => (true, breaks.tail)
  | .startOfIndent _, breaks => (true, breaks)
  | .endOfIndent, breaks => (true, breaks)
  | .sequence body, breaks => agrees inherited body breaks

def agrees (inherited : Inherited) :
    List Expression → List Bool → Bool × List Bool
  | [], breaks => (true, breaks)
  | expression :: rest, breaks =>
    let first := expression.agrees (inherited.head expression rest) breaks
    let others :=
      agrees (inherited.rest (breaks.headD false) expression) rest first.2
    (first.1 && others.1, others.2)

end

/-! ### The two inheritances side by side -/

/-- The associativity of `run` and that of the reference. -/
inductive Inherits : Inherited → Assoc → GuardAssoc → Prop where
  | outermost : Inherits .outermost ⟨0, .neutral⟩ ⟨true, -1, .neutral⟩
  | inside (kept : Bool) (assoc : GuardAssoc) :
      Inherits (.inside assoc.toAssoc kept) (neutralIf (!kept) assoc.toAssoc) assoc

theorem weakThan_or_equal (outer inner : GuardAssoc) :
    (AssocResolver.weakThan outer inner || AssocResolver.equal outer inner) =
      isWeakerThanOrEqualTo outer.toAssoc inner.toAssoc := by
  obtain ⟨_, s, d⟩ := outer
  obtain ⟨_, s', d'⟩ := inner
  simp only [AssocResolver.weakThan, AssocResolver.equal, isWeakerThanOrEqualTo,
    GuardAssoc.toAssoc]
  rcases Int.lt_trichotomy s s' with hlt | heq | hgt
  · simp [hlt]
  · subst heq
    cases d <;> cases d' <;> simp
  · have hnlt : ¬ s < s' := by omega
    have hne : s ≠ s' := by omega
    have hnle : ¬ s ≤ s' := by omega
    cases d <;> cases d' <;> simp [hnlt, hne, hnle]

variable {inherited : Inherited} {assoc : Assoc} {reference : GuardAssoc}

theorem agrees_iff (h : Inherits inherited assoc reference) (inner : GuardAssoc) :
    inherited.agrees inner = true ↔
      isBare assoc inner = isBare reference.toAssoc inner := by
  obtain ⟨cut, s, d⟩ := inner
  cases cut with
  | true => simp [Inherited.agrees, isBare]
  | false =>
    cases h with
    | outermost =>
      simp only [Inherited.agrees, isBare, isWeakerThanOrEqualTo,
        GuardAssoc.toAssoc, Bool.false_or]
      cases d <;> simp <;> grind
    | inside kept _ =>
      cases kept with
      | true => simp [Inherited.agrees, neutralIf]
      | false =>
        obtain ⟨_, s', d'⟩ := reference
        simp only [Inherited.agrees, isBare, isWeakerThanOrEqualTo,
          GuardAssoc.toAssoc, neutralIf, Bool.false_or]
        cases d <;> cases d' <;> simp <;> grind

theorem Inherits.of_eq {kept : Bool} {assoc' : Assoc} (hreference : assoc = reference.toAssoc)
    (hassoc : assoc' = neutralIf (!kept) assoc) :
    Inherits (.inside assoc kept) assoc' reference := by
  subst hassoc hreference
  exact .inside kept reference

section Inherits

variable {inherited : Inherited} {assoc : Assoc} {reference : GuardAssoc}
  {expression : Expression} {others : List Expression}

/-- At the head of a list `run` takes off a direction to the right if something
follows. -/
theorem Inherits.head (expression : Expression) (others : List Expression)
    (h : Inherits inherited assoc reference)
    (hvisible : hasVisible others = true → isAtEnd expression others = false) :
    Inherits (inherited.head expression others)
      (if isAtEnd expression others then assoc else leftAssoc assoc)
      (toHead others reference) := by
  cases h with
  | outermost =>
    rw [show (if isAtEnd expression others then (⟨0, .neutral⟩ : Assoc)
      else leftAssoc ⟨0, .neutral⟩) = ⟨0, .neutral⟩ by split <;> rfl]
    exact .outermost
  | inside kept _ =>
    obtain ⟨cut, strength, direction⟩ := reference
    refine .of_eq ?_ ?_
    · unfold toHead
      cases direction <;> cases hasVisible others <;> rfl
    · cases hend : isAtEnd expression others with
      | false =>
        cases direction <;> cases kept <;> cases hasVisible others <;> rfl
      | true =>
        have hnone : hasVisible others = false := by
          cases hany : hasVisible others with
          | false => rfl
          | true => exact absurd (hvisible hany) (by simp [hend])
        rw [hnone]
        cases direction <;> cases kept <;> rfl

/-- In the rest of a list `run` takes off a direction to the left after a left
operand. -/
theorem Inherits.leftOperand {broken : Bool} (h : Inherits inherited assoc reference)
    (hleft : isLeftOperand broken expression = true) :
    Inherits (inherited.rest broken expression) (rightAssoc assoc)
      (toRest expression reference) := by
  cases h with
  | outermost => exact .outermost
  | inside kept _ =>
    obtain ⟨cut, strength, direction⟩ := reference
    refine .of_eq ?_ ?_
    · unfold toRest
      cases direction <;> cases (flatten expression).any isVisible <;> rfl
    · rw [hleft]
      cases direction <;> cases kept <;>
        cases (flatten expression).any isVisible <;> rfl

theorem Inherits.noOperand {broken : Bool} (h : Inherits inherited assoc reference)
    (hleft : isLeftOperand broken expression = false)
    (hvisible : (flatten expression).any isVisible = false) :
    Inherits (inherited.rest broken expression) assoc
      (toRest expression reference) := by
  cases h with
  | outermost => exact .outermost
  | inside kept _ =>
    obtain ⟨cut, strength, direction⟩ := reference
    refine .of_eq ?_ ?_
    · unfold toRest
      rw [hvisible]
      cases direction <;> rfl
    · rw [hleft, hvisible]
      cases direction <;> cases kept <;> rfl

theorem Inherits.guard (h : Inherits inherited assoc reference)
    (enclosed : Option GuardAssoc) (body : List Expression) :
    Inherits (inherited.head (.guard enclosed body) others)
      (guardAssoc others assoc) (toHead others reference) := by
  have hhead := h.head (.guard enclosed body) others
  cases others with
  | nil => exact hhead fun hvisible => nomatch hvisible
  | cons _ _ => exact hhead fun _ => rfl

theorem Inherits.lastSequence (h : Inherits inherited assoc reference)
    (body : List Expression) :
    Inherits (inherited.head (.sequence body) []) assoc (toHead [] reference) :=
  h.head (.sequence body) [] fun hvisible => nomatch hvisible

theorem Inherits.sequence (h : Inherits inherited assoc reference)
    (body : List Expression) {first : Expression} :
    Inherits (inherited.head (.sequence body) (first :: others))
      (sequenceAssoc (first :: others) assoc)
      (toHead (first :: others) reference) := by
  have hhead := h.head (.sequence body) (first :: others)
  match first, others with
  | .endOfIndent, [] => exact hhead fun hvisible => nomatch hvisible
  | .endOfIndent, _ :: _ => exact hhead fun _ => rfl
  | .term _ _, _ => exact hhead fun _ => rfl
  | .newline, _ => exact hhead fun _ => rfl
  | .guard _ _, _ => exact hhead fun _ => rfl
  | .indicator _ _, _ => exact hhead fun _ => rfl
  | .startOfIndent _, _ => exact hhead fun _ => rfl
  | .sequence _, _ => exact hhead fun _ => rfl

end Inherits

/-! ### Layouts with the right parentheses -/

/-- The condition tells whether the layout has the marks of the reference. -/
structure Judged (inherited : Inherited) (reference : GuardAssoc)
    (expressions : List Expression) (l : Layout) : Prop where
  breaks : ∀ more, (agrees inherited expressions (l.breaks ++ more)).2 = more
  marks : ∀ more, (agrees inherited expressions (l.breaks ++ more)).1 = true ↔
    l.marks = marksAll reference expressions
  length_eq : l.marks.length = (marksAll reference expressions).length

section Judged

variable {inherited : Inherited} {reference : GuardAssoc}
  {expression : Expression} {rest : List Expression} {l l' : Layout}

theorem Judged.nil : Judged inherited reference [] .empty :=
  ⟨fun _ => rfl, fun _ => ⟨fun _ => rfl, fun _ => rfl⟩, rfl⟩

/-- An expression and the rest of its list. -/
theorem Judged.append (hbreaks : ∀ more, (expression.agrees (inherited.head expression rest)
      (l.breaks ++ more)).2 = more)
    (hmarks : ∀ more, (expression.agrees (inherited.head expression rest)
        (l.breaks ++ more)).1 = true ↔
      l.marks = AssocResolver.marks (toHead rest reference) expression)
    (hlength : l.marks.length =
      (AssocResolver.marks (toHead rest reference) expression).length)
    (hrest : ∀ more, Judged
      (inherited.rest ((l.breaks ++ more).headD false) expression)
      (toRest expression reference) rest l') :
    Judged inherited reference (expression :: rest) (l ++ l') := by
  refine ⟨?_, ?_, ?_⟩
  · intro more
    rw [Layout.breaks_append, List.append_assoc, agrees]
    simp only [hbreaks]
    exact (hrest _).breaks more
  · intro more
    rw [Layout.breaks_append, List.append_assoc, agrees, marksAll]
    simp only [hbreaks, Bool.and_eq_true, hmarks, (hrest _).marks,
      Layout.marks_append]
    constructor
    · rintro ⟨hhead, htail⟩
      rw [hhead, htail]
    · intro happend
      exact List.append_inj happend hlength
  · rw [Layout.marks_append, List.length_append, marksAll, List.length_append,
      hlength, (hrest []).length_eq]

/-- An expression without indicators and guards. -/
theorem Judged.plain (pieces : List Piece)
    (hagrees : ∀ inherited breaks, expression.agrees inherited breaks = (true, breaks))
    (hmarks : ∀ assoc, AssocResolver.marks assoc expression = [])
    (hrest : ∀ broken, Judged (inherited.rest broken expression)
      (toRest expression reference) rest l) :
    Judged inherited reference (expression :: rest) (⟨[], [], pieces⟩ ++ l) := by
  refine .append ?_ ?_ ?_ fun more => hrest _
  · simp [hagrees]
  · simp [hagrees, hmarks]
  · simp [hmarks]

theorem Judged.indicator (broken : Bool) (pieces : List Piece) {space : Bool}
    {newline : Option Priority}
    (hrest : Judged (inherited.rest broken (.indicator space newline))
      (toRest (.indicator space newline) reference) rest l) :
    Judged inherited reference (.indicator space newline :: rest)
      (⟨[broken], [], pieces⟩ ++ l) :=
  .append (fun _ => rfl) (fun _ => ⟨fun _ => rfl, fun _ => rfl⟩) rfl
    fun _ => hrest

/-- A guard with an associativity, where `run` decides on the mark. -/
theorem Judged.marked (pieces : List Piece) {inner : GuardAssoc}
    {body : List Expression}
    (hinherits : Inherits (inherited.head (.guard (some inner) body) rest) assoc
      (toHead rest reference))
    (hbody : Judged (.inside inner.toAssoc true) inner body l)
    (hrest : ∀ broken, Judged (inherited.rest broken (.guard (some inner) body))
      (toRest (.guard (some inner) body) reference) rest l') :
    Judged inherited reference (.guard (some inner) body :: rest)
      (⟨l.breaks, (!isBare assoc inner) :: l.marks, pieces⟩ ++ l') := by
  have hagrees := agrees_iff hinherits inner
  have hreference : isBare (toHead rest reference).toAssoc inner =
      (inner.cut || (AssocResolver.weakThan (toHead rest reference) inner ||
        AssocResolver.equal (toHead rest reference) inner)) := by
    rw [weakThan_or_equal, isBare]
  refine .append ?_ ?_ ?_ fun more => hrest _
  · intro more
    rw [Expression.agrees]
    exact hbody.breaks more
  · intro more
    rw [Expression.agrees, AssocResolver.marks, ← hreference]
    simp only [Bool.and_eq_true, hagrees, hbody.marks, List.cons.injEq,
      Bool.not_inj_iff]
  · rw [AssocResolver.marks, List.length_cons, List.length_cons, hbody.length_eq]

end Judged

theorem Decided.judged {expressions : List Expression} {l : Layout}
    (h : Decided assoc expressions l) (hinherits : Inherits inherited assoc reference) :
    Judged inherited reference expressions l := by
  induction h generalizing inherited reference with
  | nil _ => exact .nil
  | term len text _ ih =>
    exact .plain _ (fun _ _ => rfl) (fun _ => rfl) fun _ =>
      ih (hinherits.leftOperand rfl)
  | newline _ ih =>
    exact .plain _ (fun _ _ => rfl) (fun _ => rfl) fun _ =>
      ih (hinherits.leftOperand rfl)
  | space newline _ ih =>
    have hleft : isLeftOperand false (.indicator true newline) = true := rfl
    exact (ih (hinherits.leftOperand hleft)).indicator false [.space]
  | nothing newline _ ih =>
    exact .indicator false [] (ih (hinherits.noOperand rfl rfl))
  | broken space priority _ ih =>
    have hleft : isLeftOperand true (.indicator space (some priority)) = true :=
      Bool.or_true space
    exact (ih (hinherits.leftOperand hleft)).indicator true [.newline]
  | startOfIndent n _ ih =>
    exact .plain [] (fun _ _ => rfl) (fun _ => rfl) fun _ =>
      ih (hinherits.noOperand rfl rfl)
  | endOfIndent _ ih =>
    exact .plain [] (fun _ _ => rfl) (fun _ => rfl) fun _ =>
      ih (hinherits.noOperand rfl rfl)
  | noSequence _ ih =>
    exact .plain [] (fun _ _ => rfl) (fun _ => rfl) fun _ =>
      ih (hinherits.noOperand rfl rfl)
  | @lastSequence _ first body l _ ih =>
    have hbody := ih (hinherits.lastSequence (first :: body))
    rw [← Layout.append_empty l]
    exact .append hbody.breaks hbody.marks hbody.length_eq fun _ => .nil
  | @sequence _ first first' body rest l l' _ _ ih ih' =>
    have hbody := ih (hinherits.sequence (first :: body))
    exact .append hbody.breaks hbody.marks hbody.length_eq fun _ =>
      ih' (hinherits.leftOperand rfl)
  | @guard _ body rest l l' _ _ ih ih' =>
    have hbody := ih (hinherits.guard none body)
    exact .append hbody.breaks hbody.marks hbody.length_eq fun _ =>
      ih' (hinherits.leftOperand rfl)
  | @bare inner _ body rest l l' hbare _ _ ih ih' =>
    have hmarked := Judged.marked l.pieces (hinherits.guard (some inner) body)
      (ih (.inside true inner)) fun _ => ih' (hinherits.leftOperand rfl)
    rw [hbare] at hmarked
    exact hmarked
  | @parens inner _ body rest l l' hbare _ _ ih ih' =>
    have hmarked := Judged.marked (.content "(" :: (l.pieces ++ [.content ")"]))
      (hinherits.guard (some inner) body) (ih (.inside true inner))
      fun _ => ih' (hinherits.leftOperand rfl)
    rw [hbare] at hmarked
    have hlayout : (⟨l.breaks, true :: l.marks,
          .content "(" :: (l.pieces ++ [.content ")"])⟩ : Layout) ++ l' =
        .ofMark true ++ (.ofPiece (.content "(") ++
          (l ++ (.ofPiece (.content ")") ++ l'))) := by
      ext <;> simp [Layout.ofMark, Layout.ofPiece]
    rw [← hlayout]
    exact hmarked

/-! ### The condition on one line -/

/-- The same position, where the second one has lost nothing that the first one
keeps. -/
inductive KeepsMore : Inherited → Inherited → Prop where
  | outermost : KeepsMore .outermost .outermost
  | inside (assoc : Assoc) {kept kept' : Bool} :
      (kept = true → kept' = true) → KeepsMore (.inside assoc kept) (.inside assoc kept')

theorem KeepsMore.head {inherited inherited' : Inherited}
    (h : KeepsMore inherited inherited') (expression : Expression)
    (rest : List Expression) :
    KeepsMore (inherited.head expression rest) (inherited'.head expression rest) := by
  cases h with
  | outermost => exact .outermost
  | inside assoc hkept =>
    refine .inside _ ?_
    intro hboth
    obtain ⟨hfirst, hsecond⟩ := Bool.and_eq_true_iff.mp hboth
    exact Bool.and_eq_true_iff.mpr ⟨hkept hfirst, hsecond⟩

/-- Without the line breaks there are fewer left operands. -/
theorem KeepsMore.rest {inherited inherited' : Inherited}
    (h : KeepsMore inherited inherited') (broken : Bool) (expression : Expression) :
    KeepsMore (inherited.rest broken expression)
      (inherited'.rest false expression) := by
  cases h with
  | outermost => exact .outermost
  | inside assoc hkept =>
    refine .inside _ ?_
    intro hboth
    obtain ⟨hfirst, hsecond⟩ := Bool.and_eq_true_iff.mp hboth
    refine Bool.and_eq_true_iff.mpr ⟨hkept hfirst, ?_⟩
    cases broken with
    | false => exact hsecond
    | true =>
      cases expression with
      | indicator space _ =>
        cases space with
        | true => exact hsecond
        | false => exact Bool.or_true _
      | sequence body => cases body <;> exact hsecond
      | _ => exact hsecond

theorem KeepsMore.agrees {inherited inherited' : Inherited}
    (h : KeepsMore inherited inherited') {inner : GuardAssoc}
    (hagrees : inherited.agrees inner = true) : inherited'.agrees inner = true := by
  cases h with
  | outermost => exact hagrees
  | inside assoc hkept =>
    simp only [Inherited.agrees, Bool.or_eq_true] at hagrees ⊢
    rcases hagrees with hcut | hkeep | hother
    · exact .inl hcut
    · exact .inr (.inl (hkept hkeep))
    · exact .inr (.inr hother)

mutual

theorem Expression.agrees_flat (expression : Expression)
    {inherited inherited' : Inherited} (h : KeepsMore inherited inherited')
    (breaks : List Bool) : ((expression.agrees inherited breaks).1 = true →
        (expression.agrees inherited' []).1 = true) ∧
      (expression.agrees inherited' []).2 = [] := by
  match expression with
  | .term _ _ => exact ⟨id, rfl⟩
  | .newline => exact ⟨id, rfl⟩
  | .indicator _ _ => exact ⟨id, rfl⟩
  | .startOfIndent _ => exact ⟨id, rfl⟩
  | .endOfIndent => exact ⟨id, rfl⟩
  | .sequence body => exact agrees_flat body h breaks
  | .guard none body => exact agrees_flat body h breaks
  | .guard (some inner) body =>
    have hinside : KeepsMore (.inside inner.toAssoc true)
        (.inside inner.toAssoc true) := .inside _ id
    have hbody := agrees_flat body hinside breaks
    refine ⟨?_, hbody.2⟩
    intro hagrees
    obtain ⟨hmark, hinside⟩ := Bool.and_eq_true_iff.mp hagrees
    exact Bool.and_eq_true_iff.mpr ⟨h.agrees hmark, hbody.1 hinside⟩

theorem agrees_flat (expressions : List Expression)
    {inherited inherited' : Inherited} (h : KeepsMore inherited inherited')
    (breaks : List Bool) : ((agrees inherited expressions breaks).1 = true →
        (agrees inherited' expressions []).1 = true) ∧
      (agrees inherited' expressions []).2 = [] := by
  match expressions with
  | [] => exact ⟨id, rfl⟩
  | expression :: rest =>
    have hhead := expression.agrees_flat (h.head expression rest) breaks
    have hrest := agrees_flat rest (h.rest (breaks.headD false) expression)
      (expression.agrees (inherited.head expression rest) breaks).2
    simp only [agrees, List.headD_nil, hhead.2]
    refine ⟨?_, hrest.2⟩
    intro hagrees
    obtain ⟨hfirst, hothers⟩ := Bool.and_eq_true_iff.mp hagrees
    exact Bool.and_eq_true_iff.mpr ⟨hhead.1 hfirst, hrest.1 hothers⟩

end

/-! ### The printed parentheses -/

/-- Whether the printed parentheses are those of the reference, where `breaks`
tells which indicators are line breaks. -/
def meetsReference (expressions : List Expression) (breaks : List Bool) : Bool :=
  (agrees .outermost expressions breaks).1

/-- If the parentheses are right with some indicators broken, they are right on
one line. -/
theorem meetsReference_flat {expressions : List Expression} {breaks : List Bool}
    (h : meetsReference expressions breaks = true) :
    meetsReference expressions [] = true :=
  (agrees_flat expressions .outermost breaks).1 h

theorem Decided.encloses_iff (parameter : ParameterRecord)
    {expressions : List Expression} {l : Layout}
    (h : Decided ⟨0, .neutral⟩ [.guard none expressions] l) :
    Encloses parameter [.guard none expressions] l.marks
        [resolve parameter (.guard none expressions)] ↔
      meetsReference expressions l.breaks = true := by
  have hmarks := (h.judged .outermost).marks []
  have hguard : (agrees .outermost [.guard none expressions] l.breaks).1 =
      (meetsReference expressions l.breaks && true) := rfl
  rw [List.append_nil, hguard, Bool.and_true, marksAll, AssocResolver.marks,
    marksAll, List.append_nil] at hmarks
  rw [AssocResolver.resolve_encloses, hmarks]
  exact Iff.rfl

/-- What is printed is a layout where the indicators and the parentheses are
decided on by `run`, and such a layout has the parentheses of the reference just
where the condition is met.  It has to be met on one line. -/
theorem format_parentheses (parameter : ParameterRecord) (outputFn : Bool)
    (width : Int) (expressions : List Expression) :
    (∃ l, Decided ⟨0, .neutral⟩ [.guard none expressions] l ∧
      Prints l.pieces (format outputFn width expressions).text) ∧
    ∀ l, Decided ⟨0, .neutral⟩ [.guard none expressions] l →
      (Encloses parameter [.guard none expressions] l.marks
          [resolve parameter (.guard none expressions)] ↔
        meetsReference expressions l.breaks = true) ∧
      (meetsReference expressions l.breaks = true →
        meetsReference expressions [] = true) := by
  rw [format_text]
  refine ⟨format_decided width expressions, ?_⟩
  intro l hdecided
  exact ⟨hdecided.encloses_iff parameter, meetsReference_flat⟩

def leftAssociative : List Expression :=
  [.guard (some ⟨false, 5, .left⟩)
    [.guard (some ⟨false, 5, .left⟩) [.term 1 "x"], .indicator true none,
      .term 1 "y"]]

/-- The left operand of a left associative guard: the condition is met. -/
theorem format_parentheses_leftAssociative :
    ∃ l, Decided ⟨0, .neutral⟩ [.guard none leftAssociative] l ∧
      Prints l.pieces (format true 10 leftAssociative).text ∧
      Encloses ⟨"(", ")"⟩ [.guard none leftAssociative] l.marks
        [resolve ⟨"(", ")"⟩ (.guard none leftAssociative)] := by
  obtain ⟨⟨l, hdecided, hprints⟩, hmeets⟩ :=
    format_parentheses ⟨"(", ")"⟩ true 10 leftAssociative
  exact ⟨l, hdecided, hprints, (hmeets l hdecided).1.mpr rfl⟩

/-- The right operand is not the last in its list. -/
def rightOperand : List Expression :=
  [.guard (some ⟨false, 5, .right⟩)
    [.indicator false (some .deferred),
      .guard (some ⟨false, 5, .left⟩) [.term 1 "L"],
      .guard (some ⟨false, 5, .right⟩) [.term 1 "R"],
      .indicator false (some .deferred)]]

/-- A break stands behind the right operand, which is printed with parentheses
that the reference does not have. -/
theorem rightOperand_enclosed :
    ¬ ∀ (parameter : ParameterRecord) (outputFn : Bool) (width : Int)
      (expressions : List Expression),
      ∃ l, Decided ⟨0, .neutral⟩ [.guard none expressions] l ∧
        Prints l.pieces (format outputFn width expressions).text ∧
        Encloses parameter [.guard none expressions] l.marks
          [resolve parameter (.guard none expressions)] := by
  intro h
  obtain ⟨l, hdecided, -, hencloses⟩ := h ⟨"(", ")"⟩ false 10 rightOperand
  have hmeets := (hdecided.encloses_iff ⟨"(", ")"⟩).mp hencloses
  exact Bool.false_ne_true hmeets

end PrettyPrinter2

end SmlSharp
