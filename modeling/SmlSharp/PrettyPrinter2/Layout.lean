/-
The layouts of a list of format expressions, and the layout that is printed.
-/
import SmlSharp.PrettyPrinter2.Streaming

namespace SmlSharp

namespace PrettyPrinter2

/-! ### Pieces of text -/

inductive Piece where
  /-- The text of a term, or a parenthesis. -/
  | content (text : String)
  /-- The space of an indicator. -/
  | space
  /-- A line break and the indentation after it. -/
  | newline

/-- A text is the pieces one after the other. -/
inductive Prints : List Piece → String → Prop where
  | nil : Prints [] ""
  | content (text : String) {pieces : List Piece} {rest : String} :
      Prints pieces rest → Prints (.content text :: pieces) (text ++ rest)
  | space {pieces : List Piece} {rest : String} :
      Prints pieces rest → Prints (.space :: pieces) (" " ++ rest)
  | newline (indent : Int) {pieces : List Piece} {rest : String} :
      Prints pieces rest →
        Prints (.newline :: pieces) ("\n" ++ whiteSpaces indent ++ rest)

theorem Prints.append {pieces pieces' : List Piece} {text text' : String}
    (h : Prints pieces text) (h' : Prints pieces' text') :
    Prints (pieces ++ pieces') (text ++ text') := by
  induction h with
  | nil => simpa using h'
  | content text _ ih => simpa [String.append_assoc] using Prints.content text ih
  | space _ ih => simpa [String.append_assoc] using Prints.space ih
  | newline indent _ ih =>
    simpa [String.append_assoc] using Prints.newline indent ih

/-- A buffer that holds the pieces written so far. -/
inductive Written : List Text → List Piece → Prop where
  | nil : Written [] []
  | content (text : String) {buffer : List Text} {pieces : List Piece} :
      Written buffer pieces →
        Written (if text = "" then buffer else .string text :: buffer)
          (pieces ++ [.content text])
  | space {buffer : List Text} {pieces : List Piece} :
      Written buffer pieces → Written (.string " " :: buffer) (pieces ++ [.space])
  | newline {buffer : List Text} {pieces : List Piece} :
      Written buffer pieces → Written (.newline :: buffer) (pieces ++ [.newline])
  | indented (count : Int) {buffer : List Text} {pieces : List Piece} :
      Written buffer pieces →
        Written (.space count :: .newline :: buffer) (pieces ++ [.newline])

theorem Written.prints {buffer : List Text} {pieces : List Piece}
    (h : Written buffer pieces) (atEnd : Bool) :
    Prints pieces (bufferText atEnd buffer) := by
  induction h generalizing atEnd with
  | nil => exact .nil
  | content text _ ih =>
    by_cases hempty : text = ""
    · subst hempty
      simpa using (ih atEnd).append (.content "" .nil)
    · simpa [hempty, bufferText] using (ih false).append (.content text .nil)
  | space _ ih => simpa [bufferText] using (ih false).append (.space .nil)
  | newline _ ih =>
    simpa [bufferText, whiteSpaces] using (ih true).append (.newline 0 .nil)
  | indented count _ ih =>
    cases atEnd with
    | true =>
      simpa [bufferText, whiteSpaces] using (ih true).append (.newline 0 .nil)
    | false =>
      simpa [bufferText, String.append_assoc] using
        (ih true).append (.newline count .nil)

/-! ### Layouts -/

/-- A layout of format expressions: the texts of the terms in their order,
where each indicator is flat or, if it may be one, a line break, and some
guards with an associativity are enclosed in parentheses. -/
inductive Laid : List Expression → List Piece → Prop where
  | nil : Laid [] []
  | term (len : Int) (text : String) {rest : List Expression}
      {pieces : List Piece} :
      Laid rest pieces → Laid (.term len text :: rest) (.content text :: pieces)
  | newline {rest : List Expression} {pieces : List Piece} :
      Laid rest pieces → Laid (.newline :: rest) (.newline :: pieces)
  | space (newline : Option Priority) {rest : List Expression}
      {pieces : List Piece} :
      Laid rest pieces → Laid (.indicator true newline :: rest) (.space :: pieces)
  | nothing (newline : Option Priority) {rest : List Expression}
      {pieces : List Piece} :
      Laid rest pieces → Laid (.indicator false newline :: rest) pieces
  | broken (space : Bool) (priority : Priority) {rest : List Expression}
      {pieces : List Piece} :
      Laid rest pieces →
        Laid (.indicator space (some priority) :: rest) (.newline :: pieces)
  | startOfIndent (n : Int) {rest : List Expression} {pieces : List Piece} :
      Laid rest pieces → Laid (.startOfIndent n :: rest) pieces
  | endOfIndent {rest : List Expression} {pieces : List Piece} :
      Laid rest pieces → Laid (.endOfIndent :: rest) pieces
  | sequence {body rest : List Expression} {inner pieces : List Piece} :
      Laid body inner → Laid rest pieces →
        Laid (.sequence body :: rest) (inner ++ pieces)
  | guard (assoc : Option GuardAssoc) {body rest : List Expression}
      {inner pieces : List Piece} :
      Laid body inner → Laid rest pieces →
        Laid (.guard assoc body :: rest) (inner ++ pieces)
  | parens (assoc : GuardAssoc) {body rest : List Expression}
      {inner pieces : List Piece} :
      Laid body inner → Laid rest pieces →
        Laid (.guard (some assoc) body :: rest)
          (.content "(" :: inner ++ .content ")" :: pieces)

def GuardAssoc.toAssoc (assoc : GuardAssoc) : Assoc :=
  ⟨assoc.strength, assoc.direction⟩

/-- Whether `run` leaves the guard without parentheses. -/
def isBare (outer : Assoc) (inner : GuardAssoc) : Bool :=
  inner.cut || isWeakerThanOrEqualTo outer inner.toAssoc

/-- What is decided for each indicator (is it broken?) and for each guard with
an associativity (is it enclosed?), from left to right and from the outside in,
with the pieces that result. -/
@[ext] structure Layout where
  breaks : List Bool
  marks : List Bool
  pieces : List Piece

namespace Layout

def empty : Layout := ⟨[], [], []⟩

def ofBreak (broken : Bool) : Layout := ⟨[broken], [], []⟩

def ofMark (enclosed : Bool) : Layout := ⟨[], [enclosed], []⟩

def ofPiece (piece : Piece) : Layout := ⟨[], [], [piece]⟩

instance : Append Layout where
  append l l' :=
    ⟨l.breaks ++ l'.breaks, l.marks ++ l'.marks, l.pieces ++ l'.pieces⟩

@[simp] theorem breaks_append (l l' : Layout) :
    (l ++ l').breaks = l.breaks ++ l'.breaks := rfl

@[simp] theorem marks_append (l l' : Layout) :
    (l ++ l').marks = l.marks ++ l'.marks := rfl

@[simp] theorem pieces_append (l l' : Layout) :
    (l ++ l').pieces = l.pieces ++ l'.pieces := rfl

@[simp] theorem empty_append (l : Layout) : empty ++ l = l := rfl

@[simp] theorem append_empty (l : Layout) : l ++ empty = l := by
  exact Layout.ext (List.append_nil _) (List.append_nil _) (List.append_nil _)

theorem append_assoc (l l' l'' : Layout) : l ++ l' ++ l'' = l ++ (l' ++ l'') :=
  Layout.ext (List.append_assoc _ _ _) (List.append_assoc _ _ _)
    (List.append_assoc _ _ _)

end Layout

/-- The layouts with the parentheses that `run` decides on. -/
inductive Decided : Assoc → List Expression → Layout → Prop where
  | nil (assoc : Assoc) : Decided assoc [] .empty
  | term (len : Int) (text : String) {assoc : Assoc} {rest : List Expression}
      {l : Layout} :
      Decided (rightAssoc assoc) rest l →
        Decided assoc (.term len text :: rest) (.ofPiece (.content text) ++ l)
  | newline {assoc : Assoc} {rest : List Expression} {l : Layout} :
      Decided (rightAssoc assoc) rest l →
        Decided assoc (.newline :: rest) (.ofPiece .newline ++ l)
  | space (newline : Option Priority) {assoc : Assoc} {rest : List Expression}
      {l : Layout} :
      Decided (rightAssoc assoc) rest l →
        Decided assoc (.indicator true newline :: rest)
          (.ofBreak false ++ (.ofPiece .space ++ l))
  | nothing (newline : Option Priority) {assoc : Assoc} {rest : List Expression}
      {l : Layout} :
      Decided assoc rest l →
        Decided assoc (.indicator false newline :: rest) (.ofBreak false ++ l)
  | broken (space : Bool) (priority : Priority) {assoc : Assoc}
      {rest : List Expression} {l : Layout} :
      Decided (rightAssoc assoc) rest l →
        Decided assoc (.indicator space (some priority) :: rest)
          (.ofBreak true ++ (.ofPiece .newline ++ l))
  | startOfIndent (n : Int) {assoc : Assoc} {rest : List Expression} {l : Layout} :
      Decided assoc rest l → Decided assoc (.startOfIndent n :: rest) l
  | endOfIndent {assoc : Assoc} {rest : List Expression} {l : Layout} :
      Decided assoc rest l → Decided assoc (.endOfIndent :: rest) l
  | noSequence {assoc : Assoc} {rest : List Expression} {l : Layout} :
      Decided assoc rest l → Decided assoc (.sequence [] :: rest) l
  | lastSequence {assoc : Assoc} {first : Expression} {body : List Expression}
      {l : Layout} :
      Decided assoc (first :: body) l →
        Decided assoc [.sequence (first :: body)] l
  | sequence {assoc : Assoc} {first first' : Expression}
      {body rest : List Expression} {l l' : Layout} :
      Decided (sequenceAssoc (first' :: rest) assoc) (first :: body) l →
      Decided (rightAssoc assoc) (first' :: rest) l' →
        Decided assoc (.sequence (first :: body) :: first' :: rest) (l ++ l')
  | guard {assoc : Assoc} {body rest : List Expression} {l l' : Layout} :
      Decided (guardAssoc rest assoc) body l →
      Decided (rightAssoc assoc) rest l' →
        Decided assoc (.guard none body :: rest) (l ++ l')
  | bare (inner : GuardAssoc) {assoc : Assoc} {body rest : List Expression}
      {l l' : Layout} :
      isBare (guardAssoc rest assoc) inner = true →
      Decided inner.toAssoc body l →
      Decided (rightAssoc assoc) rest l' →
        Decided assoc (.guard (some inner) body :: rest)
          (.ofMark false ++ (l ++ l'))
  | parens (inner : GuardAssoc) {assoc : Assoc} {body rest : List Expression}
      {l l' : Layout} :
      isBare (guardAssoc rest assoc) inner = false →
      Decided inner.toAssoc body l →
      Decided (rightAssoc assoc) rest l' →
        Decided assoc (.guard (some inner) body :: rest)
          (.ofMark true ++ (.ofPiece (.content "(") ++
            (l ++ (.ofPiece (.content ")") ++ l'))))

theorem Decided.laid {assoc : Assoc} {expressions : List Expression} {l : Layout}
    (h : Decided assoc expressions l) : Laid expressions l.pieces := by
  induction h with
  | nil _ => exact .nil
  | term len text _ ih => exact .term len text ih
  | newline _ ih => exact .newline ih
  | space newline _ ih => exact .space newline ih
  | nothing newline _ ih => exact .nothing newline ih
  | broken space priority _ ih => exact .broken space priority ih
  | startOfIndent n _ ih => exact .startOfIndent n ih
  | endOfIndent _ ih => exact .endOfIndent ih
  | noSequence _ ih => exact .sequence .nil ih
  | lastSequence _ ih => simpa using Laid.sequence ih .nil
  | sequence _ _ ih ih' => exact .sequence ih ih'
  | guard _ _ ih ih' => exact .guard none ih ih'
  | bare inner _ _ _ ih ih' =>
    simpa [Layout.ofMark] using Laid.guard (some inner) ih ih'
  | parens inner _ _ _ ih ih' =>
    simpa [Layout.ofMark, Layout.ofPiece] using Laid.parens inner ih ih'

theorem rightAssoc_rightAssoc (assoc : Assoc) :
    rightAssoc (rightAssoc assoc) = rightAssoc assoc := by
  obtain ⟨strength, direction⟩ := assoc
  cases direction <;> rfl

/-! ### What remains to be printed -/

/-- The layouts of pending inputs. -/
inductive NextDecided : List Next → Layout → Prop where
  | nil : NextDecided [] .empty
  | next {input : List Expression} {assoc : Assoc} {rest : List Next}
      {l l' : Layout} :
      Decided assoc input l → NextDecided rest l' →
        NextDecided (.next input assoc :: rest) (l ++ l')
  | delim (indent : Indent) {rest : List Next} {l : Layout} :
      NextDecided rest l → NextDecided (.delim indent :: rest) l

/-- The layouts of everything that a state has still to print. -/
inductive Remains (input : List Expression) (assoc : Assoc) (next : List Next) :
    Layout → Prop where
  | mk {l l' : Layout} :
      Decided assoc input l → NextDecided next l' →
        Remains input assoc next (l ++ l')

/-- What has been printed is the beginning of a layout that the state
completes.  The space of an indicator is put into the input as a term. -/
inductive Pending (goal : Layout → Prop) (buffer : List Text) :
    List Expression → Assoc → List Next → Prop where
  | input {input : List Expression} {assoc : Assoc} {next : List Next}
      (before : Layout) :
      Written buffer before.pieces →
      (∀ l, Remains input assoc next l → goal (before ++ l)) →
        Pending goal buffer input assoc next
  | space {input : List Expression} {assoc : Assoc} {next : List Next}
      (before : Layout) :
      Written buffer before.pieces →
      (∀ l, Remains input (rightAssoc assoc) next l →
        goal (before ++ (.ofPiece .space ++ l))) →
        Pending goal buffer (.term 1 " " :: input) assoc next

section Pending

variable {goal : Layout → Prop} {buffer : List Text} {assoc : Assoc}
  {next : List Next} {input : List Expression}

/-- A step that writes nothing. -/
theorem Pending.quiet {input' : List Expression} {assoc' : Assoc}
    {next' : List Next} (hnospace : ∀ rest, input ≠ .term 1 " " :: rest)
    (hremains : ∀ l, Remains input' assoc' next' l → Remains input assoc next l)
    (h : Pending goal buffer input assoc next) :
    Pending goal buffer input' assoc' next' := by
  cases h with
  | input before hwritten hgoal =>
    exact .input before hwritten fun l hl => hgoal l (hremains l hl)
  | space _ _ _ => exact absurd rfl (hnospace _)

/-- A step that writes nothing but settles the decisions `made`. -/
theorem Pending.decide {input' : List Expression} {assoc' : Assoc}
    {next' : List Next} (made : Layout) (hmade : made.pieces = [])
    (hnospace : ∀ rest, input ≠ .term 1 " " :: rest)
    (hremains : ∀ l, Remains input' assoc' next' l →
      Remains input assoc next (made ++ l))
    (h : Pending goal buffer input assoc next) :
    Pending goal buffer input' assoc' next' := by
  cases h with
  | input before hwritten hgoal =>
    refine .input (before ++ made) ?_ ?_
    · simpa [hmade] using hwritten
    · intro l hl
      rw [Layout.append_assoc]
      exact hgoal _ (hremains l hl)
  | space _ _ _ => exact absurd rfl (hnospace _)

theorem Pending.term {len : Int} {text : String} {output : Output}
    (h : Pending goal output.buffer (.term len text :: input) assoc next) :
    Pending goal (putString output len text).buffer input (rightAssoc assoc)
      next := by
  generalize hhead : Expression.term len text :: input = whole at h
  cases h with
  | input before hwritten hgoal =>
    subst hhead
    have hwritten' : Written (putString output len text).buffer
        (before ++ .ofPiece (.content text)).pieces := .content text hwritten
    refine .input (before ++ .ofPiece (.content text)) hwritten' ?_
    rintro _ ⟨hinput, hnext⟩
    rw [Layout.append_assoc, ← Layout.append_assoc (.ofPiece (.content text))]
    exact hgoal _ (.mk (.term len text hinput) hnext)
  | space before hwritten hgoal =>
    cases hhead
    have hwritten' : Written (putString output 1 " ").buffer
        (before ++ .ofPiece .space).pieces := .space hwritten
    refine .input (before ++ .ofPiece .space) hwritten' ?_
    intro l hl
    rw [Layout.append_assoc]
    exact hgoal l hl

theorem Pending.newline {output : Output} {level : Int}
    (h : Pending goal output.buffer (.newline :: input) assoc next) :
    Pending goal (putSpace (putNewline output) level).buffer input
      (rightAssoc assoc) next := by
  cases h with
  | input before hwritten hgoal =>
    refine .input (before ++ .ofPiece .newline) ?_ ?_
    · unfold putSpace
      split
      · exact .indented level hwritten
      · exact .newline hwritten
    · rintro _ ⟨hinput, hnext⟩
      rw [Layout.append_assoc, ← Layout.append_assoc (.ofPiece .newline)]
      exact hgoal _ (.mk (.newline hinput) hnext)

theorem Pending.flat {space : Bool} {newline : Option Priority}
    (h : Pending goal buffer (.indicator space newline :: input) assoc next) :
    Pending goal buffer (spaceBefore space input) assoc next := by
  cases h with
  | input before hwritten hgoal =>
    have hwritten' : Written buffer (before ++ .ofBreak false).pieces := by
      simpa [Layout.ofBreak] using hwritten
    cases space with
    | false =>
      refine .input (before ++ .ofBreak false) hwritten' ?_
      rintro _ ⟨hinput, hnext⟩
      rw [Layout.append_assoc, ← Layout.append_assoc (.ofBreak false)]
      exact hgoal _ (.mk (.nothing newline hinput) hnext)
    | true =>
      refine .space (before ++ .ofBreak false) hwritten' ?_
      rintro _ ⟨hinput, hnext⟩
      have hremains := Remains.mk (.space newline hinput) hnext
      rw [Layout.append_assoc, Layout.append_assoc] at hremains
      rw [Layout.append_assoc]
      exact hgoal _ hremains

theorem Pending.broken {space : Bool} {priority : Priority}
    (h : Pending goal buffer (.indicator space (some priority) :: input) assoc
      next) : Pending goal buffer (.newline :: input) assoc next := by
  refine h.decide (.ofBreak true) rfl (by simp) ?_
  rintro _ ⟨hinput, hnext⟩
  cases hinput with
  | newline hinput =>
    rw [← Layout.append_assoc (.ofBreak true)]
    exact .mk (.broken space priority hinput) hnext

theorem Pending.delim {indent : Indent}
    (h : Pending goal buffer [] assoc (.delim indent :: next)) :
    Pending goal buffer [] assoc next := by
  refine h.quiet (by simp) ?_
  rintro _ ⟨hinput, hnext⟩
  exact .mk hinput (.delim indent hnext)

theorem Pending.nextInput {assoc' : Assoc}
    (h : Pending goal buffer [] assoc' (.next input assoc :: next)) :
    Pending goal buffer input assoc next := by
  refine h.quiet (by simp) ?_
  rintro l ⟨hinput, hnext⟩
  rw [← Layout.empty_append (_ ++ _)]
  exact .mk (.nil assoc') (.next hinput hnext)

theorem Pending.startOfIndent {n : Int}
    (h : Pending goal buffer (.startOfIndent n :: input) assoc next) :
    Pending goal buffer input assoc next := by
  refine h.quiet (by simp) ?_
  rintro _ ⟨hinput, hnext⟩
  exact .mk (.startOfIndent n hinput) hnext

theorem Pending.endOfIndent
    (h : Pending goal buffer (.endOfIndent :: input) assoc next) :
    Pending goal buffer input assoc next := by
  refine h.quiet (by simp) ?_
  rintro _ ⟨hinput, hnext⟩
  exact .mk (.endOfIndent hinput) hnext

theorem Pending.noSequence
    (h : Pending goal buffer (.sequence [] :: input) assoc next) :
    Pending goal buffer input assoc next := by
  refine h.quiet (by simp) ?_
  rintro _ ⟨hinput, hnext⟩
  exact .mk (.noSequence hinput) hnext

theorem Pending.lastSequence {first : Expression} {body : List Expression}
    (h : Pending goal buffer [.sequence (first :: body)] assoc next) :
    Pending goal buffer (first :: body) assoc next := by
  refine h.quiet (by simp) ?_
  rintro _ ⟨hbody, hnext⟩
  exact .mk (.lastSequence hbody) hnext

theorem Pending.sequence {first first' : Expression} {body : List Expression}
    (h : Pending goal buffer (.sequence (first :: body) :: first' :: input) assoc
      next) :
    Pending goal buffer (first :: body) (sequenceAssoc (first' :: input) assoc)
      (.next (first' :: input) (rightAssoc assoc) :: next) := by
  refine h.quiet (by simp) ?_
  rintro _ ⟨hbody, hnext⟩
  cases hnext with
  | next hinput hnext =>
    rw [← Layout.append_assoc]
    exact .mk (.sequence hbody hinput) hnext

theorem Pending.guard {body : List Expression} {indent : Indent}
    (h : Pending goal buffer (.guard none body :: input) assoc next) :
    Pending goal buffer body (guardAssoc input assoc)
      (.delim indent :: .next input (rightAssoc assoc) :: next) := by
  refine h.quiet (by simp) ?_
  rintro _ ⟨hbody, hnext⟩
  cases hnext with
  | delim _ hnext =>
    cases hnext with
    | next hinput hnext =>
      rw [← Layout.append_assoc]
      exact .mk (.guard hbody hinput) hnext

theorem Pending.bare {inner : GuardAssoc} {body : List Expression}
    (hbare : isBare (guardAssoc input assoc) inner = true)
    (h : Pending goal buffer (.guard (some inner) body :: input) assoc next) :
    Pending goal buffer [.guard none body] inner.toAssoc
      (.next input (rightAssoc assoc) :: next) := by
  refine h.decide (.ofMark false) rfl (by simp) ?_
  rintro _ ⟨hguard, hnext⟩
  cases hguard with
  | guard hbody hnothing =>
    cases hnothing
    cases hnext with
    | next hinput hnext =>
      rw [Layout.append_empty, ← Layout.append_assoc, ← Layout.append_assoc,
        Layout.append_assoc (.ofMark false)]
      exact .mk (.bare inner hbare hbody hinput) hnext

theorem Pending.parens {inner : GuardAssoc} {body : List Expression}
    (hbare : isBare (guardAssoc input assoc) inner = false)
    (h : Pending goal buffer (.guard (some inner) body :: input) assoc next) :
    Pending goal buffer [.term 1 "("] (guardAssoc input assoc)
      (.next [.guard none body] inner.toAssoc
        :: .next (.term 1 ")" :: input) (rightAssoc assoc) :: next) := by
  refine h.decide (.ofMark true) rfl (by simp) ?_
  rintro _ ⟨hopen, hnext⟩
  cases hopen with
  | term _ _ hnothing =>
    cases hnothing
    cases hnext with
    | next hguard hnext =>
      cases hguard with
      | guard hbody hnothing =>
        cases hnothing
        cases hnext with
        | next hclose hnext =>
          cases hclose with
          | term _ _ hinput =>
            rw [rightAssoc_rightAssoc] at hinput
            have hremains :=
              Remains.mk (.parens inner hbare hbody hinput) hnext
            simpa only [Layout.append_empty, Layout.append_assoc]
              using hremains

end Pending

/-- An output and a frame that complete it to a layout with `goal`. -/
structure Continues (goal : Layout → Prop) (output : Output) (frame : Frame) :
    Prop where
  outputFn : output.outputFn = false
  pending : Pending goal output.buffer frame.input frame.assoc frame.next

/-- The machine completes its output to a layout with `goal`, and so does it
after each restart. -/
structure OnCourse (goal : Layout → Prop) (config : Config) : Prop where
  current : Continues goal config.output config.state.frame
  saved : ∀ saved ∈ config.state.restart, Continues goal saved.output saved.frame

section OnCourse

variable {goal : Layout → Prop}

theorem saved_save {restart : List Saved} {output : Output}
    (h : ∀ saved ∈ restart, Continues goal saved.output saved.frame)
    {frame : Frame} (hsaved : Continues goal output frame)
    (priority : RestartPriority) :
    ∀ saved ∈ (if precedesToRestart priority restart then
        ⟨priority, output, frame⟩ :: restart else restart),
      Continues goal saved.output saved.frame := by
  intro saved hmem
  split at hmem
  · rcases List.mem_cons.mp hmem with rfl | hmem
    · exact hsaved
    · exact h saved hmem
  · exact h saved hmem

theorem saved_newline {restart : List Saved}
    (h : ∀ saved ∈ restart, Continues goal saved.output saved.frame)
    (context : Context) : ∀ saved ∈ newlineRestart context restart,
      Continues goal saved.output saved.frame := by
  rcases newlineRestart_eq context restart with hnone | hsame
  · rw [hnone]
    intro saved hmem
    cases hmem
  · rw [hsame]
    exact h

theorem putSpace_outputFn (output : Output) (count : Int) :
    (putSpace output count).outputFn = output.outputFn := by
  unfold putSpace
  split <;> rfl

theorem dump_batch {output : Output} (houtput : output.outputFn = false) :
    dump output = ([], output) := by
  simp [dump, houtput]

theorem step_onCourse {config config' : Config} (h : OnCourse goal config)
    (hstep : step config = .inl config') : OnCourse goal config' := by
  obtain ⟨emitted, output, ⟨⟨input, indent, assoc, next, context⟩, restart⟩⟩ := config
  obtain ⟨⟨houtput, hpending⟩, hsaved⟩ := h
  dsimp only at houtput hpending hsaved
  match input, hstep with
  | [], hstep =>
    match next, hstep with
    | .delim _ :: _, hstep =>
      cases hstep
      exact ⟨⟨houtput, hpending.delim⟩, hsaved⟩
    | .next _ _ :: _, hstep =>
      cases hstep
      exact ⟨⟨houtput, hpending.nextInput⟩, hsaved⟩
  | .sequence [] :: _, hstep =>
    cases hstep
    exact ⟨⟨houtput, hpending.noSequence⟩, hsaved⟩
  | [.sequence (_ :: _)], hstep =>
    cases hstep
    exact ⟨⟨houtput, hpending.lastSequence⟩, hsaved⟩
  | .sequence (_ :: _) :: _ :: _, hstep =>
    cases hstep
    exact ⟨⟨houtput, hpending.sequence⟩, hsaved⟩
  | .startOfIndent _ :: _, hstep =>
    cases hstep
    exact ⟨⟨houtput, hpending.startOfIndent⟩, hsaved⟩
  | .endOfIndent :: _, hstep =>
    cases hstep
    exact ⟨⟨houtput, hpending.endOfIndent⟩, hsaved⟩
  | .guard (some ⟨cut, strength, direction⟩) body :: input, hstep =>
    cases hbare : isBare (guardAssoc input assoc) ⟨cut, strength, direction⟩ with
    | true =>
      have hcond : (cut || isWeakerThanOrEqualTo (guardAssoc input assoc)
        ⟨strength, direction⟩) = true := hbare
      simp only [step, hcond, if_true] at hstep
      cases hstep
      exact ⟨⟨houtput, hpending.bare hbare⟩, hsaved⟩
    | false =>
      have hcond : (cut || isWeakerThanOrEqualTo (guardAssoc input assoc)
        ⟨strength, direction⟩) = false := hbare
      simp only [step, hcond, Bool.false_eq_true, if_false] at hstep
      cases hstep
      exact ⟨⟨houtput, hpending.parens hbare⟩, hsaved⟩
  | .guard none _ :: _, hstep =>
    cases hstep
    exact ⟨⟨houtput, hpending.guard⟩, hsaved⟩
  | .indicator space (some (.preferred n)) :: input, hstep =>
    cases context with
    | top nest =>
      cases hstep
      exact ⟨⟨houtput, hpending.broken⟩, hsaved⟩
    | guard base nest priority =>
      simp only [step] at hstep
      split at hstep
      · cases hstep
        exact ⟨⟨houtput, hpending.broken⟩, hsaved⟩
      · cases hstep
        exact ⟨⟨houtput, hpending.flat⟩,
          saved_save hsaved ⟨houtput, hpending.broken⟩ _⟩
  | .indicator _ (some .deferred) :: _, hstep =>
    cases hstep
    exact ⟨⟨houtput, hpending.flat⟩,
      saved_save hsaved ⟨houtput, hpending.broken⟩ _⟩
  | .indicator _ none :: _, hstep =>
    cases hstep
    exact ⟨⟨houtput, hpending.flat⟩, hsaved⟩
  | .newline :: input, hstep =>
    have hremains := saved_newline hsaved context
    have houtput' : (putSpace (putNewline output) indent.level).outputFn = false :=
      (putSpace_outputFn _ _).trans houtput
    simp only [step] at hstep
    split at hstep
    · have hdump : dump (putNewline output) = ([], putNewline output) :=
        dump_batch houtput
      cases hstep
      rw [hdump]
      exact ⟨⟨houtput', hpending.newline⟩, hremains⟩
    · cases hstep
      exact ⟨⟨houtput', hpending.newline⟩, hremains⟩
  | .term len text :: input, hstep =>
    simp only [step] at hstep
    split at hstep
    · cases hstep
      exact ⟨⟨houtput, hpending.term⟩, hsaved⟩
    · cases restart with
      | cons saved restart =>
        cases hstep
        exact ⟨hsaved saved List.mem_cons_self,
          fun saved' hmem => hsaved saved' (List.mem_cons_of_mem _ hmem)⟩
      | nil =>
        cases hstep
        exact ⟨⟨houtput, hpending.term⟩, hsaved⟩

theorem step_onCourse_done {config : Config} {printed : Printed}
    (h : OnCourse goal config) (hstep : step config = .inr printed) :
    ∃ l, goal l ∧ Prints l.pieces printed.returned := by
  obtain ⟨hinput, hnext, rfl⟩ := step_done hstep
  obtain ⟨houtput, hpending⟩ := h.current
  rw [hinput, hnext] at hpending
  rw [dump_batch houtput, getLines_text]
  cases hpending with
  | input before hwritten hgoal =>
    refine ⟨before, ?_, ?_⟩
    · simpa using hgoal _ (.mk (.nil _) .nil)
    · simpa using hwritten.prints true

end OnCourse

/-- What is printed is a layout of the expressions, with the parentheses that
`run` decides on. -/
theorem format_decided (width : Int) (expressions : List Expression) :
    ∃ l, Decided ⟨0, .neutral⟩ [.guard none expressions] l ∧
      Prints l.pieces (format false width expressions).returned := by
  have hstart : OnCourse
      (fun l => Decided ⟨0, .neutral⟩ [.guard none expressions] l)
      (start false width expressions) := by
    refine ⟨⟨rfl, .input .empty .nil ?_⟩, by simp [start]⟩
    rintro _ ⟨hinput, hnext⟩
    cases hnext
    rw [Layout.append_empty]
    exact hinput
  have hprinted := Machine.run_invariant terminating
    (fun _ _ hinv hstep => step_onCourse hinv hstep)
    (fun _ _ hinv hstep => step_onCourse_done hinv hstep) _ hstart
  exact hprinted

end PrettyPrinter2

end SmlSharp
