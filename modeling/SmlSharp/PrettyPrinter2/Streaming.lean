/-
The strings given to the output function are the string that is returned
without one.
-/
import SmlSharp.PrettyPrinter2.Machine
import Mathlib.Data.List.Forall2

namespace SmlSharp

namespace PrettyPrinter2

/-! ### The text of a buffer -/

/-- The text of a buffer.  Spaces at the end of a line are left out, and
`atEnd` tells that the buffer is followed by the end of a line. -/
def bufferText (atEnd : Bool) : List Text → String
  | [] => ""
  | .newline :: texts => bufferText true texts ++ "\n"
  | .space n :: texts =>
    bufferText atEnd texts ++ (if atEnd then "" else whiteSpaces n)
  | .string text :: texts => bufferText false texts ++ text

attribute [local simp] bufferText

theorem getLineBody_text (z : List String) (texts : List Text) :
    bufferText true (getLineBody z texts).2 ++ String.join (getLineBody z texts).1 =
      bufferText false texts ++ String.join z := by
  fun_induction getLineBody z texts with
  | case1 z text texts ih => simp [ih, String.append_assoc]
  | case2 z n texts ih => simp [ih, String.append_assoc]
  | case3 z texts hstring hspace =>
    cases texts with
    | nil => rfl
    | cons head texts =>
      cases head with
      | newline => rfl
      | string text => exact absurd rfl (hstring text texts)
      | space n => exact absurd rfl (hspace n texts)

theorem getLine_text (z : List String) (texts : List Text) :
    bufferText true (getLine z texts).2 ++ String.join (getLine z texts).1 =
      bufferText true texts ++ String.join z := by
  fun_induction getLine z texts with
  | case1 z texts ih => simp [ih, String.append_assoc]
  | case2 z n texts ih => simpa using ih
  | case3 z texts hnewline hspace =>
    rw [getLineBody_text]
    match texts with
    | [] => rfl
    | .string text :: texts => rfl
    | .newline :: texts => exact absurd rfl (hnewline texts)
    | .space n :: texts => exact absurd rfl (hspace n texts)

theorem getLines_text (z : List String) (texts : List Text) :
    String.join (getLines z texts) = bufferText true texts ++ String.join z := by
  fun_induction getLines z texts with
  | case1 z => simp
  | case2 z text texts line ih => rw [ih, getLine_text]

theorem commit_text (z : List String) (texts : List Text) :
    String.join (commit z texts) = bufferText true texts ++ String.join z := by
  fun_induction commit z texts with
  | case1 z => simp
  | case2 z text texts line hline ih =>
    have htext : bufferText true line.2 ++ String.join line.1 =
        bufferText true (text :: texts) ++ String.join [] :=
      getLine_text [] (text :: texts)
    rw [hline] at htext
    simp only [String.join_nil, String.append_empty] at htext
    rw [ih, htext]
  | case3 z text texts line hline ih =>
    have htext : bufferText true line.2 ++ String.join line.1 =
        bufferText true (text :: texts) ++ String.join [] :=
      getLine_text [] (text :: texts)
    rw [ih, String.join_cons, ← String.append_assoc, htext]
    simp

/-! ### The two machines -/

/-- With the output function, what is not in the buffer any more has been
emitted, whatever follows. -/
def SameText (emitted : List String) (streamed batch : List Text) : Prop :=
  ∀ atEnd, bufferText atEnd batch =
    String.join emitted ++ bufferText atEnd streamed

theorem SameText.cons {emitted : List String} {streamed batch : List Text}
    (h : SameText emitted streamed batch) (text : Text) :
    SameText emitted (text :: streamed) (text :: batch) := by
  intro atEnd
  cases text with
  | string text => simp [h false, String.append_assoc]
  | space count => simp [h atEnd, String.append_assoc]
  | newline => simp [h true, String.append_assoc]

/-- The lines that end with the line break are emitted at it. -/
theorem SameText.dump {emitted : List String} {streamed batch : List Text}
    (h : SameText emitted streamed batch) :
    SameText (emitted ++ commit [] (.newline :: streamed)) [] (.newline :: batch) := by
  intro atEnd
  rw [String.join_append, commit_text]
  simp [h true, String.append_assoc]

/-- The two outputs apart from the output function and the buffer. -/
structure SameOutput (emitted : List String) (streamed batch : Output) : Prop where
  outputFn : streamed.outputFn = true ∧ batch.outputFn = false
  column : streamed.column = batch.column
  width : streamed.width = batch.width
  text : SameText emitted streamed.buffer batch.buffer

theorem SameOutput.putString {emitted : List String} {streamed batch : Output}
    (h : SameOutput emitted streamed batch) (len : Int) (text : String) :
    SameOutput emitted (putString streamed len text) (putString batch len text) where
  outputFn := h.outputFn
  column := congrArg (· + len) h.column
  width := h.width
  text := by
    unfold PrettyPrinter2.putString
    by_cases hempty : text = ""
    · simpa [hempty] using h.text
    · simpa [hempty] using h.text.cons (.string text)

theorem SameOutput.putSpace {emitted : List String} {streamed batch : Output}
    (h : SameOutput emitted streamed batch) (count : Int) :
    SameOutput emitted (putSpace streamed count) (putSpace batch count) := by
  unfold PrettyPrinter2.putSpace
  split
  · exact ⟨h.outputFn, congrArg (· + count) h.column, h.width,
      h.text.cons (.space count)⟩
  · exact h

variable {streamed batch : Output}

theorem SameOutput.putNewline {emitted : List String}
    (h : SameOutput emitted streamed batch) :
    SameOutput emitted (putNewline streamed) (putNewline batch) :=
  ⟨h.outputFn, rfl, h.width, h.text.cons .newline⟩

theorem SameOutput.canPut {emitted : List String} {streamed batch : Output}
    (h : SameOutput emitted streamed batch) (len : Int) :
    canPut streamed len = canPut batch len := by
  simp only [PrettyPrinter2.canPut, h.column, h.width]

/-- Each restart of one machine has its counterpart, saved at the same place
and after the last string emitted. -/
def SameRestart (emitted : List String) : List Saved → List Saved → Prop :=
  List.Forall₂ fun streamed batch =>
    streamed.priority = batch.priority ∧ streamed.frame = batch.frame ∧
      SameOutput emitted streamed.output batch.output

structure SameConfig (streamed batch : Config) : Prop where
  emitted : batch.emitted = []
  frame : streamed.state.frame = batch.state.frame
  output : SameOutput streamed.emitted streamed.output batch.output
  restart : SameRestart streamed.emitted streamed.state.restart batch.state.restart

theorem SameRestart.precedesToRestart {emitted : List String}
    {streamed batch : List Saved} (h : SameRestart emitted streamed batch)
    (priority : RestartPriority) :
    precedesToRestart priority streamed = precedesToRestart priority batch := by
  cases h with
  | nil => rfl
  | cons hhead _ => simp only [PrettyPrinter2.precedesToRestart, hhead.1]

theorem SameRestart.newlineRestart {emitted : List String}
    {streamed batch : List Saved} (h : SameRestart emitted streamed batch)
    (context : Context) : SameRestart emitted (newlineRestart context streamed)
      (newlineRestart context batch) := by
  cases context with
  | top _ => exact .nil
  | guard base _ _ =>
    cases h with
    | nil => exact .nil
    | cons hhead hrest =>
      simp only [PrettyPrinter2.newlineRestart, hhead.1]
      split
      · exact .nil
      · split
        · exact .nil
        · exact .cons hhead hrest

/-- A restart saved by both machines at once. -/
theorem SameRestart.save {emitted : List String} {streamed batch : List Saved}
    {output output' : Output} (h : SameRestart emitted streamed batch)
    (houtput : SameOutput emitted output output')
    (priority : RestartPriority) (frame : Frame) : SameRestart emitted
      (if PrettyPrinter2.precedesToRestart priority streamed then
        ⟨priority, output, frame⟩ :: streamed else streamed)
      (if PrettyPrinter2.precedesToRestart priority batch then
        ⟨priority, output', frame⟩ :: batch else batch) := by
  rw [h.precedesToRestart priority]
  split
  · exact .cons ⟨rfl, rfl, houtput⟩ h
  · exact h

theorem dump_same {emitted : List String}
    (h : SameOutput emitted streamed batch) :
    (dump batch).1 = [] ∧ (dump batch).2 = batch ∧
      (dump streamed).1 = commit [] streamed.buffer ∧
      (dump streamed).2 = { streamed with buffer := [] } := by
  simp [dump, h.outputFn.1, h.outputFn.2]

/-- The lines up to a line break are dumped. -/
theorem SameOutput.dump {emitted : List String} {streamed batch : Output}
    (h : SameOutput emitted streamed batch) :
    SameOutput (emitted ++ (dump (PrettyPrinter2.putNewline streamed)).1)
      (dump (PrettyPrinter2.putNewline streamed)).2
      (dump (PrettyPrinter2.putNewline batch)).2 := by
  obtain ⟨-, hbatch, hstrings, hstreamed⟩ := dump_same h.putNewline
  rw [hbatch, hstrings, hstreamed]
  exact ⟨h.outputFn, rfl, h.width, h.text.dump⟩

/-- One call of `run` in both machines. -/
theorem step_same {streamed batch streamed' : Config}
    (h : SameConfig streamed batch) (hstep : step streamed = .inl streamed') :
    ∃ batch', step batch = .inl batch' ∧ SameConfig streamed' batch' := by
  obtain ⟨emitted, output, ⟨⟨input, indent, assoc, next, context⟩, restart⟩⟩ :=
    streamed
  obtain ⟨emitted', output', ⟨frame', restart'⟩⟩ := batch
  obtain ⟨hemitted, hframe, houtput, hrestart⟩ := h
  dsimp only at hemitted hframe houtput hrestart
  subst hemitted hframe
  match input, hstep with
  | [], hstep =>
    match next, hstep with
    | .delim _ :: _, hstep =>
      cases hstep
      exact ⟨_, rfl, rfl, rfl, houtput, hrestart⟩
    | .next _ _ :: _, hstep =>
      cases hstep
      exact ⟨_, rfl, rfl, rfl, houtput, hrestart⟩
  | .sequence [] :: _, hstep =>
    cases hstep
    exact ⟨_, rfl, rfl, rfl, houtput, hrestart⟩
  | [.sequence (_ :: _)], hstep =>
    cases hstep
    exact ⟨_, rfl, rfl, rfl, houtput, hrestart⟩
  | .sequence (_ :: _) :: _ :: _, hstep =>
    cases hstep
    exact ⟨_, rfl, rfl, rfl, houtput, hrestart⟩
  | .startOfIndent _ :: _, hstep =>
    cases hstep
    exact ⟨_, rfl, rfl, rfl, houtput, hrestart⟩
  | .endOfIndent :: _, hstep =>
    cases hstep
    exact ⟨_, rfl, rfl, rfl, houtput, hrestart⟩
  | .guard (some ⟨cut, strength, direction⟩) body :: input, hstep =>
    by_cases hweaker : (cut ||
        isWeakerThanOrEqualTo (guardAssoc input assoc) ⟨strength, direction⟩) = true
    · simp only [step, hweaker, if_true] at hstep ⊢
      cases hstep
      exact ⟨_, rfl, rfl, rfl, houtput, hrestart⟩
    · simp only [step, hweaker] at hstep ⊢
      cases hstep
      exact ⟨_, rfl, rfl, rfl, houtput, hrestart⟩
  | .guard none _ :: _, hstep =>
    cases hstep
    refine ⟨_, rfl, rfl, ?_, houtput, hrestart⟩
    rw [houtput.column]
  | .indicator space (some (.preferred n)) :: input, hstep =>
    cases context with
    | top nest =>
      cases hstep
      exact ⟨_, rfl, rfl, rfl, houtput, hrestart⟩
    | guard base nest priority =>
      by_cases hbreak : nest = base ∧ n ≤ priority
      · simp only [step, hbreak, and_self, if_true] at hstep ⊢
        cases hstep
        exact ⟨_, rfl, rfl, rfl, houtput, hrestart⟩
      · simp only [step, hbreak, if_false] at hstep ⊢
        cases hstep
        exact ⟨_, rfl, rfl, rfl, houtput, hrestart.save houtput _ _⟩
  | .indicator _ (some .deferred) :: _, hstep =>
    cases hstep
    exact ⟨_, rfl, rfl, rfl, houtput, hrestart.save houtput _ _⟩
  | .indicator _ none :: _, hstep =>
    cases hstep
    exact ⟨_, rfl, rfl, rfl, houtput, hrestart⟩
  | .newline :: input, hstep =>
    have hremains := hrestart.newlineRestart context
    cases hstreamed : newlineRestart context restart with
    | nil =>
      have hbatch : newlineRestart context restart' = [] :=
        List.forall₂_nil_left_iff.mp (hstreamed ▸ hremains)
      simp only [step, hstreamed, hbatch] at hstep ⊢
      cases hstep
      refine ⟨_, rfl, ?_, rfl, houtput.dump.putSpace indent.level, .nil⟩
      simp only [(dump_same houtput.putNewline).1, List.append_nil]
    | cons saved rest =>
      rw [hstreamed] at hremains
      cases hbatch : newlineRestart context restart' with
      | nil =>
        rw [hbatch] at hremains
        cases hremains
      | cons saved' rest' =>
        rw [hbatch] at hremains
        simp only [step, hstreamed, hbatch] at hstep ⊢
        cases hstep
        exact ⟨_, rfl, rfl, rfl, houtput.putNewline.putSpace indent.level,
          hremains⟩
  | .term len text :: input, hstep =>
    cases hfits : canPut output len with
    | true =>
      have hfits' : canPut output' len = true := houtput.canPut len ▸ hfits
      simp only [step, hfits, hfits', if_true] at hstep ⊢
      cases hstep
      exact ⟨_, rfl, rfl, rfl, houtput.putString len text, hrestart⟩
    | false =>
      have hfits' : canPut output' len = false := houtput.canPut len ▸ hfits
      simp only [step, hfits, hfits', Bool.false_eq_true, if_false] at hstep ⊢
      cases hrestart with
      | nil =>
        cases hstep
        exact ⟨_, rfl, rfl, rfl, houtput.putString len text, .nil⟩
      | cons hhead hrest =>
        cases hstep
        exact ⟨_, rfl, rfl, hhead.2.1, hhead.2.2, hrest⟩

/-- At the end everything left in the buffer is given to the output function. -/
theorem step_same_done {streamed batch : Config} {printed : Printed}
    (h : SameConfig streamed batch) (hstep : step streamed = .inr printed) :
    ∃ printed', step batch = .inr printed' ∧
      printed'.emitted = [] ∧ printed.returned = "" ∧
      String.join printed.emitted = printed'.returned := by
  obtain ⟨hinput, hnext, rfl⟩ := step_done hstep
  obtain ⟨emitted, output, ⟨⟨input, indent, assoc, next, context⟩, restart⟩⟩ :=
    streamed
  obtain ⟨emitted', output', ⟨frame', restart'⟩⟩ := batch
  obtain ⟨hemitted, hframe, houtput, hrestart⟩ := h
  dsimp only at hemitted hframe houtput hrestart hinput hnext
  subst hemitted hframe hinput hnext
  obtain ⟨hnothing, hbatch, hstrings, hstreamed⟩ := dump_same houtput
  refine ⟨_, rfl, ?_, ?_, ?_⟩
  · simp [hnothing]
  · simp [hstreamed, getLines]
  · simp only [hbatch, hstrings, getLines_text, String.join_append, commit_text,
      String.join_nil, String.append_empty]
    exact (houtput.text true).symm

theorem run_same {streamed batch : Config} (h : SameConfig streamed batch) :
    (run batch).emitted = [] ∧ (run streamed).returned = "" ∧
      String.join (run streamed).emitted = (run batch).returned :=
  Machine.run_simulation terminating terminating
    (fun _ _ _ hsim hstep => step_same hsim hstep)
    (fun _ _ _ hsim hstep => step_same_done hsim hstep) streamed batch h

theorem start_same (width : Int) (expressions : List Expression) :
    SameConfig (start true width expressions) (start false width expressions) :=
  ⟨rfl, rfl, ⟨⟨rfl, rfl⟩, rfl, rfl, fun _ => rfl⟩, .nil⟩

/-- With an output function the strings it is given are, one after the other,
the string that is returned without one. -/
theorem format_streaming (width : Int) (expressions : List Expression) :
    String.join (format true width expressions).emitted =
        (format false width expressions).returned ∧
      (format true width expressions).returned = "" ∧
      (format false width expressions).emitted = [] := by
  obtain ⟨hemitted, hreturned, hjoin⟩ := run_same (start_same width expressions)
  exact ⟨hjoin, hreturned, hemitted⟩

/-- All that is printed: the strings given to the output function, and the
string that is returned. -/
def Printed.text (printed : Printed) : String :=
  String.join printed.emitted ++ printed.returned

theorem format_text (outputFn : Bool) (width : Int)
    (expressions : List Expression) : (format outputFn width expressions).text =
      (format false width expressions).returned := by
  obtain ⟨hemitted, hreturned, hjoin⟩ := run_same (start_same width expressions)
  unfold Printed.text format
  cases outputFn with
  | false => simp [hemitted]
  | true => simp [hreturned, hjoin]

end PrettyPrinter2

end SmlSharp
