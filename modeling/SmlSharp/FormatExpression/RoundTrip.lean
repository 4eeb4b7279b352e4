/-
Which lists of format expressions are parsed from their texts.
-/
import SmlSharp.FormatExpression.Parse

namespace SmlSharp

namespace FormatExpression

open PrettyPrinter2 ParserComb

/-! ### What the texts can represent -/

/-- Without a quote that ends the text early; the character behind a backslash is
taken as it is. -/
inductive WellEscaped : List Char → Prop
  | nil : WellEscaped []
  | plain {c : Char} {text : List Char} :
      c ≠ '"' → c ≠ '\\' → WellEscaped text → WellEscaped (c :: text)
  | escaped (c : Char) {text : List Char} : WellEscaped text → WellEscaped ('\\' :: c :: text)

mutual

/-- The text has no columns besides the characters, no sequences, no empty guards
and nothing for an indicator without space and newline. -/
def Representable : Expression → Prop
  | .term len text => len = text.length ∧ WellEscaped text.toList
  | .newline => True
  | .guard _ body => body ≠ [] ∧ RepresentableAll body
  | .indicator space newline => space = true ∨ newline ≠ none
  | .startOfIndent _ => True
  | .endOfIndent => True
  | .sequence _ => False

def RepresentableAll : List Expression → Prop
  | [] => True
  | exp :: expressions => Representable exp ∧ RepresentableAll expressions

end

def isLonePlus : Expression → Bool
  | .indicator true none => true
  | _ => false

/-- The text begins with a number, maybe behind a plus sign. -/
def startsWithNumber : Expression → Bool
  | .indicator false (some (.preferred _)) => true
  | .indicator true (some (.preferred n)) => decide (0 ≤ n)
  | .startOfIndent _ => true
  | _ => false

mutual

/-- No space indicator of its own has a number next to it. -/
def Apart : Expression → Prop
  | .guard _ body => ApartAll body
  | .sequence body => ApartAll body
  | .term _ _ => True
  | .newline => True
  | .indicator _ _ => True
  | .startOfIndent _ => True
  | .endOfIndent => True

def ApartAll : List Expression → Prop
  | [] => True
  | exp :: expressions =>
    Apart exp ∧ (isLonePlus exp = true → ∀ next ∈ expressions.head?,
      startsWithNumber next = false) ∧ ApartAll expressions

end

/-! ### Numbers -/

attribute [local simp] eatChar scanInt scanDigits toString Representable RepresentableAll

variable {c : Char} {strm rest : List Char} {exp : Expression} {strm' : List Char}
  {exps : List Expression}

theorem isDigit_iff : c.isDigit = true ↔ 48 ≤ c.toNat ∧ c.toNat ≤ 57 := by
  simp [Char.isDigit, UInt32.le_iff_toNat_le]

theorem isDigit_iff_le : c.isDigit = true ↔ '0' ≤ c ∧ c ≤ '9' := by
  rw [isDigit_iff, Char.le_def, Char.le_def, UInt32.le_iff_toNat_le, UInt32.le_iff_toNat_le]
  rfl

theorem scanDigit_of_isDigit (h : c.isDigit = true) :
    scanDigit c = some ((c.toNat : Int) - 48) := by
  rw [scanDigit, if_pos (isDigit_iff_le.mp h)]

theorem scanDigit_of_not (h : c.isDigit = false) : scanDigit c = none := by
  rw [scanDigit, if_neg]
  intro hle
  rw [isDigit_iff_le.mpr hle] at h
  nomatch h

theorem scanDigits_append {digits : List Char} (hdigits : ∀ c ∈ digits, c.isDigit = true)
    (hc : c.isDigit = false) (rest : List Char) :
    scanDigits (digits ++ c :: rest) = (digits.map fun d => (d.toNat : Int) - 48, c :: rest) := by
  induction digits with
  | nil => simp [scanDigit_of_not hc]
  | cons d digits ih =>
    rw [List.cons_append, scanDigits, scanDigit_of_isDigit (hdigits d List.mem_cons_self)]
    dsimp only
    rw [ih fun c hc => hdigits c (List.mem_cons_of_mem d hc)]
    rfl

theorem isDigit_of_mem_toDigits {n : Nat} (h : c ∈ Nat.toDigits 10 n) :
    c.isDigit = true :=
  Nat.isDigit_of_mem_toDigits (by decide) (by decide) h

/-- The loops of `scan` on the digits of a text. -/
theorem foldl_digits {digits : List Char} (hdigits : ∀ c ∈ digits, c.isDigit = true) (z : Nat) :
    (digits.map fun d => (d.toNat : Int) - 48).foldl (fun z h => z * 10 + h) (z : Int) =
        Nat.ofDigitChars 10 digits z ∧
      (digits.map fun d => (d.toNat : Int) - 48).foldl (fun z h => z * 10 - h) (-z : Int) =
        -(Nat.ofDigitChars 10 digits z : Int) := by
  induction digits generalizing z with
  | nil => simp
  | cons d digits ih =>
    have hd := (isDigit_iff.mp (hdigits d List.mem_cons_self)).1
    have hrest := ih (fun c hc => hdigits c (List.mem_cons_of_mem d hc))
      (10 * z + (d.toNat - '0'.toNat))
    have hzero : '0'.toNat = 48 := rfl
    rw [hzero] at hrest
    have hcast : ((10 * z + (d.toNat - 48) : Nat) : Int) = z * 10 + ((d.toNat : Int) - 48) := by
      omega
    have hneg : -((10 * z + (d.toNat - 48) : Nat) : Int) = -z * 10 - ((d.toNat : Int) - 48) := by
      omega
    rw [hneg, hcast] at hrest
    rw [List.map_cons, List.foldl_cons, List.foldl_cons, Nat.ofDigitChars_cons, hzero]
    exact hrest

theorem scanDigits_toDigits (n : Nat) (hc : c.isDigit = false) (rest : List Char) :
    ∃ digit digits, scanDigits (Nat.toDigits 10 n ++ c :: rest) = (digit :: digits, c :: rest) ∧
      (digit :: digits).foldl (fun z h => z * 10 + h) 0 = (n : Int) ∧
      (digit :: digits).foldl (fun z h => z * 10 - h) 0 = -(n : Int) := by
  have hdigits : ∀ c ∈ Nat.toDigits 10 n, c.isDigit = true := fun _ => isDigit_of_mem_toDigits
  have hscan := scanDigits_append hdigits hc rest
  have hfold := foldl_digits hdigits 0
  rw [Nat.ofDigitChars_toDigits (by decide) (by decide)] at hfold
  cases htext : Nat.toDigits 10 n with
  | nil => exact absurd htext Nat.toDigits_ne_nil
  | cons d ds =>
    rw [htext] at hscan hfold
    exact ⟨_, _, hscan, hfold.1, hfold.2⟩

theorem toDigits_head (n : Nat) :
    ∃ c cs, Nat.toDigits 10 n = c :: cs ∧ c.isDigit = true := by
  cases htext : Nat.toDigits 10 n with
  | nil => exact absurd htext Nat.toDigits_ne_nil
  | cons c cs =>
    refine ⟨c, cs, rfl, isDigit_of_mem_toDigits (n := n) ?_⟩
    rw [htext]
    exact List.mem_cons_self

theorem skipSpaces_of_not (h : isSpace c = false) (rest : List Char) :
    skipSpaces (c :: rest) = c :: rest := by
  rw [skipSpaces, if_neg (by simp [h])]

/-- A digit is neither a space nor a sign nor the start of anything else. -/
theorem isDigit_ne (h : c.isDigit = true) {c' : Char} (h' : c'.isDigit = false) :
    c ≠ c' := by
  rintro rfl
  rw [h] at h'
  nomatch h'

theorem isSpace_of_isDigit (h : c.isDigit = true) : isSpace c = false := by
  rw [isDigit_iff] at h
  rw [Bool.eq_false_iff]
  intro hspace
  simp only [isSpace, Bool.or_eq_true, Bool.and_eq_true, decide_eq_true_eq, beq_iff_eq,
    Char.le_def, UInt32.le_iff_toNat_le] at hspace
  rcases hspace with ⟨-, hle⟩ | rfl
  · have hle' : c.toNat ≤ 13 := hle
    omega
  · exact absurd h.1 (by decide)

theorem scanSign_of_isDigit (h : c.isDigit = true) (rest : List Char) :
    scanSign (c :: rest) = (false, c :: rest) := by
  unfold scanSign
  split
  · next heq => exact absurd (List.cons.inj heq).1 (isDigit_ne h (by decide))
  · next heq => exact absurd (List.cons.inj heq).1 (isDigit_ne h (by decide))
  · next heq => exact absurd (List.cons.inj heq).1 (isDigit_ne h (by decide))
  · rfl

theorem scan_natural (n : Nat) (hc : c.isDigit = false) (rest : List Char) :
    scan (Nat.toDigits 10 n ++ c :: rest) = .ok (some ((n : Int), c :: rest)) := by
  obtain ⟨digit, digits, hscan, hpos, -⟩ := scanDigits_toDigits n hc rest
  obtain ⟨d, ds, htext, hd⟩ := toDigits_head n
  rw [htext] at hscan ⊢
  rw [List.cons_append] at hscan ⊢
  rw [scan, scanInt, skipSpaces_of_not (isSpace_of_isDigit hd), scanSign_of_isDigit hd]
  simp only [hscan, hpos]
  rfl

theorem scan_sign {sign : Char} {neg : Bool} (hspace : isSpace sign = false)
    (hsign : ∀ strm, scanSign (sign :: strm) = (neg, strm)) (n : Nat)
    (hc : c.isDigit = false) (rest : List Char) :
    scan (sign :: (Nat.toDigits 10 n ++ c :: rest)) =
      .ok (some (if neg then -(n : Int) else n, c :: rest)) := by
  obtain ⟨digit, digits, hscan, hpos, hneg⟩ := scanDigits_toDigits n hc rest
  rw [scan, scanInt, skipSpaces_of_not hspace, hsign]
  simp only [hscan, hpos, hneg]
  cases neg <;> rfl

theorem scan_intToString (n : Int) (hc : c.isDigit = false) (rest : List Char) :
    scan (intToString n ++ c :: rest) = .ok (some (n, c :: rest)) := by
  rw [intToString]
  split
  · next hneg =>
      have htilde : ∀ strm, scanSign ('~' :: strm) = (true, strm) := fun _ => rfl
      rw [List.cons_append, scan_sign (by decide) htilde n.natAbs hc rest]
      have heq : -(n.natAbs : Int) = n := by omega
      rw [if_pos rfl, heq]
  · next hpos =>
      rw [scan_natural n.natAbs hc]
      have heq : (n.natAbs : Int) = n := by omega
      rw [heq]

/-- Nothing is scanned without a digit behind the sign. -/
theorem scan_none (h : ∀ c rest, (scanSign (skipSpaces strm)).2 = c :: rest → c.isDigit = false) :
    scan strm = .ok none := by
  rw [scan]
  cases hsign : scanSign (skipSpaces strm) with
  | mk neg strm' =>
    rw [hsign] at h
    cases strm' with
    | nil => simp [hsign]
    | cons c rest => simp [hsign, scanDigit_of_not (h c rest rfl)]

theorem scan_space (strm : List Char) : scan (' ' :: strm) = scan strm :=
  rfl

theorem scan_plus {n : Int} (hn : 0 ≤ n) (hc : c.isDigit = false)
    (rest : List Char) :
    scan ('+' :: (intToString n ++ c :: rest)) = .ok (some (n, c :: rest)) := by
  have hplus : ∀ strm, scanSign ('+' :: strm) = (false, strm) := fun _ => rfl
  have heq : (n.natAbs : Int) = n := by omega
  rw [intToString, if_neg (by omega), scan_sign (by decide) hplus n.natAbs hc rest,
    if_neg Bool.false_ne_true, heq]

/-- The first character of a number. -/
theorem intToString_head (n : Int) :
    ∃ c cs, intToString n = c :: cs ∧ (c = '~' ∨ c.isDigit = true) := by
  rw [intToString]
  split
  · exact ⟨'~', _, rfl, Or.inl rfl⟩
  · obtain ⟨c, cs, htext, hc⟩ := toDigits_head n.natAbs
    exact ⟨c, cs, htext, Or.inr hc⟩

/-! ### The parts of the parser -/

theorem char_yields (c : Char) (rest : List Char) :
    Yields (fun _ => char c) (c :: rest) c rest :=
  Yields.of_eq (by simp [char])

theorem char_fails {c' : Char} (h : c ≠ c') (rest : List Char) :
    Fails (fun _ => char c) (c' :: rest) :=
  Fails.of_eq (by simp [char, h])

theorem char_fails_nil (c : Char) : Fails (fun _ => char c) [] :=
  Fails.of_eq rfl

/-- A character of a text, with the backslash before it. -/
inductive Piece : List Char → Prop
  | plain {c : Char} : c ≠ '"' → c ≠ '\\' → Piece [c]
  | escaped (c : Char) : Piece ['\\', c]

theorem WellEscaped.of_pieces {pieces : List (List Char)} (h : ∀ piece ∈ pieces, Piece piece) :
    WellEscaped pieces.flatten := by
  induction pieces with
  | nil => exact .nil
  | cons piece pieces ih =>
    have hrest := ih fun piece' hmem => h piece' (List.mem_cons_of_mem piece hmem)
    rw [List.flatten_cons]
    cases h piece List.mem_cons_self with
    | plain hquote hbackslash => exact .plain hquote hbackslash hrest
    | escaped c => exact .escaped c hrest

theorem escapedChar_plain (hquote : c ≠ '"') (hbackslash : c ≠ '\\')
    (rest : List Char) : Yields (fun _ => escapedChar) (c :: rest) [c] rest := by
  have hfails : Fails (fun _ => seq (char '\\') (eatChar fun _ => true)) (c :: rest) :=
    (char_fails hbackslash.symm rest).seqWith_left _ _
  have hyields : Yields (fun _ => eatChar fun ch => ch != '"') (c :: rest) c rest :=
    Yields.of_eq (by simp [hquote])
  exact (hyields.wrap fun ch => [ch]).or_right (hfails.wrap fun p => ['\\', p.2])

theorem escapedChar_escaped (c : Char) (rest : List Char) :
    Yields (fun _ => escapedChar) ('\\' :: c :: rest) ['\\', c] rest := by
  have hyields : Yields (fun _ => eatChar fun _ => true) (c :: rest) c rest :=
    Yields.of_eq (by simp)
  exact (((char_yields '\\' (c :: rest)).seqWith hyields Prod.mk).wrap
    fun p => ['\\', p.2]).or_left _

theorem escapedChar_quote (rest : List Char) : Fails (fun _ => escapedChar) ('"' :: rest) := by
  have hfails : Fails (fun _ => seq (char '\\') (eatChar fun _ => true)) ('"' :: rest) :=
    (char_fails (by decide) rest).seqWith_left _ _
  have hfails' : Fails (fun _ => eatChar fun ch => ch != '"') ('"' :: rest) :=
    Fails.of_eq (by simp)
  exact (hfails.wrap _).or (hfails'.wrap _)

theorem WellEscaped.items {text : List Char} (h : WellEscaped text) (rest : List Char) :
    ∃ pieces, pieces.flatten = text ∧
      Items (fun _ => escapedChar) (text ++ '"' :: rest) pieces ('"' :: rest) := by
  induction h with
  | nil => exact ⟨[], rfl, .nil (escapedChar_quote rest)⟩
  | @plain c text hquote hbackslash _ ih =>
    obtain ⟨pieces, rfl, hitems⟩ := ih
    exact ⟨[c] :: pieces, rfl, .cons (escapedChar_plain hquote hbackslash _) hitems⟩
  | @escaped c text _ ih =>
    obtain ⟨pieces, rfl, hitems⟩ := ih
    exact ⟨['\\', c] :: pieces, rfl, .cons (escapedChar_escaped c _) hitems⟩

theorem stringTerm_yields {text : String} (h : WellEscaped text.toList) (rest : List Char) :
    Yields stringTerm ('"' :: (text.toList ++ '"' :: rest)) (.term text.length text) rest := by
  obtain ⟨pieces, hpieces, hitems⟩ := h.items rest
  have hyields : Yields stringTerm ('"' :: (text.toList ++ '"' :: rest))
      (.term pieces.flatten.length (String.ofList pieces.flatten)) rest :=
    (char_yields '"' _).seqWith (hitems.zeroOrMore.seqWith (char_yields '"' rest) Prod.mk) _
  rwa [hpieces, String.ofList_toList, String.length_toList] at hyields

theorem stringTerm_fails (h : c ≠ '"') (rest : List Char) :
    Fails stringTerm (c :: rest) :=
  (char_fails h.symm rest).seqWith_left _ _

theorem newline_fails (h : c ≠ '\\') (rest : List Char) :
    Fails (fun _ => newline) (c :: rest) := by
  have hstring : Fails (fun _ => string ['\\', 'n']) (c :: rest) :=
    Fails.of_eq (by simp [string, string.eat, h.symm])
  exact hstring.wrap _

/-- The characters that an associativity or a guard begins with. -/
def guardHeads : List Char := ['!', 'L', 'R', 'N', '{']

theorem assocIndicator_fails (h : c ∉ ['!', 'L', 'R', 'N']) (rest : List Char) :
    Fails (fun _ => assocIndicator) (c :: rest) := by
  simp only [List.mem_cons, List.not_mem_nil, or_false, not_or] at h
  obtain ⟨hcut, hleft, hright, hneutral⟩ := h
  have hdirection : Fails (fun _ => or' [wrap (char 'L') fun _ => AssocDirection.left,
      wrap (char 'R') fun _ => .right, wrap (char 'N') fun _ => .neutral]) (c :: rest) :=
    Fails.or'_cons ((char_fails (Ne.symm hleft) rest).wrap _)
      (Fails.or'_cons ((char_fails (Ne.symm hright) rest).wrap _)
        (Fails.or'_cons ((char_fails (Ne.symm hneutral) rest).wrap _) Fails.or'_nil))
  exact (char_fails (Ne.symm hcut) rest).option.seqWith_fails (hdirection.seqWith_left _ _) _

theorem guard_fails (h : c ∉ guardHeads) (rest : List Char) :
    Fails guard (c :: rest) := by
  have hassoc : c ∉ ['!', 'L', 'R', 'N'] := fun hmem => h (List.mem_append_left ['{'] hmem)
  have hbrace : '{' ≠ c := fun heq => h (by simp [guardHeads, ← heq])
  have hfails : Fails (fun n => seqWith
      (fun assocOpt p => Expression.guard assocOpt p.2.1)
      (option assocIndicator) (seq (char '{') (seq (expressions n) (char '}')))) (c :: rest) :=
    (assocIndicator_fails hassoc rest).option.seqWith_fails
      ((char_fails hbrace rest).seqWith_left _ _) _
  exact Converges.call hfails fun _ => rfl

/-- The alternatives before those that begin with a number or a sign. -/
theorem expression_of_tail (hquote : c ≠ '"') (hbackslash : c ≠ '\\')
    (hguard : c ∉ guardHeads)
    (h : Yields (fun _ => or' [startOfIndent, endOfIndent, indicator]) (c :: rest) exp strm') :
    Yields expression (c :: rest) exp strm' := by
  have hguards : Yields (fun n => or' [guard n, startOfIndent, endOfIndent, indicator])
      (c :: rest) exp strm' := Yields.or'_tail h (guard_fails hguard rest)
  have hnewlines := Yields.or'_tail hguards (newline_fails hbackslash rest)
  exact Converges.call (Yields.or'_tail hnewlines (stringTerm_fails hquote rest)) fun _ => rfl

/-! ### Numbers and signs as expressions -/

/-- The alternatives for numbers and signs are the last ones. -/
theorem ordinary_head (h : c ∈ ['~', '+', ']', 'd'] ∨ c.isDigit = true) :
    c ≠ '"' ∧ c ≠ '\\' ∧ c ∉ guardHeads := by
  rcases h with h | h
  · simp only [List.mem_cons, List.not_mem_nil, or_false] at h
    rcases h with rfl | rfl | rfl | rfl <;> decide
  · refine ⟨isDigit_ne h (by decide), isDigit_ne h (by decide), fun hmem => ?_⟩
    simp only [guardHeads, List.mem_cons, List.not_mem_nil, or_false] at hmem
    rcases hmem with rfl | rfl | rfl | rfl | rfl <;> nomatch h

theorem startOfIndent_fails {n : Int}
    (hscan : scan strm = .ok (some (n, strm'))) (hbracket : ∀ rest, strm' ≠ '[' :: rest) :
    Fails (fun _ => startOfIndent) strm := by
  have hchar : Fails (fun _ => char '[') strm' := by
    cases strm' with
    | nil => exact char_fails_nil '['
    | cons c rest => exact char_fails (fun heq => hbracket rest (by rw [heq])) rest
  exact ((Yields.of_eq hscan).seqWith_fails hchar Prod.mk).wrap _

theorem startOfIndent_fails_none (hscan : scan strm = .ok none) :
    Fails (fun _ => startOfIndent) strm :=
  ((Fails.of_eq hscan).seqWith_left _ _).wrap _

theorem endOfIndent_fails (h : c ≠ ']') (rest : List Char) :
    Fails (fun _ => endOfIndent) (c :: rest) :=
  (char_fails h.symm rest).wrap _

/-- An indicator, when the alternatives before it fail. -/
theorem expression_of_indicator (h : c ∈ ['~', '+', 'd'] ∨ c.isDigit = true)
    (hindent : Fails (fun _ => startOfIndent) (c :: rest))
    (hindicator : Yields (fun _ => indicator) (c :: rest) exp strm') :
    Yields expression (c :: rest) exp strm' := by
  have hordinary : c ∈ ['~', '+', ']', 'd'] ∨ c.isDigit = true :=
    h.imp_left fun hmem => by
      simp only [List.mem_cons, List.not_mem_nil, or_false] at hmem ⊢
      tauto
  obtain ⟨hquote, hbackslash, hguard⟩ := ordinary_head hordinary
  have hclose : c ≠ ']' := by
    rcases h with hmem | hdigit
    · rintro rfl
      simp at hmem
    · exact isDigit_ne hdigit (by decide)
  apply expression_of_tail hquote hbackslash hguard
  exact Yields.or'_tail (Yields.or'_tail (hindicator.or'_head fun _ => [])
    (endOfIndent_fails hclose rest)) hindent

/-- The text of a priority is parsed, unless a bracket follows. -/
theorem priority_yields (p : Priority) (hc : c.isDigit = false) (rest : List Char) :
    Yields (fun _ => priority) (priorityToString p ++ c :: rest) p (c :: rest) := by
  cases p with
  | deferred => exact ((char_yields 'd' (c :: rest)).wrap fun _ => Priority.deferred).or_left _
  | preferred n =>
    obtain ⟨d, ds, htext, hd⟩ := intToString_head n
    have hfails : Fails (fun _ => char 'd') (intToString n ++ c :: rest) := by
      rw [htext]
      apply char_fails
      rcases hd with rfl | hd
      · decide
      · exact (isDigit_ne hd (by decide)).symm
    exact ((Yields.of_eq (scan_intToString n hc rest)).wrap Priority.preferred).or_right
      (hfails.wrap _)

theorem indicator_yields (space : Bool) (p : Priority) (hc : c.isDigit = false)
    (rest : List Char) :
    Yields (fun _ => indicator) ((if space then ['+'] else []) ++ priorityToString p ++ c :: rest)
      (.indicator space (some p)) (c :: rest) := by
  have hpriority := priority_yields p hc rest
  cases space with
  | true =>
    exact ((char_yields '+' _).option.seqWith hpriority _).or_left _
  | false =>
    have hfails : Fails (fun _ => char '+') (priorityToString p ++ c :: rest) := by
      cases p with
      | deferred => exact char_fails (by decide) _
      | preferred n =>
        obtain ⟨d, ds, htext, hd⟩ := intToString_head n
        rw [priorityToString, htext]
        apply char_fails
        rcases hd with rfl | hd
        · decide
        · exact (isDigit_ne hd (by decide)).symm
    exact (hfails.option.seqWith hpriority _).or_left _

/-! ### Texts that do not begin with a number -/

theorem scan_head (hspace : isSpace c = false) (hsign : c ∉ ['+', '-', '~'])
    (hdigit : c.isDigit = false) (rest : List Char) : scan (c :: rest) = .ok none := by
  apply scan_none
  intro c' rest' heq
  have hnone : scanSign (c :: rest) = (false, c :: rest) := by
    unfold scanSign
    split
    · next heq => exact absurd (by simp [(List.cons.inj heq).1]) hsign
    · next heq => exact absurd (by simp [(List.cons.inj heq).1]) hsign
    · next heq => exact absurd (by simp [(List.cons.inj heq).1]) hsign
    · rfl
  rw [skipSpaces_of_not hspace, hnone] at heq
  rw [← (List.cons.inj heq).1]
  exact hdigit

theorem scan_plus_none (hdigit : c.isDigit = false) (rest : List Char) :
    scan ('+' :: c :: rest) = .ok none := by
  apply scan_none
  intro c' rest' heq
  have hplus : (scanSign (skipSpaces ('+' :: c :: rest))).2 = c :: rest := rfl
  rw [hplus] at heq
  rw [← (List.cons.inj heq).1]
  exact hdigit

theorem toString_guard (assoc : Option GuardAssoc) (body : List Expression) (rest : List Char) :
    ∃ c cs, toString (.guard assoc body) ++ rest = c :: cs ∧ c ∈ guardHeads := by
  cases assoc with
  | none => exact ⟨'{', _, rfl, by decide⟩
  | some assoc =>
    obtain ⟨cut, strength, direction⟩ := assoc
    cases cut with
    | true => exact ⟨'!', _, rfl, by decide⟩
    | false =>
      cases direction with
      | left => exact ⟨'L', _, rfl, by decide⟩
      | right => exact ⟨'R', _, rfl, by decide⟩
      | neutral => exact ⟨'N', _, rfl, by decide⟩

/-- Only where `startsWithNumber` says so a number can be scanned. -/
theorem scan_toString (hexp : Representable exp)
    (h : startsWithNumber exp = false) (rest : List Char) :
    scan (toString exp ++ ' ' :: rest) = .ok none := by
  cases exp with
  | term len text => exact scan_head (by decide) (by decide) (by decide) _
  | newline => exact scan_head (by decide) (by decide) (by decide) _
  | guard assoc body =>
    obtain ⟨c, cs, htext, hc⟩ := toString_guard assoc body (' ' :: rest)
    rw [htext]
    simp only [guardHeads, List.mem_cons, List.not_mem_nil, or_false] at hc
    rcases hc with rfl | rfl | rfl | rfl | rfl <;>
      exact scan_head (by decide) (by decide) (by decide) _
  | indicator space newline =>
    match space, newline with
    | false, none => simp at hexp
    | true, none => exact scan_plus_none (by decide) _
    | false, some .deferred => exact scan_head (by decide) (by decide) (by decide) _
    | true, some .deferred => exact scan_plus_none (by decide) _
    | false, some (.preferred n) => simp [startsWithNumber] at h
    | true, some (.preferred n) =>
      have hneg : n < 0 := by simpa [startsWithNumber] using h
      have htext : toString (.indicator true (some (.preferred n))) ++ ' ' :: rest =
          '+' :: '~' :: (Nat.toDigits 10 n.natAbs ++ ' ' :: rest) := by
        simp [priorityToString, intToString, hneg]
      rw [htext]
      exact scan_plus_none (by decide) _
  | startOfIndent n => simp [startsWithNumber] at h
  | endOfIndent => exact scan_head (by decide) (by decide) (by decide) _
  | sequence body => exact hexp.elim

/-- An indent is not started by the text of an indicator. -/
theorem startOfIndent_fails_indicator (space : Bool) (p : Priority) (rest : List Char) :
    Fails (fun _ => startOfIndent) (toString (.indicator space (some p)) ++ ' ' :: rest) := by
  by_cases h : startsWithNumber (.indicator space (some p)) = true
  · have hbracket : ∀ rest', ' ' :: rest ≠ '[' :: rest' := by simp
    match space, p with
    | false, .deferred => nomatch h
    | true, .deferred => nomatch h
    | false, .preferred n =>
      exact startOfIndent_fails (scan_intToString n (by decide) rest) hbracket
    | true, .preferred n =>
      exact startOfIndent_fails (scan_plus (of_decide_eq_true h) (by decide) rest) hbracket
  · exact startOfIndent_fails_none
      (scan_toString (by simp) (Bool.eq_false_iff.mpr h) rest)

/-! ### Expressions -/

theorem expression_term {text : String} (h : WellEscaped text.toList) (rest : List Char) :
    Yields expression (toString (.term text.length text) ++ ' ' :: rest)
      (.term text.length text) (' ' :: rest) := by
  have hyields := stringTerm_yields h (' ' :: rest)
  have htext : toString (.term text.length text) ++ ' ' :: rest =
      '"' :: (text.toList ++ '"' :: ' ' :: rest) := by
    simp
  rw [htext]
  exact Converges.call (hyields.or'_head _) fun _ => rfl

theorem expression_newline (rest : List Char) :
    Yields expression (toString .newline ++ ' ' :: rest) .newline (' ' :: rest) := by
  have hnewline : Yields (fun _ => newline) ('\\' :: 'n' :: ' ' :: rest) .newline (' ' :: rest) :=
    Yields.of_eq rfl
  exact Converges.call (Yields.or'_tail (hnewline.or'_head _)
    (stringTerm_fails (by decide) _)) fun _ => rfl

theorem expression_startOfIndent (n : Int) (rest : List Char) :
    Yields expression (toString (.startOfIndent n) ++ ' ' :: rest) (.startOfIndent n)
      (' ' :: rest) := by
  have htext : toString (.startOfIndent n) ++ ' ' :: rest =
      intToString n ++ '[' :: ' ' :: rest := by
    simp
  have hscan := scan_intToString n (by decide : ('[').isDigit = false) (' ' :: rest)
  obtain ⟨c, cs, hhead, hc⟩ := intToString_head n
  rw [htext]
  rw [hhead] at hscan ⊢
  have hordinary := ordinary_head (c := c) (hc.imp_left fun heq => by simp [heq])
  apply expression_of_tail hordinary.1 hordinary.2.1 hordinary.2.2
  exact (((Yields.of_eq hscan).seqWith (char_yields '[' _) Prod.mk).wrap _).or'_head _

theorem expression_endOfIndent (rest : List Char) :
    Yields expression (toString .endOfIndent ++ ' ' :: rest) .endOfIndent (' ' :: rest) := by
  have hordinary := ordinary_head (c := ']') (Or.inl (by decide))
  apply expression_of_tail hordinary.1 hordinary.2.1 hordinary.2.2
  exact Yields.or'_tail (((char_yields ']' _).wrap _).or'_head _)
    (startOfIndent_fails_none (scan_head (by decide) (by decide) (by decide) _))

theorem indicator_head (space : Bool) (p : Priority) (rest : List Char) :
    ∃ c cs, toString (.indicator space (some p)) ++ rest = c :: cs ∧
      (c ∈ ['~', '+', 'd'] ∨ c.isDigit = true) := by
  match space, p with
  | true, _ => exact ⟨'+', _, rfl, Or.inl (by decide)⟩
  | false, .deferred => exact ⟨'d', _, rfl, Or.inl (by decide)⟩
  | false, .preferred n =>
    obtain ⟨c, cs, htext, hc⟩ := intToString_head n
    refine ⟨c, cs ++ rest, ?_, hc.imp_left fun heq => by simp [heq]⟩
    simp [priorityToString, htext]

theorem expression_indicator (space : Bool) (p : Priority) (rest : List Char) :
    Yields expression (toString (.indicator space (some p)) ++ ' ' :: rest)
      (.indicator space (some p)) (' ' :: rest) := by
  have hindent := startOfIndent_fails_indicator space p rest
  have hindicator : Yields (fun _ => indicator)
      (toString (.indicator space (some p)) ++ ' ' :: rest) (.indicator space (some p))
      (' ' :: rest) := indicator_yields space p (by decide) rest
  obtain ⟨c, cs, htext, hc⟩ := indicator_head space p (' ' :: rest)
  rw [htext] at hindent hindicator ⊢
  exact expression_of_indicator hc hindent hindicator

/-- A plus sign of its own is taken as such if no number comes next. -/
theorem expression_lonePlus (hscan : scan rest = .ok none) :
    Yields expression (toString (.indicator true none) ++ ' ' :: rest) (.indicator true none)
      (' ' :: rest) := by
  have hindent : Fails (fun _ => startOfIndent) ('+' :: ' ' :: rest) :=
    startOfIndent_fails_none (scan_plus_none (by decide) rest)
  have hpriority : Fails (fun _ => priority) (' ' :: rest) :=
    ((char_fails (by decide) rest).wrap _).or
      ((Fails.of_eq ((scan_space rest).trans hscan)).wrap _)
  have hindicator : Yields (fun _ => indicator) ('+' :: ' ' :: rest) (.indicator true none)
      (' ' :: rest) :=
    ((char_yields '+' _).wrap _).or_right ((char_yields '+' _).option.seqWith_fails hpriority _)
  exact expression_of_indicator (Or.inl (by decide)) hindent hindicator

theorem direction_yields (direction : AssocDirection) (rest : List Char) :
    Yields (fun _ => or' [wrap (char 'L') fun _ => AssocDirection.left,
      wrap (char 'R') fun _ => .right, wrap (char 'N') fun _ => .neutral])
      ((match direction with
        | .left => ['L']
        | .right => ['R']
        | .neutral => ['N']) ++ rest) direction rest := by
  cases direction with
  | left => exact ((char_yields 'L' rest).wrap _).or'_head _
  | right =>
    apply Yields.or'_tail _ ((char_fails (by decide) rest).wrap _)
    exact ((char_yields 'R' rest).wrap _).or'_head _
  | neutral =>
    apply Yields.or'_tail _ ((char_fails (by decide) rest).wrap _)
    apply Yields.or'_tail _ ((char_fails (by decide) rest).wrap _)
    exact ((char_yields 'N' rest).wrap _).or'_head _

theorem direction_head (direction : AssocDirection) (rest : List Char) :
    Fails (fun _ => char '!')
      ((match direction with
        | .left => ['L']
        | .right => ['R']
        | .neutral => ['N']) ++ rest) := by
  cases direction <;> exact char_fails (by decide) rest

theorem assocIndicator_yields (assoc : GuardAssoc) (rest : List Char) :
    Yields (fun _ => assocIndicator) (assocToString assoc ++ '{' :: rest) assoc
      ('{' :: rest) := by
  obtain ⟨cut, strength, direction⟩ := assoc
  have hscan := Yields.of_eq (scan_intToString strength (by decide : ('{').isDigit = false) rest)
  have hpair := (direction_yields direction (intToString strength ++ '{' :: rest)).seqWith
    hscan Prod.mk
  rw [assocToString]
  cases cut with
  | true =>
    simp only [if_true, List.append_assoc]
    exact (char_yields '!' _).option.seqWith hpair _
  | false =>
    simp only [Bool.false_eq_true, if_false, List.nil_append, List.append_assoc]
    exact (direction_head direction _).option.seqWith hpair _

/-! ### Lists of expressions -/

section SkipBefore

variable {α : Type} {p : Nat → Parser α} {x : α} {xs : List α} {strm strm' : List Char}

theorem yields_skipBefore (h : Yields p strm x strm') {cs : List Char}
    (htext : strm = c :: cs) (hc : isSpace c = false) :
    Yields (fun fuel => skipBefore isSpace (p fuel)) strm x strm' := by
  apply Converges.congr h
  intro fuel
  change skipBefore isSpace (p fuel) strm = p fuel strm
  rw [htext, skipBefore, hc]
  rfl

theorem items_of_space (h : Items (fun fuel => skipBefore isSpace (p fuel)) (' ' :: strm) xs strm')
    (hne : xs ≠ []) : Items (fun fuel => skipBefore isSpace (p fuel)) strm xs strm' := by
  cases h with
  | nil _ => exact absurd rfl hne
  | cons hhead htail => exact .cons hhead htail

end SkipBefore

/-- Where a list of expressions ends. -/
def Closes (rest : List Char) : Prop := rest = [] ∨ ∃ behind, rest = '}' :: behind

theorem Closes.scan {rest : List Char} (h : Closes rest) :
    FormatExpression.scan rest = .ok none := by
  rcases h with rfl | ⟨behind, rfl⟩
  · rfl
  · exact scan_head (by decide) (by decide) (by decide) behind

theorem Closes.fails (h : Closes rest) :
    Fails (fun n => skipBefore isSpace (expression n)) rest := by
  rcases h with rfl | ⟨behind, rfl⟩
  · exact Converges.pure fun _ => rfl
  · have hscan : FormatExpression.scan ('}' :: behind) = .ok none :=
      scan_head (by decide) (by decide) (by decide) behind
    have hpriority : Fails (fun _ => priority) ('}' :: behind) :=
      ((char_fails (by decide) behind).wrap _).or ((Fails.of_eq hscan).wrap _)
    have hindicator : Fails (fun _ => indicator) ('}' :: behind) :=
      ((char_fails (by decide) behind).option.seqWith_fails hpriority _).or
        ((char_fails (by decide) behind).wrap _)
    have hindents : Fails (fun _ => or' [startOfIndent, endOfIndent, indicator])
        ('}' :: behind) :=
      Fails.or'_cons (startOfIndent_fails_none hscan)
        (Fails.or'_cons (endOfIndent_fails (by decide) behind)
          (Fails.or'_cons hindicator Fails.or'_nil))
    have hguards := Fails.or'_cons (guard_fails (by decide) behind) hindents
    have hexpression : Fails expression ('}' :: behind) :=
      Converges.call (Fails.or'_cons (stringTerm_fails (by decide) behind)
        (Fails.or'_cons (newline_fails (by decide) behind) hguards)) fun _ => rfl
    exact Converges.congr hexpression fun _ => rfl

theorem toString_head (hexp : Representable exp) (rest : List Char) :
    ∃ c cs, toString exp ++ rest = c :: cs ∧ isSpace c = false := by
  cases exp with
  | term len text => exact ⟨'"', _, rfl, by decide⟩
  | newline => exact ⟨'\\', _, rfl, by decide⟩
  | guard assoc body =>
    obtain ⟨c, cs, htext, hc⟩ := toString_guard assoc body rest
    refine ⟨c, cs, htext, ?_⟩
    simp only [guardHeads, List.mem_cons, List.not_mem_nil, or_false] at hc
    rcases hc with rfl | rfl | rfl | rfl | rfl <;> decide
  | indicator space newline =>
    cases newline with
    | none =>
      have hspace : space = true := by simpa using hexp
      subst hspace
      exact ⟨'+', _, rfl, by decide⟩
    | some p =>
      obtain ⟨c, cs, htext, hc⟩ := indicator_head space p rest
      refine ⟨c, cs, htext, ?_⟩
      rcases hc with hc | hc
      · simp only [List.mem_cons, List.not_mem_nil, or_false] at hc
        rcases hc with rfl | rfl | rfl <;> decide
      · exact isSpace_of_isDigit hc
  | startOfIndent n =>
    obtain ⟨c, cs, htext, hc⟩ := intToString_head n
    refine ⟨c, cs ++ '[' :: rest, by simp [htext], ?_⟩
    rcases hc with rfl | hc
    · decide
    · exact isSpace_of_isDigit hc
  | endOfIndent => exact ⟨']', _, rfl, by decide⟩
  | sequence body => exact hexp.elim

/-- The spaces between the list and what closes it. -/
theorem spaces_yields (h : Closes rest) :
    Yields (fun n => zeroOrMore n (eatChar isSpace)) (' ' :: rest) [' '] rest := by
  have hfails : Fails (fun _ => eatChar isSpace) rest := by
    rcases h with rfl | ⟨behind, rfl⟩
    · exact Fails.of_eq rfl
    · exact Fails.of_eq rfl
  exact (Items.cons (Yields.of_eq rfl) (.nil hfails)).zeroOrMore

theorem expressions_of_items (hne : exps ≠ [])
    (hexps : RepresentableAll exps) (hrest : Closes rest)
    (h : Items (fun n => skipBefore isSpace (expression n)) (' ' :: (toStringAll exps ++ rest))
      exps (' ' :: rest)) :
    Yields expressions (toStringAll exps ++ rest) exps rest := by
  have hitems := (items_of_space h hne).oneOrMore hne
  obtain ⟨exp, exps, rfl⟩ := List.exists_cons_of_ne_nil hne
  obtain ⟨c, cs, htext, hc⟩ := toString_head hexps.1 (' ' :: toStringAll exps ++ rest)
  have hhead : toStringAll (exp :: exps) ++ rest = c :: cs := by
    rw [← htext, toStringAll, List.append_assoc]
  have hseq := (yields_skipBefore hitems hhead hc).seqWith (spaces_yields hrest)
    fun exps _ => exps
  exact Converges.call hseq fun _ => rfl

theorem scan_behind_lonePlus (hexps : RepresentableAll exps)
    (h : ∀ next ∈ exps.head?, startsWithNumber next = false)
    (hrest : Closes rest) : FormatExpression.scan (toStringAll exps ++ rest) = .ok none := by
  cases exps with
  | nil => exact hrest.scan
  | cons next exps =>
    have hscan := scan_toString hexps.1 (h next rfl) (toStringAll exps ++ rest)
    rwa [toStringAll, List.append_assoc]

theorem expression_guard (assoc : Option GuardAssoc) (body : List Expression)
    (rest : List Char)
    (hbody : Yields expressions (toStringAll body ++ '}' :: ' ' :: rest) body
      ('}' :: ' ' :: rest)) :
    Yields expression (toString (.guard assoc body) ++ ' ' :: rest) (.guard assoc body)
      (' ' :: rest) := by
  have hbraces := (char_yields '{' (toStringAll body ++ '}' :: ' ' :: rest)).seqWith
    (hbody.seqWith (char_yields '}' _) Prod.mk) Prod.mk
  have hoption : Yields (fun _ => option assocIndicator)
      (toString (.guard assoc body) ++ ' ' :: rest) assoc
      ('{' :: (toStringAll body ++ '}' :: ' ' :: rest)) := by
    cases assoc with
    | none =>
      have hfails := (assocIndicator_fails (by decide : '{' ∉ ['!', 'L', 'R', 'N'])
        (toStringAll body ++ '}' :: ' ' :: rest)).option
      simpa using hfails
    | some assoc =>
      have hyields := (assocIndicator_yields assoc
        (toStringAll body ++ '}' :: ' ' :: rest)).option
      simpa using hyields
  have hguard : Yields guard (toString (.guard assoc body) ++ ' ' :: rest) (.guard assoc body)
      (' ' :: rest) := by
    have hseq := hoption.seqWith hbraces fun assocOpt (parts : Char × List Expression × Char) =>
      Expression.guard assocOpt parts.2.1
    exact Converges.call hseq fun _ => rfl
  obtain ⟨c, cs, htext, hc⟩ := toString_guard assoc body (' ' :: rest)
  have hquote : c ≠ '"' := by
    rintro rfl
    exact absurd hc (by decide)
  have hbackslash : c ≠ '\\' := by
    rintro rfl
    exact absurd hc (by decide)
  rw [htext] at hguard ⊢
  have hnewlines := Yields.or'_tail (hguard.or'_head fun _ => [startOfIndent, endOfIndent,
    indicator]) (newline_fails hbackslash cs)
  exact Converges.call (Yields.or'_tail hnewlines (stringTerm_fails hquote cs)) fun _ => rfl

mutual

theorem expression_yields {exp : Expression} (hexp : Representable exp) (hapart : Apart exp)
    (rest : List Char)
    (hplus : isLonePlus exp = true → FormatExpression.scan rest = .ok none) :
    Yields expression (toString exp ++ ' ' :: rest) exp (' ' :: rest) := by
  match exp with
  | .term len text =>
    obtain ⟨rfl, htext⟩ := hexp
    exact expression_term htext rest
  | .newline => exact expression_newline rest
  | .guard assoc body =>
    have hclosed : Closes ('}' :: ' ' :: rest) := Or.inr ⟨_, rfl⟩
    have hbody := expressions_of_items hexp.1 hexp.2 hclosed
      (expressions_items hexp.2 hapart hclosed)
    exact expression_guard assoc body rest hbody
  | .indicator true none => exact expression_lonePlus (hplus rfl)
  | .indicator false none => simp at hexp
  | .indicator space (some p) => exact expression_indicator space p rest
  | .startOfIndent n => exact expression_startOfIndent n rest
  | .endOfIndent => exact expression_endOfIndent rest
  | .sequence body => exact hexp.elim

theorem expressions_items {exps : List Expression} (hexps : RepresentableAll exps)
    (hapart : ApartAll exps) {rest : List Char} (hrest : Closes rest) :
    Items (fun n => skipBefore isSpace (expression n)) (' ' :: (toStringAll exps ++ rest)) exps
      (' ' :: rest) := by
  match exps with
  | [] => exact .nil (Converges.congr hrest.fails fun _ => rfl)
  | exp :: exps =>
    have hhead := expression_yields hexps.1 hapart.1 (toStringAll exps ++ rest)
      fun hlone => scan_behind_lonePlus hexps.2 (hapart.2.1 hlone) hrest
    obtain ⟨c, cs, htext, hc⟩ := toString_head hexps.1 (' ' :: (toStringAll exps ++ rest))
    have hskip := yields_skipBefore hhead htext hc
    have happend : toStringAll (exp :: exps) ++ rest =
        toString exp ++ ' ' :: (toStringAll exps ++ rest) := by
      rw [toStringAll, List.append_assoc]
      rfl
    rw [happend]
    exact .cons (Converges.congr hskip fun _ => rfl) (expressions_items hexps.2 hapart.2.2 hrest)

end

/-! ### What the parser returns -/

theorem representableAll_iff :
    RepresentableAll exps ↔ ∀ exp ∈ exps, Representable exp := by
  induction exps with
  | nil => simp
  | cons exp exps ih => rw [RepresentableAll, ih, List.forall_mem_cons]

/-- A backslash of its own is taken at the end of the text only. -/
theorem escapedChar_piece {piece : List Char}
    (h : escapedChar strm = .ok (some (piece, strm'))) : Piece piece ∨ strm' = [] := by
  rcases or_ok h with hescaped | hplain
  · obtain ⟨⟨backslash, c⟩, -, rfl⟩ := wrap_ok hescaped
    exact Or.inl (.escaped c)
  · obtain ⟨c, hchar, rfl⟩ := wrap_ok hplain
    match strm with
    | [] => simp at hchar
    | d :: rest =>
      have hquote : d ≠ '"' := by
        rintro rfl
        simp at hchar
      have heq : c = d ∧ strm' = rest := by
        simp only [eatChar, bne_iff_ne, ne_eq, hquote, not_false_eq_true, if_true] at hchar
        cases hchar
        exact ⟨rfl, rfl⟩
      obtain ⟨rfl, rfl⟩ := heq
      by_cases hbackslash : c = '\\'
      · subst hbackslash
        cases strm' with
        | nil => exact Or.inr rfl
        | cons e rest => nomatch h
      · exact Or.inl (.plain hquote hbackslash)

theorem stringTerm_representable {fuel : Nat}
    (h : stringTerm fuel strm = .ok (some (exp, strm'))) : Representable exp := by
  obtain ⟨quote, strm₁, ⟨pieces, quote'⟩, -, hrest, rfl⟩ := seqWith_ok h
  obtain ⟨strm₂, hpieces, hquote⟩ := seq_ok hrest
  have hescaped : ∀ piece ∈ pieces, Piece piece := by
    have hstops : ∀ strm : List Char, strm = [] → escapedChar strm = .ok none := by
      rintro strm rfl
      rfl
    have hor := zeroOrMore_ok_or hstops (fun _ _ _ => escapedChar_piece) hpieces
    apply hor.resolve_right
    rintro rfl
    nomatch hquote
  refine ⟨?_, ?_⟩
  · rw [String.length_ofList]
  · rw [String.toList_ofList]
    exact WellEscaped.of_pieces hescaped

theorem indicator_representable
    (h : indicator strm = .ok (some (exp, strm'))) : Representable exp := by
  rcases or_ok h with h | h
  · obtain ⟨spaceOpt, strm₁, p, -, -, rfl⟩ := seqWith_ok h
    exact Or.inr (Option.some_ne_none p)
  · obtain ⟨c, -, rfl⟩ := wrap_ok h
    exact Or.inl rfl

/-- Along the calls of the parser. -/
theorem parser_representable (n : Nat) :
    (∀ exp strm strm', guard n strm = .ok (some (exp, strm')) → Representable exp) ∧
      (∀ exp strm strm', expression n strm = .ok (some (exp, strm')) → Representable exp) ∧
      ∀ exps strm strm', expressions n strm = .ok (some (exps, strm')) →
        exps ≠ [] ∧ RepresentableAll exps := by
  induction n with
  | zero =>
    refine ⟨?_, ?_, ?_⟩
    · intro exp strm strm' h
      nomatch h
    · intro exp strm strm' h
      nomatch h
    · intro exps strm strm' h
      nomatch h
  | succ n ih =>
    obtain ⟨hguard, hexpression, hexpressions⟩ := ih
    refine ⟨?_, ?_, ?_⟩
    · intro exp strm strm' h
      obtain ⟨assocOpt, strm₁, ⟨brace, body, brace'⟩, -, hbraces, rfl⟩ := seqWith_ok h
      obtain ⟨strm₂, -, hclosed⟩ := seq_ok hbraces
      obtain ⟨strm₃, hbody, -⟩ := seq_ok hclosed
      exact hexpressions _ _ _ hbody
    · intro exp strm strm' h
      obtain ⟨p, hp, h⟩ := or'_ok h
      simp only [List.mem_cons, List.not_mem_nil, or_false] at hp
      rcases hp with rfl | rfl | rfl | rfl | rfl | rfl
      · exact stringTerm_representable h
      · obtain ⟨text, -, rfl⟩ := wrap_ok h
        trivial
      · exact hguard _ _ _ h
      · obtain ⟨level, -, rfl⟩ := wrap_ok h
        trivial
      · obtain ⟨c, -, rfl⟩ := wrap_ok h
        trivial
      · exact indicator_representable h
    · intro exps strm strm' h
      obtain ⟨exps₁, strm₁, spaces, hitems, -, rfl⟩ := seqWith_ok h
      obtain ⟨strm₂, hitems⟩ := skipBefore_ok hitems
      have hitem : ∀ exp strm strm',
          skipBefore isSpace (expression n) strm = .ok (some (exp, strm')) →
          Representable exp := by
        intro exp strm strm' hskip
        obtain ⟨strm₃, hskip⟩ := skipBefore_ok hskip
        exact hexpression exp strm₃ strm' hskip
      have hall := oneOrMore_ok hitem hitems
      exact ⟨hall.1, representableAll_iff.mpr hall.2⟩

/-- A list of expressions without a plus sign next to a number is parsed from its
text if and only if the text can represent it. -/
theorem parse_toString_iff {exps : List Expression} (hapart : ApartAll exps) :
    RoundTrips exps ↔ exps ≠ [] ∧ RepresentableAll exps := by
  constructor
  · rintro ⟨enough, hparse⟩
    exact (parser_representable enough).2.2 _ _ _ (hparse enough (Nat.le_refl enough))
  · rintro ⟨hne, hexps⟩
    have hclosed : Closes [] := Or.inl rfl
    have hyields := expressions_of_items hne hexps hclosed (expressions_items hexps hapart hclosed)
    rwa [List.append_nil] at hyields

/-- A guard with a negative priority and a break in it, and an indentation. -/
theorem parse_toString_iff_guard :
    RoundTrips [.guard (some ⟨true, -1, .left⟩) [.term 1 "a", .indicator true none],
      .startOfIndent (-2)] := by
  apply (parse_toString_iff _).mpr
  · refine ⟨List.cons_ne_nil _ _, ⟨List.cons_ne_nil _ _, ⟨rfl, ?_⟩, Or.inl rfl, trivial⟩,
      trivial, trivial⟩
    exact .plain (by decide) (by decide) .nil
  · simp [ApartAll, Apart, isLonePlus]

/-- The text of a term does not have its columns. -/
theorem term_columns_lost : ¬ ∀ exps, RoundTrips exps := by
  intro h
  obtain ⟨enough, hparse⟩ := h [.term 5 "ab"]
  have hresult := (parser_representable enough).2.2 _ _ _ (hparse enough (Nat.le_refl enough))
  exact absurd hresult.2.1.1 (by decide)

end FormatExpression

end SmlSharp
