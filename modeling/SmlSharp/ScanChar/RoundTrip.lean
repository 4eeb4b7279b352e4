/-
`String.toString` and `String.toCString`, and back again with `String.fromString` and
`String.fromCString`.
-/
import SmlSharp.ScanChar.Strings

namespace SmlSharp

namespace ScanChar

/-- The loop of `escapeChar`, which fills the buffer from its end. -/
def escapeLoop (radix : UInt8) : Nat → UInt8 → List UInt8 → List UInt8
  | 0, _, buf => buf
  | i + 1, n, buf =>
    if n ≤ 0 then escapeLoop radix i n (chr '0' :: buf)
    else escapeLoop radix i (n / radix) ((n % radix + 0x30) :: buf)

def escapeChar (radix ch : UInt8) : List UInt8 :=
  chr '\\' :: escapeLoop radix 3 ch []

def escapeControl (n : UInt8) : List UInt8 := [chr '\\', chr '^', n + 64]

/-- `Char.toString`. -/
def charToString (c : UInt8) : List UInt8 :=
  match Char.ofUInt8 c with
  | '\\' => [chr '\\', chr '\\']
  | '"' => [chr '\\', chr '"']
  | '\x07' => [chr '\\', chr 'a']
  | '\x08' => [chr '\\', chr 'b']
  | '\x09' => [chr '\\', chr 't']
  | '\x0a' => [chr '\\', chr 'n']
  | '\x0b' => [chr '\\', chr 'v']
  | '\x0c' => [chr '\\', chr 'f']
  | '\x0d' => [chr '\\', chr 'r']
  | _ => if c < 32 then escapeControl c else if 127 ≤ c then escapeChar 10 c else [c]

/-- `Char.toCString`. -/
def charToCString (c : UInt8) : List UInt8 :=
  match Char.ofUInt8 c with
  | '\\' => [chr '\\', chr '\\']
  | '"' => [chr '\\', chr '"']
  | '?' => [chr '\\', chr '?']
  | '\'' => [chr '\\', chr '\'']
  | '\x07' => [chr '\\', chr 'a']
  | '\x08' => [chr '\\', chr 'b']
  | '\x09' => [chr '\\', chr 't']
  | '\x0a' => [chr '\\', chr 'n']
  | '\x0b' => [chr '\\', chr 'v']
  | '\x0c' => [chr '\\', chr 'f']
  | '\x0d' => [chr '\\', chr 'r']
  | _ => if c < 32 ∨ 127 ≤ c then escapeChar 8 c else [c]

/-- A string has a size that fits in the header of its object. -/
abbrev Str := { bytes : List UInt8 // bytes.length ≤ maxSize }

section Translate

variable (transFn : UInt8 → List UInt8)

/-- The loop `init` of `translate`.  The sum of the sizes is a 32-bit integer. -/
def translateInit : List UInt8 → Nat → List (List UInt8) → Except Stop (Nat × List (List UInt8))
  | [], totalSize, buf => .ok (totalSize, buf)
  | c :: vec, totalSize, buf =>
    let x := transFn c
    if totalSize + x.length < 2 ^ 31 then translateInit vec (totalSize + x.length) (x :: buf)
    else .error .size

/-- The loop `concat` of `translate`, which fills the new string from its end. -/
def translateConcat : List (List UInt8) → List UInt8 → List UInt8
  | [], dst => dst
  | h :: t, dst => translateConcat t (h ++ dst)

/-- `Substring.translate` on a whole string.  `Seq.alloc` checks the size. -/
def translate (vec : List UInt8) : Except Stop (List UInt8) := do
  let (totalSize, buf) ← translateInit transFn vec 0 []
  if totalSize ≤ maxSize then return translateConcat buf []
  else .error .size

end Translate

/-- `String.toString`. -/
def toString (s : Str) : Except Stop (List UInt8) := translate charToString s.1

/-- `String.toCString`. -/
def toCString (s : Str) : Except Stop (List UInt8) := translate charToCString s.1

/-! Translations. -/

variable {transFn : UInt8 → List UInt8}

theorem translateConcat_eq (buf : List (List UInt8)) (dst : List UInt8) :
    translateConcat buf dst = buf.reverse.flatten ++ dst := by
  induction buf generalizing dst with
  | nil => rfl
  | cons h t ih => rw [translateConcat, ih, List.reverse_cons, List.flatten_append]; simp

theorem translateInit_eq (vec : List UInt8) (n : Nat) (buf : List (List UInt8))
    (hn : n < 2 ^ 31) : translateInit transFn vec n buf =
      if n + (vec.flatMap transFn).length < 2 ^ 31 then
        .ok (n + (vec.flatMap transFn).length, (vec.map transFn).reverse ++ buf)
      else .error .size := by
  induction vec generalizing n buf with
  | nil =>
    rw [translateInit, List.flatMap_nil, List.length_nil, Nat.add_zero, if_pos hn]
    rfl
  | cons c vec ih =>
    rw [translateInit]
    by_cases hfits : n + (transFn c).length < 2 ^ 31
    · simp only [if_pos hfits, ih _ _ hfits, List.flatMap_cons, List.length_append,
        Nat.add_assoc, List.map_cons, List.reverse_cons, List.append_assoc, List.cons_append,
        List.nil_append]
    · rw [if_neg hfits, if_neg]
      rw [List.flatMap_cons, List.length_append]
      omega

/-- A translation concatenates the texts of the characters, or it raises `Size`. -/
theorem translate_eq (vec : List UInt8) : translate transFn vec =
    if (vec.flatMap transFn).length ≤ maxSize then .ok (vec.flatMap transFn)
    else .error .size := by
  rw [translate, translateInit_eq vec 0 [] (by decide), Nat.zero_add]
  by_cases hle : (vec.flatMap transFn).length ≤ maxSize
  · have hlt : (vec.flatMap transFn).length < 2 ^ 31 := by
      rw [maxSize] at hle
      omega
    rw [if_pos hlt, if_pos hle]
    change (if (vec.flatMap transFn).length ≤ maxSize then _ else _) = _
    rw [if_pos hle, translateConcat_eq]
    simp [List.flatMap_def, pure, Except.pure]
  · rw [if_neg hle]
    split
    · change (if (vec.flatMap transFn).length ≤ maxSize then _ else _) = _
      rw [if_neg hle]
    · rfl

/-! The text of a character is an item of the grammar. -/

/-- A test for the texts of SML that the characters are written with. -/
def isSmlText (c : UInt8) : List UInt8 → Bool
  | [a] => a = c ∧ 32 ≤ c ∧ c ≤ 126 ∧ c ≠ chr '\\'
  | [b, l] => b = chr '\\' ∧ (l, c) ∈ letters
  | [b, k, d] => b = chr '\\' ∧ k = chr '^' ∧ controlChar d = some c
  | b :: digits => b = chr '\\' ∧ digits.length = 3 ∧
      (number 10 digits).bind charOf = some c
  | [] => false

theorem smlEscape_of_isSmlText {c : UInt8} {w : List UInt8} (h : isSmlText c w = true) :
    SmlEscape w (some c) := by
  have hnumber : ∀ {digits : List UInt8}, digits.length = 3 →
      (number 10 digits).bind charOf = some c → SmlEscape (chr '\\' :: digits) (some c) := by
    intro digits hlen hbind
    obtain ⟨n, hn, hc⟩ := Option.bind_eq_some_iff.mp hbind
    exact hc ▸ .decimal hlen hn
  unfold isSmlText at h
  split at h
  · simp only [decide_eq_true_eq] at h
    obtain ⟨rfl, hlow, hhigh, hne⟩ := h
    exact .printable ⟨hlow, hhigh⟩ hne
  · simp only [decide_eq_true_eq] at h
    obtain ⟨rfl, hletter⟩ := h
    exact .letter hletter
  · simp only [decide_eq_true_eq] at h
    obtain ⟨rfl, rfl, hc⟩ := h
    exact hc ▸ .control _
  · simp only [decide_eq_true_eq] at h
    obtain ⟨rfl, hlen, hbind⟩ := h
    exact hnumber hlen hbind
  · cases h

theorem charToString_escape (c : UInt8) : SmlEscape (charToString c) (some c) := by
  apply smlEscape_of_isSmlText
  revert c
  exact forall_char (by decide +kernel)

/-- A test for the texts of C; an octal escape has all three digits. -/
def isCText (c : UInt8) : List UInt8 → Bool
  | [a] => a = c ∧ 32 ≤ c ∧ c ≤ 126 ∧ c ≠ chr '\\'
  | [b, l] => b = chr '\\' ∧ (l, c) ∈ cLetters
  | [b, d1, d2, d3] => b = chr '\\' ∧ (digit 8 d1).isSome ∧
      (number 8 [d1, d2, d3]).bind charOf = some c
  | _ => false

theorem charToCString_isCText (c : UInt8) : isCText c (charToCString c) = true := by
  revert c
  exact forall_char (by decide +kernel)

section Read

variable {σ : Type} {getc : Reader UInt8 σ} {s t : σ} {fuel : Nat} {c : UInt8}

theorem scanChar_toString (h : Reads getc s (charToString c) t) :
    scanChar getc (fuel + 1) s = .ok (some (c, t)) := by
  rcases scanChar_escape (charToString_escape c) h with ⟨hscan, -⟩ | ⟨-, -, -, hnone, -⟩
  · exact hscan
  · cases hnone

theorem scanCOct_three {s1 s2 : σ} {d1 d2 d3 : UInt8} {n : Nat}
    (hs : getc s = some (d1, s1)) (hs1 : getc s1 = some (d2, s2))
    (hs2 : getc s2 = some (d3, t)) (h : number 8 [d1, d2, d3] = some n) :
    scanCOct getc s = some (fromInt32 n, t) := by
  obtain ⟨a1, h1, h⟩ := numberFrom_eq_some_cons.mp h
  obtain ⟨a2, h2, h⟩ := numberFrom_eq_some_cons.mp h
  obtain ⟨a3, h3, h⟩ := numberFrom_eq_some_cons.mp h
  rw [numberFrom, Option.some.injEq] at h
  have hscan1 := scanOctDigit_eq_some.mpr ⟨d1, a1, hs, h1, rfl⟩
  have hscan2 := scanOctDigit_eq_some.mpr ⟨d2, a2, hs1, h2, rfl⟩
  have hscan3 := scanOctDigit_eq_some.mpr ⟨d3, a3, hs2, h3, rfl⟩
  have hvalue : ((a1 : Int) * 8 + a2) * 8 + a3 = n := by omega
  simp only [scanCOct, hscan1, hscan2, hscan3, hvalue]

theorem scanCChar_of_isCText {w : List UInt8} (hw : isCText c w = true)
    (h : Reads getc s w t) : scanCChar getc fuel s = .ok (some (c, t)) := by
  unfold isCText at hw
  split at hw
  · simp only [decide_eq_true_eq] at hw
    obtain ⟨rfl, hlow, hhigh, hne⟩ := hw
    obtain ⟨u, hs, hnil⟩ := Reads.cons_iff.mp h
    rw [Reads.nil_iff.mp hnil] at hs
    rw [scanCChar, hs]
    simp [hne, hlow, hhigh]
  · simp only [decide_eq_true_eq] at hw
    obtain ⟨rfl, hletter⟩ := hw
    obtain ⟨s1, hs, h⟩ := Reads.cons_iff.mp h
    obtain ⟨u, hs1, hnil⟩ := Reads.cons_iff.mp h
    rw [Reads.nil_iff.mp hnil] at hs1
    rw [scanCChar_backslash hs, scanEscapeSequence_letter hs1 (cLetters_plain _ hletter).1]
    rcases List.mem_append.mp hletter with hmem | hmem
    · rw [escapeLetter_iff.mpr hmem]
      rfl
    · simp only [List.mem_cons, Prod.mk.injEq, List.not_mem_nil, or_false] at hmem
      rcases hmem with ⟨rfl, rfl⟩ | ⟨rfl, rfl⟩
      · have hplain : escapeLetter (chr '?') = none := by decide
        simp [hplain, hs1]
      · have hplain : escapeLetter (chr '\'') = none := by decide
        have hne : chr '\'' ≠ chr '?' := by decide
        simp [hplain, hs1, hne]
  · simp only [decide_eq_true_eq] at hw
    obtain ⟨rfl, hdigit, hbind⟩ := hw
    obtain ⟨d, hd⟩ := Option.isSome_iff_exists.mp hdigit
    obtain ⟨n, hn, hc⟩ := Option.bind_eq_some_iff.mp hbind
    obtain ⟨s1, hs, h⟩ := Reads.cons_iff.mp h
    obtain ⟨s2, hs1, h⟩ := Reads.cons_iff.mp h
    obtain ⟨s3, hs2, h⟩ := Reads.cons_iff.mp h
    obtain ⟨u, hs3, hnil⟩ := Reads.cons_iff.mp h
    rw [Reads.nil_iff.mp hnil] at hs3
    obtain ⟨hcaret, hx, hquestion, hquote, hplain⟩ := octDigit_plain hd
    rw [scanCChar_backslash hs, scanEscapeSequence_letter hs1 hcaret, hplain]
    simp only [Option.map_none, hs1, if_neg hquestion, if_neg hquote, if_neg hx,
      scanCOct_three hs1 hs2 hs3 hn]
    rw [charOf] at hc
    split at hc
    · rename_i hle
      rw [fromInt32_of_le hle, ← Option.some.inj hc]
    · cases hc
  · cases hw

theorem scanCChar_toCString (h : Reads getc s (charToCString c) t) :
    scanCChar getc fuel s = .ok (some (c, t)) :=
  scanCChar_of_isCText (charToCString_isCText c) h

/-- The characters of a text are decoded one after the other. -/
theorem decodes_of_reads {scan : Nat → σ → Except Stop (Option (UInt8 × σ))}
    {transFn : UInt8 → List UInt8} {u : σ} (cs : List UInt8)
    (hscan : ∀ fuel s t c, Reads getc s (transFn c) t → scan (fuel + 1) s = .ok (some (c, t)))
    (hend : ∀ fuel, scan (fuel + 1) u = .ok none)
    (h : Reads getc s (cs.flatMap transFn) u) : Decodes scan s cs u := by
  have hfuel : ∀ {f : Nat → Except Stop (Option (UInt8 × σ))} {r},
      (∀ fuel, f (fuel + 1) = .ok r) → ∀ fuel, 1 ≤ fuel → f fuel = .ok r := by
    intro f r hf fuel hle
    obtain ⟨n, rfl⟩ := Nat.exists_eq_add_of_le' hle
    exact hf n
  induction cs generalizing s with
  | nil =>
    cases h
    exact .nil (hfuel hend)
  | cons c cs ih =>
    rw [List.flatMap_cons] at h
    obtain ⟨t, hc, hrest⟩ := Reads.append_iff.mp h
    exact .cons (hfuel fun fuel => hscan fuel s t c hc) (ih hrest)

end Read

section Strings

variable {σ : Type} {getc : Reader UInt8 σ} {s u : σ} {c : UInt8} {cs : List UInt8}

theorem scan_of_reads (hlen : (c :: cs).length ≤ maxSize)
    (hread : Reads getc s ((c :: cs).flatMap charToString) u) (hend : getc u = none) :
    ∃ k, ∀ fuel, k ≤ fuel → scan getc fuel s = .ok (some (c :: cs, u)) := by
  have hdecodes : Decodes (scanChar getc) s (c :: cs) u :=
    decodes_of_reads (c :: cs) (fun fuel s t c h => scanChar_toString h)
      (fun fuel => by rw [scanChar, hend]) hread
  rw [List.flatMap_cons] at hread
  obtain ⟨t, hc, -⟩ := Reads.append_iff.mp hread
  have hescape := charToString_escape c
  have hnone : ∀ g u, Gap g → ¬ Reads getc s g u := by
    intro g u hg hg'
    obtain ⟨z, z', heq⟩ := hg'.joinable hc
    exact hg.ne_escape hescape heq
  have hfirst : ∃ p, getc s = some p := by
    rcases hfirst : getc s with _ | p
    · have hstop := (scanChar_toString hc : scanChar getc 1 s = _)
      rw [scanChar, hfirst] at hstop
      cases hstop
    · exact ⟨p, rfl⟩
  obtain ⟨p, hp⟩ := hfirst
  obtain ⟨k, hk⟩ := scan_run hp (.inr ⟨hnone, rfl⟩) (hescape.backslashEnds hc) hdecodes
  refine ⟨k, fun fuel hfuel => ?_⟩
  obtain ⟨gap, -, -, hrun⟩ := hk fuel hfuel
  rw [hrun, finish_cons hlen]

theorem scanC_of_reads (hlen : (c :: cs).length ≤ maxSize)
    (hread : Reads getc s ((c :: cs).flatMap charToCString) u) (hend : getc u = none) :
    ∃ k, ∀ fuel, k ≤ fuel → scanC getc fuel s = .ok (some (c :: cs, u)) := by
  have hdecodes : Decodes (scanCChar getc) s (c :: cs) u :=
    decodes_of_reads (c :: cs) (fun fuel s t c h => scanCChar_toCString h)
      (fun fuel => by rw [scanCChar, hend]) hread
  obtain ⟨k, hk⟩ := hdecodes.run
  refine ⟨max k (c :: cs).length, fun fuel hfuel => ?_⟩
  rw [scanC, scanRepeat1_eq, hk fuel (fuel + 1) (by omega) (by omega)]
  exact implodeFirst_of_le (p := (c :: cs, u)) hlen

end Strings

/-- A string is read from its start to its end. -/
theorem stringReader_reads (front back : List UInt8) :
    Reads (stringReader (front ++ back)) front.length back (front ++ back).length := by
  induction back generalizing front with
  | nil =>
    rw [List.append_nil]
    exact .nil _
  | cons c back ih =>
    have hrest := ih (front ++ [c])
    rw [List.append_assoc, List.length_append] at hrest
    refine .cons ?_ hrest
    rw [stringReader, List.getElem?_append_right (Nat.le_refl _), Nat.sub_self]
    rfl

theorem stringReader_end (text : List UInt8) : stringReader text text.length = none := by
  rw [stringReader, List.getElem?_eq_none (Nat.le_refl _)]
  rfl

theorem reads_whole (text : List UInt8) : Reads (stringReader text) 0 text text.length :=
  stringReader_reads [] text

theorem fromString_toString {bytes : List UInt8} (hlen : bytes.length ≤ maxSize) :
    ∃ k, ∀ fuel, k ≤ fuel →
      fromString fuel (bytes.flatMap charToString) = .ok (some bytes) := by
  cases bytes with
  | nil => exact ⟨0, fun fuel _ => rfl⟩
  | cons c cs =>
    obtain ⟨k, hk⟩ := scan_of_reads hlen (reads_whole _) (stringReader_end _)
    refine ⟨k, fun fuel hfuel => ?_⟩
    rw [fromString, scanString, hk fuel hfuel]
    rfl

theorem charToCString_ne_nil (c : UInt8) : charToCString c ≠ [] := by
  have htext := charToCString_isCText c
  intro hnil
  rw [hnil] at htext
  cases htext

theorem fromCString_toCString {bytes : List UInt8} (hlen : bytes.length ≤ maxSize) :
    ∃ k, ∀ fuel, k ≤ fuel →
      fromCString fuel (bytes.flatMap charToCString) = .ok (some bytes) := by
  cases bytes with
  | nil => exact ⟨0, fun fuel _ => rfl⟩
  | cons c cs =>
    obtain ⟨k, hk⟩ := scanC_of_reads hlen (reads_whole _) (stringReader_end _)
    refine ⟨k, fun fuel hfuel => ?_⟩
    have hne : (c :: cs).flatMap charToCString ≠ [] := by
      rw [List.flatMap_cons]
      exact List.append_ne_nil_of_left_ne_nil (charToCString_ne_nil c) _
    have hstring : ∀ text, text ≠ [] → fromCString fuel text =
        scanString (fun getc => scanC getc fuel) text := by
      intro text htext
      cases text with
      | nil => exact absurd rfl htext
      | cons c text => rfl
    rw [hstring _ hne, scanString, hk fuel hfuel]
    rfl

/-- A string is written and read back, or it is too long to be written. -/
theorem string_round_trips (s : Str) :
    ((∃ text, toString s = .ok text ∧
        ∃ k, ∀ fuel, k ≤ fuel → fromString fuel text = .ok (some s.1)) ∨
      (toString s = .error .size ∧ maxSize < (s.1.flatMap charToString).length)) ∧
    ((∃ text, toCString s = .ok text ∧
        ∃ k, ∀ fuel, k ≤ fuel → fromCString fuel text = .ok (some s.1)) ∨
      (toCString s = .error .size ∧ maxSize < (s.1.flatMap charToCString).length)) := by
  rw [toString, toCString, translate_eq, translate_eq]
  constructor
  · by_cases hle : (s.1.flatMap charToString).length ≤ maxSize
    · exact .inl ⟨_, if_pos hle, fromString_toString s.2⟩
    · exact .inr ⟨if_neg hle, by omega⟩
  · by_cases hle : (s.1.flatMap charToCString).length ≤ maxSize
    · exact .inl ⟨_, if_pos hle, fromCString_toCString s.2⟩
    · exact .inr ⟨if_neg hle, by omega⟩

/-- A string of `2 ^ 27` line feeds is too long to be written with escapes. -/
theorem toString_line_feeds : ∃ s : Str, s.1.length = 2 ^ 27 ∧
    ¬ ∃ text fuel, toString s = .ok text ∧ fromString fuel text = .ok (some s.1) := by
  refine ⟨⟨List.replicate (2 ^ 27) 10, ?_⟩, List.length_replicate, ?_⟩
  · rw [List.length_replicate, maxSize]
    omega
  · rintro ⟨text, fuel, htext, -⟩
    have hline : (charToString 10).length = 2 := by decide
    rw [toString, translate_eq, if_neg] at htext
    · cases htext
    · rw [List.length_flatMap, List.map_replicate, List.sum_replicate_nat, hline,
        maxSize]
      omega

end ScanChar

end SmlSharp
