/-
`scanChar` against the grammar of SML.
-/
import SmlSharp.ScanChar.Digits

namespace SmlSharp

namespace ScanChar

/-! The texts of the grammar are not beginnings of each other. -/

/-- The length of an escape sequence, which its first two characters give away. -/
def escapeLength : List UInt8 → Nat
  | [] => 0
  | c :: rest =>
    if c ≠ chr '\\' then 1
    else
      match rest with
      | [] => 0
      | d :: _ =>
        if d = chr '^' then 3 else if d = chr 'u' then 6
        else if (digit 10 d).isSome then 4 else 2

theorem letters_plain : ∀ p ∈ letters,
    p.1 ≠ chr '^' ∧ p.1 ≠ chr 'u' ∧ digit 10 p.1 = none ∧ p.1 ∉ formatting :=
  forall_mem_of_all rfl

theorem digit_plain {c : UInt8} {d : Nat} (h : digit 10 c = some d) :
    c ≠ chr '^' ∧ c ≠ chr 'u' ∧ c ∉ formatting ∧ escapeLetter c = none := by
  have hall : ∀ c, (digit 10 c).isSome = true →
      c ≠ chr '^' ∧ c ≠ chr 'u' ∧ c ∉ formatting ∧ escapeLetter c = none :=
    forall_char (by decide +kernel)
  exact hall c (by rw [h]; rfl)

/-- A number with digits begins with a digit. -/
theorem number_cons {radix n : Nat} {digits : List UInt8} (hlen : 0 < digits.length)
    (h : number radix digits = some n) :
    ∃ c d rest, digits = c :: rest ∧ digit radix c = some d := by
  cases digits with
  | nil => simp at hlen
  | cons c rest =>
    obtain ⟨d, hd, -⟩ := numberFrom_eq_some_cons.mp h
    exact ⟨c, d, rest, rfl, hd⟩

theorem SmlEscape.length_eq {e z : List UInt8} {v : Option UInt8} (h : SmlEscape e v) :
    escapeLength (e ++ z) = e.length := by
  cases h with
  | printable hprint hne => simp [escapeLength, hne]
  | letter hletter =>
    obtain ⟨hcaret, hu, hdigit, -⟩ := letters_plain _ hletter
    simp at hcaret hu hdigit
    simp [escapeLength, hcaret, hu, hdigit]
  | control c => simp [escapeLength]
  | decimal hlen hnumber =>
    obtain ⟨c, d, rest, rfl, hd⟩ := number_cons (by omega) hnumber
    obtain ⟨hcaret, hu, -, -⟩ := digit_plain hd
    simp only [List.length_cons] at hlen
    simp [escapeLength, hcaret, hu, hd]
    omega
  | unicode hlen hnumber =>
    have hu : chr 'u' ≠ chr '^' := by decide
    simp [escapeLength, hu, hlen]

theorem letters_unique : ∀ p ∈ letters, ∀ q ∈ letters, p.1 = q.1 → p.2 = q.2 := by
  have hall : ∀ p ∈ letters, letters.all (fun q => decide (p.1 = q.1 → p.2 = q.2)) = true :=
    forall_mem_of_all rfl
  exact fun p hp => forall_mem_of_all (hall p hp)

/-- The text of an escape sequence tells which character it denotes. -/
theorem SmlEscape.value_unique {e : List UInt8} {v v' : Option UInt8} (h : SmlEscape e v)
    (h' : SmlEscape e v') : v = v' := by
  cases h with
  | printable hprint hne =>
    cases h' with
    | printable => rfl
    | decimal hlen => simp at hlen
  | letter hletter =>
    cases h' with
    | letter hletter' => exact congrArg some (letters_unique _ hletter _ hletter' rfl)
    | decimal hlen => simp at hlen
    | unicode hlen => simp at hlen
  | control c =>
    cases h' with
    | control => rfl
    | decimal hlen => simp at hlen
  | decimal hlen hnumber =>
    cases h' with
    | decimal hlen' hnumber' =>
      exact congrArg charOf (Option.some.inj (hnumber.symm.trans hnumber'))
    | _ => simp_all
  | unicode hlen hnumber =>
    cases h' with
    | unicode hlen' hnumber' =>
      exact congrArg charOf (Option.some.inj (hnumber.symm.trans hnumber'))
    | _ => simp_all

/-- Two escape sequences at the beginning of a text are the same. -/
theorem SmlEscape.text_unique {e e' z z' : List UInt8} {v v' : Option UInt8}
    (h : SmlEscape e v) (h' : SmlEscape e' v') (heq : e ++ z = e' ++ z') :
    e = e' ∧ z = z' := by
  apply List.append_inj heq
  rw [← h.length_eq (z := z), heq, h'.length_eq]

theorem not_formatting_backslash : chr '\\' ∉ formatting := by decide

/-- The formatting characters of a gap end at its second backslash. -/
theorem Gap.text_unique {g g' z z' : List UInt8} (h : Gap g) (h' : Gap g')
    (heq : g ++ z = g' ++ z') : g = g' ∧ z = z' := by
  obtain ⟨spaces, -, hall, rfl⟩ := h
  obtain ⟨spaces', -, hall', rfl⟩ := h'
  have hspan : ∀ {spaces z : List UInt8}, (∀ c ∈ spaces, c ∈ formatting) →
      (spaces ++ (chr '\\' :: z)).takeWhile (· ∈ formatting) = spaces := by
    intro spaces z hall
    rw [List.takeWhile_append_of_pos (by simpa using hall),
      List.takeWhile_cons_of_neg (by simpa using not_formatting_backslash), List.append_nil]
  have htail : spaces ++ (chr '\\' :: z) = spaces' ++ (chr '\\' :: z') := by
    simpa using heq
  have hspaces : spaces = spaces' := by
    rw [← hspan (z := z) hall, htail, hspan hall']
  subst hspaces
  exact ⟨rfl, by simpa using htail⟩

theorem Gap.ne_escape {g e z z' : List UInt8} {v : Option UInt8} (h : Gap g)
    (h' : SmlEscape e v) : g ++ z ≠ e ++ z' := by
  obtain ⟨spaces, hne, hall, rfl⟩ := h
  cases spaces with
  | nil => exact absurd rfl hne
  | cons c spaces =>
    have hc : c ∈ formatting := hall c (by simp)
    intro heq
    cases h' with
    | printable hprint hne' =>
      simp at heq
      exact hne' heq.1.symm
    | letter hletter =>
      simp at heq
      exact (letters_plain _ hletter).2.2.2 (heq.1 ▸ hc)
    | control c' =>
      simp at heq
      exact absurd (heq.1 ▸ hc) (by decide)
    | decimal hlen hnumber =>
      obtain ⟨c', d, rest, rfl, hd⟩ := number_cons (by omega) hnumber
      simp at heq
      exact (digit_plain hd).2.2.1 (heq.1 ▸ hc)
    | unicode hlen hnumber =>
      simp at heq
      exact absurd (heq.1 ▸ hc) (by decide)

theorem Gaps.text_unique {g g' e e' z z' : List UInt8} {v v' : Option UInt8} (h : Gaps g)
    (h' : Gaps g') (he : SmlEscape e v) (he' : SmlEscape e' v')
    (heq : g ++ (e ++ z) = g' ++ (e' ++ z')) : g = g' ∧ e = e' ∧ z = z' := by
  induction h generalizing g' with
  | nil =>
    cases h' with
    | nil => exact ⟨rfl, he.text_unique he' heq⟩
    | cons head tail =>
      rw [List.append_assoc, List.nil_append] at heq
      exact absurd heq.symm (head.ne_escape he)
  | cons head tail ih =>
    cases h' with
    | nil =>
      rw [List.append_assoc, List.nil_append] at heq
      exact absurd heq (head.ne_escape he')
    | cons head' tail' =>
      rw [List.append_assoc, List.append_assoc] at heq
      obtain ⟨rfl, hrest⟩ := head.text_unique head' heq
      obtain ⟨rfl, hends⟩ := ih tail' hrest
      exact ⟨rfl, hends⟩

/-- Two items at a position are the same. -/
theorem SmlItem.unique {σ : Type} {getc : Reader UInt8 σ} {s t t' : σ} {w w' : List UInt8}
    {v v' : Option UInt8} (h : SmlItem w v) (h' : SmlItem w' v') (hread : Reads getc s w t)
    (hread' : Reads getc s w' t') : w = w' ∧ v = v' ∧ t = t' := by
  have key : ∀ {w w' : List UInt8} {v v' : Option UInt8} {z z' : List UInt8}, SmlItem w v →
      SmlItem w' v' → w ++ z = w' ++ z' → w = w' ∧ v = v' := by
    rintro w w' v v' z z' ⟨g, e, hg, he, rfl⟩ ⟨g', e', hg', he', rfl⟩ heq
    rw [List.append_assoc, List.append_assoc] at heq
    obtain ⟨rfl, rfl, -⟩ := hg.text_unique hg' he he' heq
    exact ⟨rfl, he.value_unique he'⟩
  obtain ⟨rfl, rfl⟩ : w = w' ∧ v = v' := by
    obtain ⟨z, z', heq⟩ := hread.joinable hread'
    exact key h h' heq
  exact ⟨rfl, rfl, hread.unique hread'⟩

/-- An item at a position is what a scanner has to return there. -/
theorem SmlItem.scans_iff {σ : Type} {getc : Reader UInt8 σ} {s t : σ} {w : List UInt8}
    {v : Option UInt8} {r : Option (UInt8 × σ)} (h : SmlItem w v) (hread : Reads getc s w t) :
    Scans SmlItem getc s r ↔ r = v.map (·, t) := by
  have hlongest : Longest getc (fun w => ∃ v, SmlItem w v) s w t :=
    ⟨hread, ⟨v, h⟩, fun w' t' hread' ⟨v', h'⟩ =>
      Nat.le_of_eq (congrArg List.length (h'.unique h hread' hread).1)⟩
  constructor
  · rintro (⟨w', t', v', hlongest', h', rfl⟩ | ⟨hnone, -⟩)
    · obtain ⟨-, rfl, rfl⟩ := h.unique h' hread hlongest'.reads
      rfl
    · exact absurd hlongest (hnone w t)
  · rintro rfl
    exact .inl ⟨w, t, v, hlongest, h, rfl⟩

/-- Without an item a scanner has to return nothing. -/
theorem scans_none_iff {σ : Type} {item : List UInt8 → Option UInt8 → Prop}
    {getc : Reader UInt8 σ} {s : σ} {r : Option (UInt8 × σ)}
    (hnone : ∀ w v t, item w v → ¬ Reads getc s w t) : Scans item getc s r ↔ r = none := by
  constructor
  · rintro (⟨w, t, v, hlongest, h, -⟩ | ⟨-, hr⟩)
    · exact absurd hlongest.reads (hnone w v t h)
    · exact hr
  · rintro rfl
    exact .inr ⟨fun w t hlongest => hlongest.isKind.elim fun v h => hnone w v t h hlongest.reads,
      rfl⟩

section Scan

variable {σ : Type} {getc : Reader UInt8 σ} {s t : σ} {fuel : Nat}

/-! Gaps. -/

theorem skipSpaces_ok (h : skipSpaces getc fuel s = .ok t) :
    SpacesEnd getc s ∧ ∃ spaces, (∀ c ∈ spaces, c ∈ formatting) ∧ Reads getc s spaces t ∧
      ∀ c u, getc t = some (c, u) → c ∉ formatting := by
  induction fuel generalizing s with
  | zero => cases h
  | succ fuel ih =>
    rw [skipSpaces] at h
    split at h
    · rename_i hs
      cases h
      exact ⟨.stop (by simp [hs]), [], by simp, .nil _, by simp [hs]⟩
    · rename_i c s' hs
      split at h
      · rename_i hc
        have hspace := (isSpace_iff c).mp hc
        obtain ⟨hend, spaces, hall, hread, hstop⟩ := ih h
        exact ⟨.skip hs hspace hend, c :: spaces, by simpa [hspace] using hall,
          .cons hs hread, hstop⟩
      · rename_i hc
        have hspace : c ∉ formatting := fun hmem => hc ((isSpace_iff c).mpr hmem)
        cases h
        refine ⟨.stop ?_, [], by simp, .nil _, ?_⟩ <;> simp_all

theorem skipSpaces_returns (h : SpacesEnd getc s) :
    ∃ n, ∀ fuel, n ≤ fuel → ∃ t, skipSpaces getc fuel s = .ok t := by
  induction h with
  | @stop s hstop =>
    refine ⟨1, fun fuel hfuel => ⟨s, ?_⟩⟩
    obtain ⟨fuel, rfl⟩ := Nat.exists_eq_add_of_le' hfuel
    rw [skipSpaces]
    split
    · rfl
    · rename_i c s' hs
      rw [if_neg fun hc => hstop c s' hs ((isSpace_iff c).mp hc)]
  | @skip s s' c hread hspace hend ih =>
    obtain ⟨n, hn⟩ := ih
    refine ⟨n + 1, fun fuel hfuel => ?_⟩
    obtain ⟨fuel, rfl⟩ := Nat.exists_eq_add_of_le' (show 1 ≤ fuel by omega)
    obtain ⟨t, ht⟩ := hn fuel (by omega)
    refine ⟨t, ?_⟩
    rw [skipSpaces, hread]
    simp only [(isSpace_iff c).mpr hspace]
    exact ht

/-- What is behind a backslash ends as far as it is formatting. -/
def BackslashEnds (getc : Reader UInt8 σ) (s : σ) : Prop :=
  ∀ t, getc s = some (chr '\\', t) → SpacesEnd getc t

/-- The formatting characters of a gap are all that can be read. -/
theorem spaces_unique {m : σ} {spaces spaces' : List UInt8} (h : Reads getc s spaces m)
    (hall : ∀ c ∈ spaces, c ∈ formatting)
    (hstop : ∀ c u, getc m = some (c, u) → c ∉ formatting)
    (h' : Reads getc s (spaces' ++ [chr '\\']) t) (hall' : ∀ c ∈ spaces', c ∈ formatting) :
    spaces = spaces' ∧ getc m = some (chr '\\', t) := by
  induction h generalizing spaces' with
  | nil s =>
    cases spaces' with
    | nil =>
      obtain ⟨u, hu, hrest⟩ := Reads.cons_iff.mp h'
      rw [Reads.nil_iff.mp hrest] at hu
      exact ⟨rfl, hu⟩
    | cons c spaces' =>
      obtain ⟨u, hu, -⟩ := Reads.cons_iff.mp h'
      exact absurd (hall' c (by simp)) (hstop c u hu)
  | cons head tail ih =>
    cases spaces' with
    | nil =>
      obtain ⟨u, hu, -⟩ := Reads.cons_iff.mp h'
      cases head.symm.trans hu
      exact absurd (hall _ (by simp)) not_formatting_backslash
    | cons c spaces' =>
      obtain ⟨u, hu, hrest⟩ := Reads.cons_iff.mp h'
      cases head.symm.trans hu
      obtain ⟨rfl, hm⟩ := ih (fun c hc => hall c (by simp [hc])) hstop hrest
        fun c hc => hall' c (by simp [hc])
      exact ⟨rfl, hm⟩

/-- A gap is a backslash, formatting characters and another backslash. -/
theorem gap_reads_iff : (∃ g, Gap g ∧ Reads getc s g t) ↔
    ∃ s1 c s2 spaces m, getc s = some (chr '\\', s1) ∧ getc s1 = some (c, s2) ∧
      (∀ c' ∈ c :: spaces, c' ∈ formatting) ∧ Reads getc s2 spaces m ∧
      getc m = some (chr '\\', t) := by
  constructor
  · rintro ⟨g, ⟨spaces, hne, hall, rfl⟩, hread⟩
    obtain ⟨s1, hs, hread⟩ := Reads.cons_iff.mp hread
    cases spaces with
    | nil => exact absurd rfl hne
    | cons c spaces =>
      obtain ⟨m, hspaces, hlast⟩ := Reads.append_iff.mp hread
      obtain ⟨s2, hs1, hrest⟩ := Reads.cons_iff.mp hspaces
      obtain ⟨u, hm, hnil⟩ := Reads.cons_iff.mp hlast
      rw [Reads.nil_iff.mp hnil] at hm
      exact ⟨s1, c, s2, spaces, m, hs, hs1, hall, hrest, hm⟩
  · rintro ⟨s1, c, s2, spaces, m, hs, hs1, hall, hrest, hm⟩
    refine ⟨_, ⟨c :: spaces, by simp, hall, rfl⟩, .cons hs ?_⟩
    exact (Reads.cons hs1 hrest).append (.one hm)

/-- The position behind the second backslash of a gap. -/
def gapClosed (getc : Reader UInt8 σ) (m : σ) : Option σ :=
  (getc m).bind fun (c, t) => if c = chr '\\' then some t else none

theorem gapClosed_eq_some {m : σ} : gapClosed getc m = some t ↔
    getc m = some (chr '\\', t) := by
  rw [gapClosed, Option.bind_eq_some_iff]
  constructor
  · rintro ⟨⟨c, u⟩, hm, hc⟩
    simp only [Option.ite_none_right_eq_some, Option.some.injEq] at hc
    rw [hm, hc.1, hc.2]
  · intro hm
    exact ⟨_, hm, if_pos rfl⟩

theorem scanGapEnd_eq (s : σ) : scanGapEnd getc fuel s =
    match getc s with
    | some (c, s2) =>
      if c ∈ formatting then (skipSpaces getc fuel s2).map (gapClosed getc) else .ok none
    | none => .ok none := by
  rw [scanGapEnd, scanSpaces]
  rcases getc s with _ | ⟨c, s2⟩
  · rfl
  by_cases hc : c ∈ formatting
  · simp only [(isSpace_iff c).mpr hc, if_pos hc, if_true]
    rcases skipSpaces getc fuel s2 with e | m
    · rfl
    · change (match getc m with
        | some (c, strm) => pure (if c = chr '\\' then some strm else none)
        | none => pure none : Except Stop (Option σ)) = .ok (gapClosed getc m)
      rw [gapClosed]
      rcases getc m with _ | ⟨c, t⟩ <;> rfl
  · have hspace : isSpace c = false := by
      rw [← Bool.not_eq_true, isSpace_iff]
      exact hc
    simp only [hspace, if_neg hc]
    rfl

theorem scanEscapeSpaces_ok {r : Option σ} (h : scanEscapeSpaces getc fuel s = .ok r) :
    BackslashEnds getc s ∧ ((∃ g t, Gap g ∧ Reads getc s g t ∧ r = some t) ∨
      ((∀ g t, Gap g → ¬ Reads getc s g t) ∧ r = none)) := by
  have hgap : ∀ {g t}, Gap g → Reads getc s g t → _ :=
    fun hgap hread => gap_reads_iff.mp ⟨_, hgap, hread⟩
  by_cases hplain : ∃ s1, getc s = some (chr '\\', s1)
  · obtain ⟨s1, hs⟩ := hplain
    rw [scanEscapeSpaces, hs] at h
    simp only [if_true, scanGapEnd_eq] at h
    split at h
    · rename_i c s2 hs1
      split at h
      · rename_i hc
        rcases hskip : skipSpaces getc fuel s2 with e | m <;> rw [hskip] at h
        · cases h
        obtain ⟨hend, spaces, hall, hread, hstop⟩ := skipSpaces_ok hskip
        obtain rfl : gapClosed getc m = r := Except.ok.inj h
        have hall' : ∀ c' ∈ c :: spaces, c' ∈ formatting := by simpa [hc] using hall
        refine ⟨fun s1' hs' => ?_, ?_⟩
        · cases hs.symm.trans hs'
          exact .skip hs1 hc hend
        rcases hclosed : gapClosed getc m with _ | t
        · refine .inr ⟨fun g t hg hgread => ?_, rfl⟩
          obtain ⟨s1', c', s2', spaces', m', hs', hs1', hall'', hread', hm'⟩ := hgap hg hgread
          cases hs.symm.trans hs'
          obtain ⟨-, hm⟩ := spaces_unique (.cons hs1 hread) hall' hstop
            ((Reads.cons hs1' hread').append (.one hm')) hall''
          rw [gapClosed_eq_some.mpr hm] at hclosed
          cases hclosed
        · have hm := gapClosed_eq_some.mp hclosed
          obtain ⟨g, hg, hgread⟩ := gap_reads_iff.mpr
            ⟨s1, c, s2, spaces, m, hs, hs1, hall', hread, hm⟩
          exact .inl ⟨g, t, hg, hgread, rfl⟩
      · rename_i hc
        cases h
        refine ⟨fun s1' hs' => ?_, .inr ⟨fun g t hg hgread => ?_, rfl⟩⟩
        · cases hs.symm.trans hs'
          refine .stop fun c' u hu => ?_
          cases hs1.symm.trans hu
          exact hc
        · obtain ⟨s1', c', s2', spaces', m', hs', hs1', hall', -⟩ := hgap hg hgread
          cases hs.symm.trans hs'
          cases hs1.symm.trans hs1'
          exact hc (hall' c (by simp))
    · rename_i hs1
      cases h
      refine ⟨fun s1' hs' => ?_, .inr ⟨fun g t hg hgread => ?_, rfl⟩⟩
      · cases hs.symm.trans hs'
        exact .stop (by simp [hs1])
      · obtain ⟨s1', c', s2', spaces', m', hs', hs1', -⟩ := hgap hg hgread
        cases hs.symm.trans hs'
        cases hs1.symm.trans hs1'
  · refine ⟨fun s1 hs => absurd ⟨s1, hs⟩ hplain, .inr ⟨fun g t hg hgread => ?_, ?_⟩⟩
    · obtain ⟨s1, -, -, -, -, hs, -⟩ := hgap hg hgread
      exact hplain ⟨s1, hs⟩
    · rw [scanEscapeSpaces] at h
      split at h
      · rename_i c s1 hs
        split at h
        · rename_i hc
          exact absurd ⟨s1, hc ▸ hs⟩ hplain
        · exact (Except.ok.inj h).symm
      · exact (Except.ok.inj h).symm

theorem scanEscapeSpaces_returns (h : BackslashEnds getc s) :
    ∃ n, ∀ fuel, n ≤ fuel → ∃ r, scanEscapeSpaces getc fuel s = .ok r := by
  rcases hs : getc s with _ | ⟨c, s1⟩
  · exact ⟨0, fun fuel _ => ⟨none, by rw [scanEscapeSpaces, hs]⟩⟩
  by_cases hc : c = chr '\\'
  · subst hc
    obtain ⟨n, hn⟩ := skipSpaces_returns (h s1 hs)
    refine ⟨n, fun fuel hfuel => ?_⟩
    rw [scanEscapeSpaces, hs]
    simp only [if_true, scanGapEnd_eq]
    split
    · rename_i c s2 hs1
      split
      · rename_i hc
        obtain ⟨t, ht⟩ := hn (fuel + 1) (by omega)
        rw [skipSpaces, hs1] at ht
        simp only [(isSpace_iff c).mpr hc, if_true] at ht
        exact ⟨_, by rw [ht]; rfl⟩
      · exact ⟨none, rfl⟩
    · exact ⟨none, rfl⟩
  · refine ⟨0, fun fuel _ => ⟨none, ?_⟩⟩
    rw [scanEscapeSpaces, hs]
    simp only [if_neg hc]

/-! Characters and escape sequences. -/

theorem charInRange_eq (n : Nat) (t : σ) : charInRange n t = (charOf n).map (·, t) := by
  rw [charInRange, charOf]
  by_cases hn : n ≤ 255
  · have hmod : ((n : Int) % 256).toNat = n := by omega
    rw [if_pos hn, if_neg (by omega), fromInt32, hmod]
    rfl
  · rw [if_neg hn, if_pos (by omega)]
    rfl

/-- The check of `scanEscapeSequence` excludes no character. -/
theorem caret_check (c : UInt8) : 64 ≤ c ∨ c ≤ 95 := by
  rw [UInt8.le_iff_toNat_le, UInt8.le_iff_toNat_le]
  simp only [UInt8.reduceToNat]
  omega

theorem scanEscapeSequence_caret {s1 s2 : σ} {c : UInt8} (hs : getc s = some (chr '^', s1))
    (hs1 : getc s1 = some (c, s2)) : scanEscapeSequence getc s = some (c - 64, s2) := by
  rw [scanEscapeSequence, hs]
  simp only [if_true, hs1, if_pos (caret_check c)]

theorem scanEscapeSequence_letter {c : UInt8} (hs : getc s = some (c, t))
    (hc : c ≠ chr '^') : scanEscapeSequence getc s = (escapeLetter c).map (·, t) := by
  rw [scanEscapeSequence, hs]
  simp only [if_neg hc]

theorem escapeLetter_u : escapeLetter (chr 'u') = none := by decide

theorem scanChar_escape {e : List UInt8} {v : Option UInt8} (he : SmlEscape e v)
    (h : Reads getc s e t) : (scanChar getc (fuel + 1) s = .ok (v.map (·, t)) ∧
      ∀ c, e = [chr '\\', chr '^', c] → controlChar c ≠ none) ∨
    ∃ c, e = [chr '\\', chr '^', c] ∧ controlChar c = none ∧ v = none ∧
      scanChar getc (fuel + 1) s = .ok (some (c - 64, t)) := by
  rw [scanChar]
  cases he with
  | @printable c hprint hne =>
    obtain ⟨t', hs, hnil⟩ := Reads.cons_iff.mp h
    rw [Reads.nil_iff.mp hnil] at hs
    left
    rw [hs]
    simp [hne, hprint]
  | @letter l c hletter =>
    obtain ⟨s1, hs, h⟩ := Reads.cons_iff.mp h
    obtain ⟨t', hs1, hnil⟩ := Reads.cons_iff.mp h
    rw [Reads.nil_iff.mp hnil] at hs1
    left
    rw [hs]
    simp [scanEscapeSequence_letter hs1 (letters_plain _ hletter).1,
      escapeLetter_iff.mpr hletter]
  | control c =>
    obtain ⟨s1, hs, h⟩ := Reads.cons_iff.mp h
    obtain ⟨s2, hs1, h⟩ := Reads.cons_iff.mp h
    obtain ⟨t', hs2, hnil⟩ := Reads.cons_iff.mp h
    rw [Reads.nil_iff.mp hnil] at hs2
    rw [hs]
    simp only [if_true, scanEscapeSequence_caret hs1 hs2]
    rcases hc : controlChar c with _ | c'
    · exact .inr ⟨c, rfl, hc, rfl, rfl⟩
    · left
      have hc' : c - 64 = c' := by
        rw [controlChar] at hc
        split at hc
        · exact Option.some.inj hc
        · cases hc
      simp [hc, hc']
  | @decimal digits n hlen hnumber =>
    obtain ⟨s1, hs, h⟩ := Reads.cons_iff.mp h
    obtain ⟨c, d, rest, rfl, hd⟩ := number_cons (by omega) hnumber
    obtain ⟨s2, hs1, -⟩ := Reads.cons_iff.mp h
    obtain ⟨hcaret, hu, -, hplain⟩ := digit_plain hd
    have hdec := scanDec3_eq_some.mpr ⟨_, n, hlen, hnumber, rfl, h⟩
    left
    rw [hs]
    simp only [if_true, scanEscapeSequence_letter hs1 hcaret, hplain, Option.map_none, hs1,
      if_neg hu, hdec, charInRange_eq]
    refine ⟨trivial, fun c' heq => ?_⟩
    simp only [List.cons.injEq, true_and] at heq
    exact absurd heq.1 hcaret
  | @unicode digits n hlen hnumber =>
    obtain ⟨s1, hs, h⟩ := Reads.cons_iff.mp h
    obtain ⟨s2, hs1, h⟩ := Reads.cons_iff.mp h
    have hhex := scanHex4_eq_some.mpr ⟨_, n, hlen, hnumber, rfl, h⟩
    left
    rw [hs]
    simp only [if_true, scanEscapeSequence_letter hs1 (by decide), escapeLetter_u,
      Option.map_none, hs1, hhex, charInRange_eq]
    refine ⟨trivial, fun c' heq => ?_⟩
    simp only [List.cons.injEq, true_and] at heq
    exact absurd heq.1 (by decide)

/-- Where no character and no escape sequence stands, there may be a gap. -/
theorem scanChar_gap (hnone : ∀ e v t, SmlEscape e v → ¬ Reads getc s e t) :
    scanChar getc (fuel + 1) s = (do
      match ← scanEscapeSpaces getc fuel s with
      | none => return none
      | some s' => scanChar getc fuel s') := by
  rw [scanChar, scanEscapeSpaces]
  rcases hs : getc s with _ | ⟨c, s1⟩
  · rfl
  by_cases hc : c = chr '\\'
  · subst hc
    have hsequence : scanEscapeSequence getc s1 = none := by
      rcases hs1 : getc s1 with _ | ⟨c, s2⟩
      · rw [scanEscapeSequence, hs1]
      by_cases hcaret : c = chr '^'
      · subst hcaret
        rcases hs2 : getc s2 with _ | ⟨c, s3⟩
        · rw [scanEscapeSequence, hs1]
          simp [hs2]
        · exact absurd (.cons hs (.cons hs1 (.one hs2))) (hnone _ _ s3 (.control c))
      · rw [scanEscapeSequence_letter hs1 hcaret]
        rcases hletter : escapeLetter c with _ | c'
        · rfl
        · exact absurd (.cons hs (.one hs1))
            (hnone _ _ s2 (.letter (escapeLetter_iff.mp hletter)))
    simp only [if_true, hsequence]
    rcases hs1 : getc s1 with _ | ⟨c, s2⟩
    · rw [scanGapEnd_eq, hs1]
      rfl
    by_cases hu : c = chr 'u'
    · subst hu
      have hhex : scanHex4 getc s2 = none := by
        rcases hhex : scanHex4 getc s2 with _ | ⟨n, t⟩
        · rfl
        · obtain ⟨digits, r, hlen, hnumber, -, hread⟩ := scanHex4_eq_some.mp hhex
          exact absurd (.cons hs (.cons hs1 hread)) (hnone _ _ t (.unicode hlen hnumber))
      have hspace : chr 'u' ∉ formatting := by decide
      simp only [if_true, hhex, scanGapEnd_eq, hs1, if_neg hspace]
      rfl
    · have hdec : scanDec3 getc s1 = none := by
        rcases hdec : scanDec3 getc s1 with _ | ⟨n, t⟩
        · rfl
        · obtain ⟨digits, r, hlen, hnumber, -, hread⟩ := scanDec3_eq_some.mp hdec
          exact absurd (.cons hs hread) (hnone _ _ t (.decimal hlen hnumber))
      simp only [if_neg hu]
      split
      · next hsome =>
        rw [hdec] at hsome
        cases hsome
      · rfl
  · have hprint : ¬ (32 ≤ c ∧ c ≤ 126) := fun hprint =>
      hnone _ _ s1 (.printable hprint hc) (.one hs)
    simp only [if_neg hc, if_neg hprint]
    rfl

/-! Items. -/

theorem gap_front {u : σ} {g g' e : List UInt8} {v : Option UInt8} (hg : Gap g)
    (hread : Reads getc s g t) (hgaps : Gaps g') (he : SmlEscape e v)
    (h : Reads getc s (g' ++ e) u) :
    ∃ gs, g' = g ++ gs ∧ Gaps gs ∧ Reads getc t (gs ++ e) u := by
  obtain ⟨z, z', heq⟩ := hread.joinable h
  cases hgaps with
  | nil => exact absurd heq (hg.ne_escape he)
  | @cons head gs hhead tail =>
    rw [List.append_assoc, List.append_assoc] at heq
    obtain ⟨rfl, -⟩ := hg.text_unique hhead heq
    rw [List.append_assoc] at h
    obtain ⟨m, hm, hrest⟩ := Reads.append_iff.mp h
    cases hm.unique hread
    exact ⟨gs, rfl, tail, hrest⟩

theorem badControl_gap_iff {g : List UInt8} (hg : Gap g) (hread : Reads getc s g t) :
    BadControl getc s ↔ BadControl getc t := by
  constructor
  · rintro ⟨g', c, u, hgaps, h, hc⟩
    obtain ⟨gs, -, hgs, hrest⟩ := gap_front hg hread hgaps (.control c) h
    exact ⟨gs, c, u, hgs, hrest, hc⟩
  · rintro ⟨gs, c, u, hgs, h, hc⟩
    refine ⟨g ++ gs, c, u, .cons hg hgs, ?_, hc⟩
    rw [List.append_assoc]
    exact hread.append h

theorem scans_gap_iff {g : List UInt8} {r : Option (UInt8 × σ)} (hg : Gap g)
    (hread : Reads getc s g t) : Scans SmlItem getc s r ↔ Scans SmlItem getc t r := by
  by_cases hitem : ∃ w v u, SmlItem w v ∧ Reads getc t w u
  · obtain ⟨w, v, u, hw, hu⟩ := hitem
    have hs : SmlItem (g ++ w) v := by
      obtain ⟨gs, e, hgs, he, rfl⟩ := hw
      exact ⟨g ++ gs, e, .cons hg hgs, he, (List.append_assoc _ _ _).symm⟩
    rw [hw.scans_iff hu, hs.scans_iff (hread.append hu)]
  · rw [scans_none_iff, scans_none_iff]
    · exact fun w v u hw hu => hitem ⟨w, v, u, hw, hu⟩
    · rintro w v u ⟨g', e, hgaps, he, rfl⟩ hu
      obtain ⟨gs, -, hgs, hrest⟩ := gap_front hg hread hgaps he hu
      exact hitem ⟨gs ++ e, v, u, ⟨gs, e, hgs, he, rfl⟩, hrest⟩

theorem SmlEscape.backslashEnds {e : List UInt8} {v : Option UInt8} (he : SmlEscape e v)
    (h : Reads getc s e t) : BackslashEnds getc s := by
  intro s1 hs1
  have hsecond : ∀ {c : UInt8} {rest : List UInt8}, c ∉ formatting →
      Reads getc s (chr '\\' :: c :: rest) t → SpacesEnd getc s1 := by
    intro c rest hc h
    obtain ⟨s1', hs, h⟩ := Reads.cons_iff.mp h
    cases hs.symm.trans hs1
    obtain ⟨s2, hs1, -⟩ := Reads.cons_iff.mp h
    refine .stop fun c' u hu => ?_
    cases hs1.symm.trans hu
    exact hc
  cases he with
  | printable hprint hne =>
    obtain ⟨s1', hs, -⟩ := Reads.cons_iff.mp h
    cases hs.symm.trans hs1
    exact absurd rfl hne
  | letter hletter => exact hsecond (letters_plain _ hletter).2.2.2 h
  | control c => exact hsecond (by decide) h
  | decimal hlen hnumber =>
    obtain ⟨c, d, rest, rfl, hd⟩ := number_cons (by omega) hnumber
    exact hsecond (digit_plain hd).2.2.1 h
  | unicode hlen hnumber => exact hsecond (by decide) h

theorem gapsEnd_of_none (h : BackslashEnds getc s)
    (hnone : ∀ g t, Gap g → ¬ Reads getc s g t) : GapsEnd getc s := by
  by_cases hs : ∃ t, getc s = some (chr '\\', t)
  · obtain ⟨t, ht⟩ := hs
    exact .none ht (h t ht) hnone
  · exact .plain fun t ht => hs ⟨t, ht⟩

/-- What `scanChar` returns is right, unless a caret escape is bad. -/
theorem scanChar_ok {r : Option (UInt8 × σ)} (h : scanChar getc fuel s = .ok r) :
    GapsEnd getc s ∧ ((¬ BadControl getc s ∧ Scans SmlItem getc s r) ∨
      (BadControl getc s ∧ r ≠ none ∧ Scans SmlItem getc s none)) := by
  induction fuel generalizing s with
  | zero => cases h
  | succ fuel ih =>
    by_cases hescape : ∃ e v t, SmlEscape e v ∧ Reads getc s e t
    · obtain ⟨e, v, t, he, hread⟩ := hescape
      have hitem : SmlItem e v := ⟨[], e, .nil, he, rfl⟩
      refine ⟨gapsEnd_of_none (he.backslashEnds hread) fun g t' hg hg' => ?_, ?_⟩
      · obtain ⟨z, z', heq⟩ := hg'.joinable hread
        exact hg.ne_escape he heq
      rcases scanChar_escape he hread with ⟨hscan, hcontrol⟩ | ⟨c, rfl, hc, rfl, hscan⟩
      · cases hscan.symm.trans h
        refine .inl ⟨?_, (hitem.scans_iff hread).mpr rfl⟩
        rintro ⟨g, c, u, hg, hu, hc⟩
        obtain ⟨z, z', heq⟩ := hread.joinable hu
        rw [List.append_assoc] at heq
        obtain ⟨rfl, rfl, -⟩ := Gaps.nil.text_unique hg he (.control c) heq
        exact hcontrol c rfl hc
      · cases hscan.symm.trans h
        exact .inr ⟨⟨[], c, t, .nil, hread, hc⟩, by simp, (hitem.scans_iff hread).mpr rfl⟩
    · have hnone : ∀ e v t, SmlEscape e v → ¬ Reads getc s e t :=
        fun e v t he hread => hescape ⟨e, v, t, he, hread⟩
      rw [scanChar_gap hnone] at h
      obtain ⟨o, hspaces, h⟩ := except_bind_ok.mp h
      obtain ⟨hends, ⟨g, t, hg, hread, rfl⟩ | ⟨hplain, rfl⟩⟩ := scanEscapeSpaces_ok hspaces
      · obtain ⟨hgaps, hresult⟩ := ih h
        rw [badControl_gap_iff hg hread, scans_gap_iff hg hread, scans_gap_iff hg hread]
        exact ⟨.gap hg hread hgaps, hresult⟩
      · cases h
        have hitem : ∀ w v t, SmlItem w v → ¬ Reads getc s w t := by
          rintro w v t ⟨g, e, hgaps, he, rfl⟩ hread
          cases hgaps with
          | nil => exact hnone e v t he hread
          | cons head tail =>
            rw [List.append_assoc] at hread
            obtain ⟨m, hm, -⟩ := Reads.append_iff.mp hread
            exact hplain _ m head hm
        refine ⟨gapsEnd_of_none hends hplain, .inl ⟨?_, (scans_none_iff hitem).mpr rfl⟩⟩
        rintro ⟨g, c, u, hg, hu, -⟩
        exact hitem _ _ u ⟨g, _, hg, .control c, rfl⟩ hu

theorem SpacesEnd.of_reads {m : σ} {spaces : List UInt8} (h : SpacesEnd getc m)
    (hall : ∀ c ∈ spaces, c ∈ formatting) (hread : Reads getc s spaces m) :
    SpacesEnd getc s := by
  induction hread with
  | nil => exact h
  | cons head tail ih =>
    exact .skip head (hall _ (by simp)) (ih h fun c hc => hall c (by simp [hc]))

theorem GapsEnd.backslashEnds (h : GapsEnd getc s) : BackslashEnds getc s := by
  intro s1 hs1
  cases h with
  | plain hplain => exact absurd hs1 (hplain s1)
  | none hread hend => exact (Prod.mk.inj (Option.some.inj (hread.symm.trans hs1))).2 ▸ hend
  | gap hgap hread hend =>
    obtain ⟨s1', c, s2, spaces, m, hs, hs1', hall, hrest, hm⟩ :=
      gap_reads_iff.mp ⟨_, hgap, hread⟩
    cases hs.symm.trans hs1
    have hstop : SpacesEnd getc m := by
      refine .stop fun c' u hu => ?_
      cases hm.symm.trans hu
      exact not_formatting_backslash
    exact hstop.of_reads hall (.cons hs1' hrest)

theorem scanChar_returns_of_gap (hends : BackslashEnds getc s)
    (hgap : ∀ g t, Gap g → Reads getc s g t →
      ∃ n, ∀ fuel, n ≤ fuel → ∃ r, scanChar getc fuel t = .ok r) :
    ∃ n, ∀ fuel, n ≤ fuel → ∃ r, scanChar getc fuel s = .ok r := by
  by_cases hescape : ∃ e v t, SmlEscape e v ∧ Reads getc s e t
  · obtain ⟨e, v, t, he, hread⟩ := hescape
    refine ⟨1, fun fuel hfuel => ?_⟩
    obtain ⟨fuel, rfl⟩ := Nat.exists_eq_add_of_le' hfuel
    rcases scanChar_escape he hread with ⟨hscan, -⟩ | ⟨c, -, -, -, hscan⟩
    · exact ⟨_, hscan⟩
    · exact ⟨_, hscan⟩
  have hnone : ∀ e v t, SmlEscape e v → ¬ Reads getc s e t :=
    fun e v t he hread => hescape ⟨e, v, t, he, hread⟩
  obtain ⟨n, hn⟩ := scanEscapeSpaces_returns hends
  by_cases hfirst : ∃ g t, Gap g ∧ Reads getc s g t
  · obtain ⟨g, t, hg, hread⟩ := hfirst
    obtain ⟨k, hk⟩ := hgap g t hg hread
    refine ⟨max n k + 1, fun fuel hfuel => ?_⟩
    obtain ⟨fuel, rfl⟩ := Nat.exists_eq_add_of_le' (show 1 ≤ fuel by omega)
    obtain ⟨o, ho⟩ := hn fuel (by omega)
    obtain ⟨r, hr⟩ := hk fuel (by omega)
    refine ⟨r, ?_⟩
    obtain ⟨-, ⟨g', t', hg', hread', rfl⟩ | ⟨hplain, -⟩⟩ := scanEscapeSpaces_ok ho
    · obtain ⟨z, z', heq⟩ := hread.joinable hread'
      obtain ⟨rfl, -⟩ := hg.text_unique hg' heq
      cases hread.unique hread'
      rw [scanChar_gap hnone, ho]
      exact hr
    · exact absurd hread (hplain g t hg)
  · refine ⟨n + 1, fun fuel hfuel => ?_⟩
    obtain ⟨fuel, rfl⟩ := Nat.exists_eq_add_of_le' (show 1 ≤ fuel by omega)
    obtain ⟨o, ho⟩ := hn fuel (by omega)
    obtain ⟨-, ⟨g', t', hg', hread', rfl⟩ | ⟨-, rfl⟩⟩ := scanEscapeSpaces_ok ho
    · exact absurd ⟨g', t', hg', hread'⟩ hfirst
    · exact ⟨none, by rw [scanChar_gap hnone, ho]; rfl⟩

/-- With enough fuel `scanChar` returns, if the gaps come to an end. -/
theorem scanChar_returns (h : GapsEnd getc s) :
    ∃ n, ∀ fuel, n ≤ fuel → ∃ r, scanChar getc fuel s = .ok r := by
  induction h with
  | plain hplain =>
    apply scanChar_returns_of_gap (GapsEnd.plain hplain).backslashEnds
    intro g t hg hread
    obtain ⟨s1, -, -, -, -, hs, -⟩ := gap_reads_iff.mp ⟨g, hg, hread⟩
    exact absurd hs (hplain s1)
  | none hread hend hnone =>
    apply scanChar_returns_of_gap (GapsEnd.none hread hend hnone).backslashEnds
    intro g t hg hread'
    exact absurd hread' (hnone g t hg)
  | gap hgap hread hend ih =>
    apply scanChar_returns_of_gap (GapsEnd.gap hgap hread hend).backslashEnds
    intro g t hg hread'
    obtain ⟨z, z', heq⟩ := hread.joinable hread'
    obtain ⟨rfl, -⟩ := hgap.text_unique hg heq
    cases hread.unique hread'
    exact ih

/-- `scanChar` is exact where the gaps come to an end and no caret escape is bad. -/
theorem scanChar_exact : (∃ fuel r, scanChar getc fuel s = .ok r ∧ Scans SmlItem getc s r) ↔
    ¬ BadControl getc s ∧ GapsEnd getc s := by
  constructor
  · rintro ⟨fuel, r, h, hscans⟩
    obtain ⟨hends, ⟨hgood, -⟩ | ⟨⟨g, c, u, hg, hread, hc⟩, hr, -⟩⟩ := scanChar_ok h
    · exact ⟨hgood, hends⟩
    · have hitem : SmlItem (g ++ [chr '\\', chr '^', c]) none :=
        ⟨g, _, hg, hc ▸ .control c, rfl⟩
      exact absurd ((hitem.scans_iff hread).mp hscans) hr
  · rintro ⟨hgood, hends⟩
    obtain ⟨n, hn⟩ := scanChar_returns hends
    obtain ⟨r, hr⟩ := hn n (Nat.le_refl n)
    obtain ⟨-, ⟨-, hscans⟩ | ⟨hbad, -⟩⟩ := scanChar_ok hr
    · exact ⟨n, r, hr, hscans⟩
    · exact absurd hbad hgood

end Scan

end ScanChar

end SmlSharp
