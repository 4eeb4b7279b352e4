/-
`scanCChar` against the grammar of C.
-/
import SmlSharp.ScanChar.Sml

namespace SmlSharp

namespace ScanChar

/-! The texts of the grammar. -/

def cLetters : List (UInt8 × UInt8) := letters ++ [(chr '?', chr '?'), (chr '\'', chr '\'')]

theorem cLetters_plain : ∀ p ∈ cLetters,
    p.1 ≠ chr '^' ∧ p.1 ≠ chr 'x' ∧ digit 8 p.1 = none :=
  forall_mem_of_all rfl

theorem cLetters_unique : ∀ p ∈ cLetters, ∀ q ∈ cLetters, p.1 = q.1 → p.2 = q.2 := by
  have hall : ∀ p ∈ cLetters, cLetters.all (fun q => decide (p.1 = q.1 → p.2 = q.2)) = true :=
    forall_mem_of_all rfl
  exact fun p hp => forall_mem_of_all (hall p hp)

variable {c : UInt8} {d : Nat} {w : List UInt8} {v : Option UInt8} {rest : List UInt8}
  {c' : UInt8} {n : Nat}

theorem octDigit_plain (h : digit 8 c = some d) :
    c ≠ chr '^' ∧ c ≠ chr 'x' ∧ c ≠ chr '?' ∧ c ≠ chr '\'' ∧ escapeLetter c = none := by
  have hall : ∀ c, (digit 8 c).isSome = true →
      c ≠ chr '^' ∧ c ≠ chr 'x' ∧ c ≠ chr '?' ∧ c ≠ chr '\'' ∧ escapeLetter c = none :=
    forall_char (by decide +kernel)
  exact hall c (by rw [h]; rfl)

/-- An escape sequence of C by its second character. -/
inductive CEscape (c : UInt8) : List UInt8 → Option UInt8 → Prop where
  | letter {c' : UInt8} (hletter : (c, c') ∈ cLetters) : CEscape c [] (some c')
  | control {c' : UInt8} (hc : c = chr '^') : CEscape c [c'] (controlChar c')
  | octal {digits : List UInt8} {n : Nat} (hlen : digits.length ≤ 2)
      (hnumber : number 8 (c :: digits) = some n) : CEscape c digits (charOf n)
  | hex {digits : List UInt8} {n : Nat} (hc : c = chr 'x') (hlen : digits ≠ [])
      (hnumber : number 16 digits = some n) : CEscape c digits (charOf n)

theorem CItem.cases_backslash
    (h : CItem (chr '\\' :: w) v) : ∃ c rest, w = c :: rest ∧ CEscape c rest v := by
  cases h with
  | printable hprint hne => exact absurd rfl hne
  | letter hletter => exact ⟨_, [], rfl, .letter hletter⟩
  | control c => exact ⟨_, [c], rfl, .control rfl⟩
  | octal hlen hnumber =>
    cases w with
    | nil => simp at hlen
    | cons c digits => exact ⟨c, digits, rfl, .octal (Nat.le_of_succ_le_succ hlen.2) hnumber⟩
  | hex hlen hnumber => exact ⟨_, _, rfl, .hex rfl hlen hnumber⟩

theorem CEscape.item (h : CEscape c rest v) :
    CItem (chr '\\' :: c :: rest) v := by
  cases h with
  | letter hletter => exact .letter hletter
  | control hc => exact hc ▸ .control _
  | octal hlen hnumber => exact .octal ⟨by simp, Nat.succ_le_succ hlen⟩ hnumber
  | hex hc hlen hnumber => exact hc ▸ .hex hlen hnumber

theorem CItem.cases_plain
    (h : CItem (c :: w) v) (hc : c ≠ chr '\\') : w = [] ∧ v = some c ∧ 32 ≤ c ∧ c ≤ 126 := by
  cases h with
  | printable hprint hne => exact ⟨rfl, rfl, hprint⟩
  | letter => exact absurd rfl hc
  | control => exact absurd rfl hc
  | octal => exact absurd rfl hc
  | hex => exact absurd rfl hc

theorem CEscape.of_octal (h : CEscape c rest v) (hd : digit 8 c = some d) :
    rest.length ≤ 2 ∧ ∃ n, number 8 (c :: rest) = some n ∧ v = charOf n := by
  obtain ⟨hcaret, hx, -⟩ := octDigit_plain hd
  cases h with
  | letter hletter =>
    have hnone := (cLetters_plain _ hletter).2.2
    rw [hd] at hnone
    cases hnone
  | control hc => exact absurd hc hcaret
  | octal hlen hnumber => exact ⟨hlen, _, hnumber, rfl⟩
  | hex hc => exact absurd hc hx

theorem CEscape.of_hex (h : CEscape c rest v) (hc : c = chr 'x') :
    rest ≠ [] ∧ ∃ n, number 16 rest = some n ∧ v = charOf n := by
  cases h with
  | letter hletter => exact absurd hc (cLetters_plain _ hletter).2.1
  | control hc' => exact absurd (hc.symm.trans hc') (by decide)
  | octal hlen hnumber =>
    obtain ⟨d, hd, -⟩ := numberFrom_eq_some_cons.mp hnumber
    exact absurd hc (octDigit_plain hd).2.1
  | hex _ hlen hnumber => exact ⟨hlen, _, hnumber, rfl⟩

theorem CEscape.of_caret
    (h : CEscape c rest v) (hc : c = chr '^') : ∃ c', rest = [c'] ∧ v = controlChar c' := by
  cases h with
  | letter hletter => exact absurd hc (cLetters_plain _ hletter).1
  | control _ => exact ⟨_, rfl, rfl⟩
  | octal hlen hnumber =>
    obtain ⟨d, hd, -⟩ := numberFrom_eq_some_cons.mp hnumber
    exact absurd hc (octDigit_plain hd).1
  | hex hc' => exact absurd (hc'.symm.trans hc) (by decide)

theorem CEscape.of_letter
    (h : CEscape c rest v) (hletter : (c, c') ∈ cLetters) : rest = [] ∧ v = some c' := by
  obtain ⟨hcaret, hx, hdigit⟩ := cLetters_plain _ hletter
  cases h with
  | letter hletter' => exact ⟨rfl, congrArg some (cLetters_unique _ hletter' _ hletter rfl)⟩
  | control hc => exact absurd hc hcaret
  | octal hlen hnumber =>
    obtain ⟨d, hd, -⟩ := numberFrom_eq_some_cons.mp hnumber
    exact absurd (hd.symm.trans hdigit) (by simp)
  | hex hc => exact absurd hc hx

theorem CEscape.value_unique {v' : Option UInt8}
    (h : CEscape c rest v) (h' : CEscape c rest v') : v = v' := by
  cases h with
  | letter hletter => exact (h'.of_letter hletter).2.symm
  | control hc =>
    obtain ⟨c', hrest, rfl⟩ := h'.of_caret hc
    cases hrest
    rfl
  | octal hlen hnumber =>
    obtain ⟨d, hd, -⟩ := numberFrom_eq_some_cons.mp hnumber
    obtain ⟨-, n, hn, rfl⟩ := h'.of_octal hd
    cases hnumber.symm.trans hn
    rfl
  | hex hc hlen hnumber =>
    obtain ⟨-, n, hn, rfl⟩ := h'.of_hex hc
    cases hnumber.symm.trans hn
    rfl

section Scan

variable {σ : Type} {getc : Reader UInt8 σ} {s s1 s2 t : σ} {fuel : Nat} {c : UInt8}
  {r : Option (UInt8 × σ)} {rest : List UInt8} {v : Option UInt8}

/-! Items behind a backslash. -/

theorem item_reads (hs : getc s = some (chr '\\', s1)) (hs1 : getc s1 = some (c, s2))
    (hw : CItem w v) (hread : Reads getc s w t) :
    ∃ rest, w = chr '\\' :: c :: rest ∧ CEscape c rest v ∧ Reads getc s2 rest t := by
  cases hread with
  | nil => cases hw
  | cons head tail =>
    cases hs.symm.trans head
    obtain ⟨c', rest, rfl, hrest⟩ := hw.cases_backslash
    obtain ⟨s2', hs1', htail⟩ := Reads.cons_iff.mp tail
    cases hs1.symm.trans hs1'
    exact ⟨rest, rfl, hrest, htail⟩

/-- The longest escape sequence at a position is what a scanner has to return. -/
theorem scans_iff_of_max (hs : getc s = some (chr '\\', s1)) (hs1 : getc s1 = some (c, s2))
    (h : CEscape c rest v) (hread : Reads getc s2 rest t)
    (hmax : ∀ rest' v' t', CEscape c rest' v' → Reads getc s2 rest' t' →
      rest'.length ≤ rest.length) : Scans CItem getc s r ↔ r = v.map (·, t) := by
  have hlongest : Longest getc (fun w => ∃ v, CItem w v) s (chr '\\' :: c :: rest) t := by
    refine ⟨.cons hs (.cons hs1 hread), ⟨v, h.item⟩, ?_⟩
    rintro w' t' hread' ⟨v', hw'⟩
    obtain ⟨rest', rfl, hrest', htail⟩ := item_reads hs hs1 hw' hread'
    simpa using hmax rest' v' t' hrest' htail
  constructor
  · rintro (⟨w', t', v', hlongest', hw', rfl⟩ | ⟨hnone, -⟩)
    · obtain ⟨rfl, rfl⟩ := hlongest.unique hlongest'
      obtain ⟨c', rest', heq, hrest'⟩ := hw'.cases_backslash
      cases heq
      rw [h.value_unique hrest']
    · exact absurd hlongest (hnone _ t)
  · rintro rfl
    exact .inl ⟨_, t, v, hlongest, h.item, rfl⟩

/-- Where the longest escape sequence denotes no character a scanner has to return
nothing. -/
theorem scans_none_of_max (hs : getc s = some (chr '\\', s1)) (hs1 : getc s1 = some (c, s2))
    (hmax : ∀ rest v t, CEscape c rest v → Reads getc s2 rest t →
      (∀ rest' v' t', CEscape c rest' v' → Reads getc s2 rest' t' →
        rest'.length ≤ rest.length) → v = none) : Scans CItem getc s r ↔ r = none := by
  constructor
  · rintro (⟨w, t, v, hlongest, hw, rfl⟩ | ⟨-, hr⟩)
    · obtain ⟨rest, rfl, hrest, htail⟩ := item_reads hs hs1 hw hlongest.reads
      rw [hmax rest v t hrest htail fun rest' v' t' hrest' htail' => by
        simpa using hlongest.max _ t' (.cons hs (.cons hs1 htail')) ⟨v', hrest'.item⟩]
      rfl
    · exact hr
  · rintro rfl
    by_cases hlongest : ∃ w t, Longest getc (fun w => ∃ v, CItem w v) s w t
    · obtain ⟨w, t, hlongest⟩ := hlongest
      obtain ⟨v, hw⟩ := hlongest.isKind
      refine .inl ⟨w, t, v, hlongest, hw, ?_⟩
      obtain ⟨rest, rfl, hrest, htail⟩ := item_reads hs hs1 hw hlongest.reads
      rw [hmax rest v t hrest htail fun rest' v' t' hrest' htail' => by
        simpa using hlongest.max _ t' (.cons hs (.cons hs1 htail')) ⟨v', hrest'.item⟩]
      rfl
    · exact .inr ⟨fun w t h => hlongest ⟨w, t, h⟩, rfl⟩

/-! Octal digits. -/

/-- No further digit of the radix stands at the position. -/
def NoDigit (getc : Reader UInt8 σ) (radix : Nat) (s : σ) : Prop :=
  ∀ c t, getc s = some (c, t) → digit radix c = none

theorem scanOctDigit_eq_some {n : Int} : scanOctDigit getc s = some (n, t) ↔
    ∃ c d, getc s = some (c, t) ∧ digit 8 c = some d ∧ n = d :=
  scanValue_eq_some octDigit_eq

theorem scanOctDigit_eq_none : scanOctDigit getc s = none ↔ NoDigit getc 8 s :=
  scanValue_eq_none octDigit_eq

theorem scanHexDigit_eq_some {n : Int} : scanHexDigit getc s = some (n, t) ↔
    ∃ c d, getc s = some (c, t) ∧ digit 16 c = some d ∧ n = d :=
  scanValue_eq_some hexDigit_eq

theorem scanHexDigit_eq_none : scanHexDigit getc s = none ↔ NoDigit getc 16 s :=
  scanValue_eq_none hexDigit_eq

theorem scanCOct_digits (hs : getc s = some (c, s1)) (hd : digit 8 c = some d) :
    ∃ rest n t, rest.length ≤ 2 ∧ number 8 (c :: rest) = some n ∧ Reads getc s1 rest t ∧
      scanCOct getc s = some (fromInt32 n, t) ∧ (rest.length = 2 ∨ NoDigit getc 8 t) := by
  have hfirst := scanOctDigit_eq_some.mpr ⟨c, d, hs, hd, rfl⟩
  rcases h2 : scanOctDigit getc s1 with _ | ⟨n2, s2⟩
  · refine ⟨[], d, s1, by simp, by simp [number, numberFrom, hd], .nil s1, ?_,
      .inr (scanOctDigit_eq_none.mp h2)⟩
    simp only [scanCOct, hfirst, h2]
  obtain ⟨c2, d2, hs1, hd2, rfl⟩ := scanOctDigit_eq_some.mp h2
  rcases h3 : scanOctDigit getc s2 with _ | ⟨n3, s3⟩
  · refine ⟨[c2], d * 8 + d2, s2, by simp, by simp [number, numberFrom, hd, hd2], .one hs1, ?_,
      .inr (scanOctDigit_eq_none.mp h3)⟩
    simp only [scanCOct, hfirst, h2, h3]
    rfl
  obtain ⟨c3, d3, hs2, hd3, rfl⟩ := scanOctDigit_eq_some.mp h3
  refine ⟨[c2, c3], (d * 8 + d2) * 8 + d3, s3, by simp,
    by simp [number, numberFrom, hd, hd2, hd3], .cons hs1 (.one hs2), ?_, .inl rfl⟩
  simp only [scanCOct, hfirst, h2, h3]
  rfl

theorem scanCOct_none (h : NoDigit getc 8 s) : scanCOct getc s = none := by
  rw [scanCOct, scanOctDigit_eq_none.mpr h]

/-- A longer number has another digit. -/
theorem not_noDigit_of_append {radix : Nat} {xs ys : List UInt8}
    (hread : Reads getc s ys t) (hne : ys ≠ []) (h : number radix (xs ++ ys) = some n) :
    ¬ NoDigit getc radix s := by
  intro hnone
  rw [number, numberFrom_append, Option.bind_eq_some_iff] at h
  obtain ⟨m, -, hys⟩ := h
  cases ys with
  | nil => exact hne rfl
  | cons c ys =>
    obtain ⟨d, hd, -⟩ := numberFrom_eq_some_cons.mp hys
    obtain ⟨u, hs, -⟩ := Reads.cons_iff.mp hread
    exact absurd (hd.symm.trans (hnone c u hs)) (by simp)

theorem charOf_of_le (h : n ≤ 255) : charOf n = some (UInt8.ofNat n) :=
  if_pos h

theorem fromInt32_of_le (h : n ≤ 255) : fromInt32 n = UInt8.ofNat n := by
  have hmod : ((n : Int) % 256).toNat = n := by omega
  rw [fromInt32, hmod]

theorem scanCOct_scans (hs : getc s = some (chr '\\', s1))
    (hs1 : getc s1 = some (c, s2)) (hd : digit 8 c = some d) :
    ∃ rest n t, rest.length ≤ 2 ∧ number 8 (c :: rest) = some n ∧ Reads getc s2 rest t ∧
      scanCOct getc s1 = some (fromInt32 n, t) ∧
      ∀ r, Scans CItem getc s r ↔ r = (charOf n).map (·, t) := by
  obtain ⟨rest, n, t, hlen, hnumber, hread, hscan, hend⟩ := scanCOct_digits hs1 hd
  refine ⟨rest, n, t, hlen, hnumber, hread, hscan, fun r => ?_⟩
  apply scans_iff_of_max hs hs1 (.octal hlen hnumber) hread
  intro rest' v' t' hrest' hread'
  obtain ⟨hlen', n', hnumber', -⟩ := hrest'.of_octal hd
  rcases hend with hfull | hend
  · omega
  by_contra hlt
  obtain ⟨z, rfl, hz⟩ := hread.comparable hread' (by omega)
  have hne : z ≠ [] := by
    rintro rfl
    simp at hlt
  exact not_noDigit_of_append hz hne (show number 8 ((c :: rest) ++ z) = _ from hnumber') hend

/-! Hexadecimal digits. -/

theorem skipZero_ok (h : skipZero getc fuel s = .ok t) : ZerosEnd getc s ∧
    ∃ k, Reads getc s (List.replicate k (chr '0')) t ∧ ∀ u, getc t ≠ some (chr '0', u) := by
  induction fuel generalizing s with
  | zero => cases h
  | succ fuel ih =>
    rw [skipZero] at h
    split at h
    · rename_i c s' hs
      split at h
      · rename_i hc
        subst hc
        obtain ⟨hend, k, hread, hstop⟩ := ih h
        exact ⟨.skip hs hend, k + 1, .cons hs hread, hstop⟩
      · rename_i hc
        cases h
        have hstop : ∀ u, getc t ≠ some (chr '0', u) := by simp [hs, hc]
        exact ⟨.stop hstop, 0, .nil _, hstop⟩
    · rename_i hs
      cases h
      have hstop : ∀ u, getc t ≠ some (chr '0', u) := by simp [hs]
      exact ⟨.stop hstop, 0, .nil _, hstop⟩

theorem skipZero_returns (h : ZerosEnd getc s) :
    ∃ n, ∀ fuel, n ≤ fuel → ∃ t, skipZero getc fuel s = .ok t := by
  induction h with
  | @stop s hstop =>
    refine ⟨1, fun fuel hfuel => ⟨s, ?_⟩⟩
    obtain ⟨fuel, rfl⟩ := Nat.exists_eq_add_of_le' hfuel
    rw [skipZero]
    split
    · rename_i c s' hs
      rw [if_neg fun hc => hstop s' (by rw [hs, hc])]
    · rfl
  | @skip s s' hread hend ih =>
    obtain ⟨n, hn⟩ := ih
    refine ⟨n + 1, fun fuel hfuel => ?_⟩
    obtain ⟨fuel, rfl⟩ := Nat.exists_eq_add_of_le' (show 1 ≤ fuel by omega)
    obtain ⟨t, ht⟩ := hn fuel (by omega)
    refine ⟨t, ?_⟩
    rw [skipZero, hread]
    simpa using ht

theorem number_zeros (k : Nat) : number 16 (List.replicate k (chr '0')) = some 0 := by
  have hzero : digit 16 (chr '0') = some 0 := by decide
  induction k with
  | zero => rfl
  | succ k ih =>
    rw [number, List.replicate_succ, numberFrom, hzero, Option.bind_some]
    exact ih

theorem number_behind_zeros (k : Nat) (digits : List UInt8) :
    number 16 (List.replicate k (chr '0') ++ digits) = number 16 digits := by
  have hzeros := number_zeros k
  rw [number] at hzeros
  rw [number, numberFrom_append, hzeros]
  rfl

theorem digit_pos (h : digit 16 c = some d) (hc : c ≠ chr '0') : 0 < d := by
  have hall : ∀ c, digit 16 c = some 0 → c = chr '0' := forall_char (by decide +kernel)
  refine Nat.pos_of_ne_zero ?_
  rintro rfl
  exact hc (hall c h)

/-- The digits behind the zeros give the longest escape sequence when no digit follows. -/
theorem hex_max {digits : List UInt8} (hs : getc s = some (chr '\\', s1))
    (hs1 : getc s1 = some (chr 'x', s2)) (hread : Reads getc s2 digits t)
    (hne : digits ≠ []) (hnumber : number 16 digits = some n) (hend : NoDigit getc 16 t) :
    Scans CItem getc s r ↔ r = (charOf n).map (·, t) := by
  apply scans_iff_of_max hs hs1 (.hex rfl hne hnumber) hread
  intro rest' v' t' hrest' hread'
  obtain ⟨-, n', hnumber', -⟩ := hrest'.of_hex rfl
  by_contra hlt
  obtain ⟨z, rfl, hz⟩ := hread.comparable hread' (by omega)
  have hne' : z ≠ [] := by
    rintro rfl
    simp at hlt
  exact not_noDigit_of_append hz hne' hnumber' hend

theorem scanCHex_scans {k : Nat} {m : σ} (hs : getc s = some (chr '\\', s1))
    (hs1 : getc s1 = some (chr 'x', s2))
    (hzeros : Reads getc s2 (List.replicate k (chr '0')) m)
    (hstop : ∀ u, getc m ≠ some (chr '0', u)) :
    Scans CItem getc s (scanCHex getc (decide (0 < k)) m) := by
  rw [scanCHex]
  rcases h1 : scanHexDigit getc m with _ | ⟨n1, m1⟩
  · have hend := scanHexDigit_eq_none.mp h1
    rcases Nat.eq_zero_or_pos k with rfl | hk
    · cases hzeros
      refine (scans_none_of_max hs hs1 fun rest v t hrest hread _ => ?_).mpr rfl
      obtain ⟨hne, n, hnumber, -⟩ := hrest.of_hex rfl
      exact absurd hend (not_noDigit_of_append hread hne
        (show number 16 ([] ++ rest) = _ from hnumber))
    · have hne : List.replicate k (chr '0') ≠ [] := by
        rw [Ne, List.replicate_eq_nil_iff]
        omega
      simp only [hk, decide_true, if_true]
      exact (hex_max hs hs1 hzeros hne (number_zeros k) hend).mpr rfl
  obtain ⟨c1, d1, hm, hd1, rfl⟩ := scanHexDigit_eq_some.mp h1
  have hpos : 0 < d1 := digit_pos hd1 fun hc => hstop m1 (hc ▸ hm)
  have hlt1 := digit_lt hd1
  rcases h2 : scanHexDigit getc m1 with _ | ⟨n2, m2⟩
  · have hnumber : number 16 (List.replicate k (chr '0') ++ [c1]) = some d1 := by
      rw [number_behind_zeros]
      simp [number, numberFrom, hd1]
    refine (hex_max hs hs1 (hzeros.append (.one hm)) (by simp) hnumber
      (scanHexDigit_eq_none.mp h2)).mpr ?_
    rw [charOf_of_le (by omega)]
    simp only [h2, fromInt32_of_le (show d1 ≤ 255 by omega), Option.map_some]
  obtain ⟨c2, d2, hm1, hd2, rfl⟩ := scanHexDigit_eq_some.mp h2
  have hlt2 := digit_lt hd2
  rcases h3 : scanHexDigit getc m2 with _ | ⟨n3, m3⟩
  · have hnumber : number 16 (List.replicate k (chr '0') ++ [c1, c2]) =
        some (d1 * 16 + d2) := by
      rw [number_behind_zeros]
      simp [number, numberFrom, hd1, hd2]
    refine (hex_max hs hs1 (hzeros.append (.cons hm (.one hm1))) (by simp) hnumber
      (scanHexDigit_eq_none.mp h3)).mpr ?_
    have hcast : ((d1 : Int) * 16 + d2) = ((d1 * 16 + d2 : Nat) : Int) := by omega
    rw [charOf_of_le (by omega)]
    simp only [h2, h3, hcast, fromInt32_of_le (show d1 * 16 + d2 ≤ 255 by omega), Option.map_some]
  obtain ⟨c3, d3, hm2, hd3, rfl⟩ := scanHexDigit_eq_some.mp h3
  refine (scans_none_of_max hs hs1 fun rest v t hrest hread hmax => ?_).mpr
    (by simp only [h2, h3])
  have hthree : Reads getc s2 (List.replicate k (chr '0') ++ [c1, c2, c3]) m3 :=
    hzeros.append (.cons hm (.cons hm1 (.one hm2)))
  have hnumber : number 16 (List.replicate k (chr '0') ++ [c1, c2, c3]) =
      some ((d1 * 16 + d2) * 16 + d3) := by
    rw [number_behind_zeros]
    simp [number, numberFrom, hd1, hd2, hd3]
  obtain ⟨z, rfl, -⟩ := hthree.comparable hread
    (hmax _ _ m3 (.hex rfl (by simp) hnumber) hthree)
  obtain ⟨-, n, hn, rfl⟩ := hrest.of_hex rfl
  rw [number, numberFrom_append] at hn
  rw [number] at hnumber
  rw [hnumber, Option.bind_some] at hn
  have hge := (numberFrom_bounds hn).1
  have hpow : 0 < 16 ^ z.length := Nat.pow_pos (by decide)
  have hbig : (d1 * 16 + d2) * 16 + d3 ≤ n :=
    Nat.le_trans (Nat.le_mul_of_pos_right _ hpow) hge
  rw [charOf, if_neg (by omega)]

/-! The scanner. -/

theorem badCEscape_caret (hs : getc s = some (chr '\\', s1))
    (hs1 : getc s1 = some (chr '^', s2)) (hs2 : getc s2 = some (c', t)) :
    BadCEscape getc s ↔ controlChar c' = none := by
  constructor
  · rintro (⟨c, u, hread, hc⟩ | ⟨digits, n, u, hlen, hnumber, -, hread⟩)
    · obtain ⟨rest, heq, -, hrest⟩ := item_reads hs hs1 (.control c) hread
      cases heq
      obtain ⟨u', hs2', -⟩ := Reads.cons_iff.mp hrest
      cases hs2.symm.trans hs2'
      exact hc
    · obtain ⟨rest, heq, hrest, -⟩ := item_reads hs hs1 (.octal (by omega) hnumber) hread
      simp only [List.cons.injEq, true_and] at heq
      subst heq
      obtain ⟨d, hd, -⟩ := numberFrom_eq_some_cons.mp hnumber
      exact absurd rfl (octDigit_plain hd).1
  · intro hc
    exact .inl ⟨c', t, .cons hs (.cons hs1 (.one hs2)), hc⟩

/-- Behind a backslash only a caret and octal digits can be bad. -/
theorem badCEscape_cases (hs : getc s = some (chr '\\', s1)) (hs1 : getc s1 = some (c, s2))
    (h : BadCEscape getc s) : (c = chr '^' ∧ ∃ c' t, getc s2 = some (c', t)) ∨
      ∃ d rest n t, digit 8 c = some d ∧ rest.length = 2 ∧ number 8 (c :: rest) = some n ∧
        255 < n ∧ Reads getc s2 rest t := by
  rcases h with ⟨c', u, hread, hc⟩ | ⟨digits, n, u, hlen, hnumber, hn, hread⟩
  · obtain ⟨rest, heq, -, hrest⟩ := item_reads hs hs1 (.control c') hread
    cases heq
    obtain ⟨u', hs2, -⟩ := Reads.cons_iff.mp hrest
    exact .inl ⟨rfl, c', u', hs2⟩
  · obtain ⟨rest, heq, -, hrest⟩ := item_reads hs hs1 (.octal (by omega) hnumber) hread
    simp only [List.cons.injEq, true_and] at heq
    subst heq
    obtain ⟨d, hd, -⟩ := numberFrom_eq_some_cons.mp hnumber
    exact .inr ⟨d, rest, n, u, hd, by simpa using hlen, hnumber, hn, hrest⟩

/-- The result is right, unless an escape sequence is bad. -/
def CResult (getc : Reader UInt8 σ) (s : σ) (r : Option (UInt8 × σ)) : Prop :=
  (¬ BadCEscape getc s ∧ Scans CItem getc s r) ∨
    (BadCEscape getc s ∧ r ≠ none ∧ Scans CItem getc s none)

theorem czerosEnd_of_ne (hs : getc s = some (chr '\\', s1)) (hs1 : getc s1 = some (c, s2))
    (hc : c ≠ chr 'x') : CZerosEnd getc s := by
  intro t hread
  obtain ⟨s1', hs', hread⟩ := Reads.cons_iff.mp hread
  cases hs.symm.trans hs'
  obtain ⟨s2', hs1', -⟩ := Reads.cons_iff.mp hread
  cases hs1.symm.trans hs1'
  exact absurd rfl hc

theorem cresult_letter (hs : getc s = some (chr '\\', s1))
    (hs1 : getc s1 = some (c, s2)) (hletter : (c, c') ∈ cLetters) :
    CResult getc s (some (c', s2)) := by
  obtain ⟨hcaret, -, hdigit⟩ := cLetters_plain _ hletter
  refine .inl ⟨fun hbad => ?_, ?_⟩
  · rcases badCEscape_cases hs hs1 hbad with ⟨hc, -⟩ | ⟨d, -, -, -, hd, -⟩
    · exact hcaret hc
    · exact absurd (hd.symm.trans hdigit) (by simp)
  · refine (scans_iff_of_max hs hs1 (.letter hletter) (.nil s2) ?_).mpr rfl
    intro rest' v' t' hrest' hread'
    exact Nat.le_of_eq (congrArg List.length (hrest'.of_letter hletter).1)

theorem cresult_none (hs : getc s = some (chr '\\', s1)) (hs1 : getc s1 = some (c, s2))
    (hnone : ∀ rest v t, CEscape c rest v → ¬ Reads getc s2 rest t) : CResult getc s none := by
  refine .inl ⟨fun hbad => ?_, ?_⟩
  · rcases badCEscape_cases hs hs1 hbad with ⟨hc, c', t, hs2⟩ | ⟨d, rest, n, t, hd, hlen,
      hnumber, -, hread⟩
    · exact hnone _ _ t (.control hc) (.one hs2)
    · exact hnone _ _ t (.octal (by omega) hnumber) hread
  · refine (scans_none_of_max hs hs1 fun rest v t hrest hread _ => ?_).mpr rfl
    exact absurd hread (hnone rest v t hrest)

theorem cresult_octal (hs : getc s = some (chr '\\', s1))
    (hs1 : getc s1 = some (c, s2)) (hd : digit 8 c = some d) :
    CResult getc s (scanCOct getc s1) := by
  obtain ⟨rest, n, t, hlen, hnumber, hread, hscan, hscans⟩ := scanCOct_scans hs hs1 hd
  rw [hscan]
  by_cases hn : n ≤ 255
  · refine .inl ⟨fun hbad => ?_, ?_⟩
    · rcases badCEscape_cases hs hs1 hbad with ⟨hc, -⟩ | ⟨d', rest', n', t', hd', hlen',
        hnumber', hn', hread'⟩
      · exact (octDigit_plain hd).1 hc
      · have hmax := scans_iff_of_max hs hs1 (r := (charOf n).map (·, t))
          (.octal (by omega) hnumber') hread' fun rest v t hrest _ => by
            have hle := (hrest.of_octal hd).1
            omega
        have heq := hmax.mp ((hscans _).mpr rfl)
        rw [charOf_of_le hn, charOf, if_neg (by omega)] at heq
        cases heq
    · rw [hscans, charOf_of_le hn, fromInt32_of_le hn]
      rfl
  · refine .inr ⟨.inr ⟨c :: rest, n, t, ?_, hnumber, by omega, .cons hs (.cons hs1 hread)⟩,
      by simp, ?_⟩
    · have hlt := (numberFrom_bounds hnumber).2
      rw [List.length_cons] at hlt ⊢
      by_contra hshort
      have hle : (0 + 1) * 8 ^ (rest.length + 1) ≤ 8 ^ 2 := by
        rw [Nat.zero_add, Nat.one_mul]
        exact Nat.pow_le_pow_right (by decide) (by omega)
      omega
    · rw [hscans, charOf, if_neg hn]
      rfl

/-- The branches of `scanCChar` behind a backslash. -/
theorem scanCChar_backslash (hs : getc s = some (chr '\\', s1)) :
    scanCChar getc fuel s =
      match scanEscapeSequence getc s1 with
      | some scanned => .ok (some scanned)
      | none =>
        match getc s1 with
        | none => .ok none
        | some (c, s2) =>
          if c = chr '?' then .ok (some (chr '?', s2))
          else if c = chr '\'' then .ok (some (chr '\'', s2))
          else if c = chr 'x' then
            match getc s2 with
            | some (c, s3) =>
              if c = chr '0' then
                (skipZero getc fuel s3).map (scanCHex getc true)
              else .ok (scanCHex getc false s2)
            | none => .ok (scanCHex getc false s2)
          else .ok (scanCOct getc s1) := by
  rw [scanCChar, hs]
  rfl

theorem scanCChar_hex (hs : getc s = some (chr '\\', s1))
    (hs1 : getc s1 = some (chr 'x', s2)) :
    scanCChar getc fuel s =
      match getc s2 with
      | some (c, s3) =>
        if c = chr '0' then (skipZero getc fuel s3).map (scanCHex getc true)
        else .ok (scanCHex getc false s2)
      | none => .ok (scanCHex getc false s2) := by
  have hletter : escapeLetter (chr 'x') = none := by decide
  have hquestion : chr 'x' ≠ chr '?' := by decide
  have hquote : chr 'x' ≠ chr '\'' := by decide
  rw [scanCChar_backslash hs, scanEscapeSequence_letter hs1 (by decide), hletter]
  simp only [Option.map_none, hs1, if_neg hquestion, if_neg hquote, if_true]

theorem scanCChar_hex_ok (hs : getc s = some (chr '\\', s1))
    (hs1 : getc s1 = some (chr 'x', s2)) (h : scanCChar getc fuel s = .ok r) :
    ZerosEnd getc s2 ∧ ∃ k m, Reads getc s2 (List.replicate k (chr '0')) m ∧
      (∀ u, getc m ≠ some (chr '0', u)) ∧ r = scanCHex getc (decide (0 < k)) m := by
  rw [scanCChar_hex hs hs1] at h
  have hplain : (∀ u, getc s2 ≠ some (chr '0', u)) → r = scanCHex getc false s2 →
      ZerosEnd getc s2 ∧ ∃ k m, Reads getc s2 (List.replicate k (chr '0')) m ∧
        (∀ u, getc m ≠ some (chr '0', u)) ∧ r = scanCHex getc (decide (0 < k)) m :=
    fun hstop hr => ⟨.stop hstop, 0, s2, .nil s2, hstop, hr⟩
  split at h
  · rename_i c s3 hs2
    split at h
    · rename_i hc
      subst hc
      rcases hskip : skipZero getc fuel s3 with e | m <;> rw [hskip] at h
      · cases h
      obtain ⟨hend, k, hread, hstop⟩ := skipZero_ok hskip
      exact ⟨.skip hs2 hend, k + 1, m, .cons hs2 hread, hstop, (Except.ok.inj h).symm⟩
    · rename_i hc
      exact hplain (by simp [hs2, hc]) (Except.ok.inj h).symm
  · rename_i hs2
    exact hplain (by simp [hs2]) (Except.ok.inj h).symm

theorem scans_plain {item : List UInt8 → Option UInt8 → Prop}
    (hnone : ∀ w v t, item w v → ¬ Reads getc s w t) : Scans item getc s none :=
  (scans_none_iff hnone).mpr rfl

theorem reads_ne_nil (hw : CItem w v) (hread : Reads getc s w t) :
    ∃ c s', getc s = some (c, s') := by
  cases hread with
  | nil => cases hw
  | cons head tail => exact ⟨_, _, head⟩

theorem badCEscape_reads (h : BadCEscape getc s) :
    ∃ s1 c s2, getc s = some (chr '\\', s1) ∧ getc s1 = some (c, s2) := by
  rcases h with ⟨c', u, hread, -⟩ | ⟨digits, n, u, hlen, -, -, hread⟩
  · obtain ⟨s1, hs, hread⟩ := Reads.cons_iff.mp hread
    obtain ⟨s2, hs1, -⟩ := Reads.cons_iff.mp hread
    exact ⟨s1, _, s2, hs, hs1⟩
  · obtain ⟨s1, hs, hread⟩ := Reads.cons_iff.mp hread
    cases digits with
    | nil => simp at hlen
    | cons c digits =>
      obtain ⟨s2, hs1, -⟩ := Reads.cons_iff.mp hread
      exact ⟨s1, c, s2, hs, hs1⟩

theorem czerosEnd_of_no_backslash
    (hnone : ∀ s1 c s2, getc s = some (chr '\\', s1) → getc s1 ≠ some (c, s2)) :
    CZerosEnd getc s := by
  intro t hread
  obtain ⟨s1, hs, hread⟩ := Reads.cons_iff.mp hread
  obtain ⟨s2, hs1, -⟩ := Reads.cons_iff.mp hread
  exact absurd hs1 (hnone s1 _ s2 hs)

/-- Nothing bad stands where no escape sequence begins. -/
theorem cresult_plain (hnone : ∀ s1 c s2, getc s = some (chr '\\', s1) → getc s1 ≠ some (c, s2))
    (hscans : Scans CItem getc s r) : CZerosEnd getc s ∧ CResult getc s r := by
  refine ⟨czerosEnd_of_no_backslash hnone, .inl ⟨fun hbad => ?_, hscans⟩⟩
  obtain ⟨s1, c, s2, hs, hs1⟩ := badCEscape_reads hbad
  exact hnone s1 c s2 hs hs1

theorem scanEscapeSequence_caret_end (hs : getc s = some (chr '^', s1))
    (hs1 : getc s1 = none) : scanEscapeSequence getc s = none := by
  rw [scanEscapeSequence, hs]
  simp [hs1]

/-- What `scanCChar` returns is right, unless an escape sequence is bad. -/
theorem scanCChar_ok (h : scanCChar getc fuel s = .ok r) :
    CZerosEnd getc s ∧ CResult getc s r := by
  rcases hs : getc s with _ | ⟨c0, s1⟩
  · rw [scanCChar, hs] at h
    cases h
    refine cresult_plain (by simp [hs]) (scans_plain fun w v t hw hread => ?_)
    obtain ⟨c, s', hs'⟩ := reads_ne_nil hw hread
    cases hs.symm.trans hs'
  by_cases hc0 : c0 = chr '\\'
  swap
  · have hreads : ∀ w v t, CItem w v → Reads getc s w t →
        w = [c0] ∧ v = some c0 ∧ t = s1 ∧ 32 ≤ c0 ∧ c0 ≤ 126 := by
      intro w v t hw hread
      cases hread with
      | nil => cases hw
      | cons head tail =>
        cases hs.symm.trans head
        obtain ⟨rfl, rfl, hprint⟩ := hw.cases_plain hc0
        exact ⟨rfl, rfl, (Reads.nil_iff.mp tail).symm, hprint⟩
    rw [scanCChar, hs] at h
    simp only [if_neg hc0] at h
    refine cresult_plain (by simp [hs, hc0]) ?_
    split at h
    · rename_i hprint
      cases h
      refine .inl ⟨[c0], s1, some c0, ⟨.one hs, ⟨_, .printable hprint hc0⟩, ?_⟩,
        .printable hprint hc0, rfl⟩
      rintro w' t' hread' ⟨v', hw'⟩
      exact Nat.le_of_eq (congrArg List.length (hreads w' v' t' hw' hread').1)
    · rename_i hprint
      cases h
      exact scans_plain fun w v t hw hread => hprint (hreads w v t hw hread).2.2.2
  subst hc0
  rcases hs1 : getc s1 with _ | ⟨c, s2⟩
  · rw [scanCChar_backslash hs, scanEscapeSequence] at h
    simp only [hs1] at h
    cases h
    have hend : ∀ s1' c s2, getc s = some (chr '\\', s1') → getc s1' ≠ some (c, s2) := by
      intro s1' c s2 hs' hs1'
      cases hs.symm.trans hs'
      cases hs1.symm.trans hs1'
    refine cresult_plain hend (scans_plain fun w v t hw hread => ?_)
    cases hread with
    | nil => cases hw
    | cons head tail =>
      cases hs.symm.trans head
      obtain ⟨c', rest, rfl, -⟩ := hw.cases_backslash
      obtain ⟨s2, hs1', -⟩ := Reads.cons_iff.mp tail
      exact hend s1 c' s2 hs hs1'
  by_cases hx : c = chr 'x'
  · subst hx
    obtain ⟨hend, k, m, hread, hstop, rfl⟩ := scanCChar_hex_ok hs hs1 h
    refine ⟨fun t ht => ?_, .inl ⟨fun hbad => ?_, scanCHex_scans hs hs1 hread hstop⟩⟩
    · cases (Reads.cons hs (.one hs1)).unique ht
      exact hend
    · rcases badCEscape_cases hs hs1 hbad with ⟨hc, -⟩ | ⟨d, -, -, -, hd, -⟩
      · exact absurd hc (by decide)
      · exact (octDigit_plain hd).2.1 rfl
  refine ⟨czerosEnd_of_ne hs hs1 hx, ?_⟩
  rw [scanCChar_backslash hs] at h
  by_cases hcaret : c = chr '^'
  · subst hcaret
    have hplain : NoDigit getc 8 s1 := by
      intro c' t hc'
      cases hs1.symm.trans hc'
      decide
    rcases hs2 : getc s2 with _ | ⟨c', t⟩
    · have hquestion : chr '^' ≠ chr '?' := by decide
      have hquote : chr '^' ≠ chr '\'' := by decide
      simp only [scanEscapeSequence_caret_end hs1 hs2, hs1, if_neg hquestion, if_neg hquote,
        if_neg hx, scanCOct_none hplain] at h
      cases h
      refine cresult_none hs hs1 fun rest v t hrest hread => ?_
      obtain ⟨c', rfl, -⟩ := hrest.of_caret rfl
      obtain ⟨u, hs2', -⟩ := Reads.cons_iff.mp hread
      cases hs2.symm.trans hs2'
    · simp only [scanEscapeSequence_caret hs1 hs2] at h
      cases h
      have hscans : ∀ r, Scans CItem getc s r ↔ r = (controlChar c').map (·, t) := by
        intro r
        apply scans_iff_of_max hs hs1 (.control rfl) (.one hs2)
        intro rest' v' t' hrest' hread'
        obtain ⟨c'', rfl, -⟩ := hrest'.of_caret rfl
        exact Nat.le_refl 1
      rw [CResult, badCEscape_caret hs hs1 hs2, hscans, hscans]
      rcases hc : controlChar c' with _ | c''
      · exact .inr ⟨rfl, by simp, rfl⟩
      · refine .inl ⟨by simp, ?_⟩
        rw [controlChar] at hc
        split at hc
        · rw [← Option.some.inj hc]
          rfl
        · cases hc
  rw [scanEscapeSequence_letter hs1 hcaret] at h
  rcases hletter : escapeLetter c with _ | c'
  swap
  · rw [hletter] at h
    cases h
    exact cresult_letter hs hs1 (List.mem_append_left _ (escapeLetter_iff.mp hletter))
  rw [hletter] at h
  simp only [Option.map_none, hs1] at h
  by_cases hquestion : c = chr '?'
  · subst hquestion
    simp only [if_true] at h
    cases h
    exact cresult_letter hs hs1 (by decide)
  by_cases hquote : c = chr '\''
  · subst hquote
    simp only [if_neg hquestion, if_true] at h
    cases h
    exact cresult_letter hs hs1 (by decide)
  simp only [if_neg hquestion, if_neg hquote, if_neg hx] at h
  cases h
  rcases hd : digit 8 c with _ | d
  · have hplain : NoDigit getc 8 s1 := by
      intro c' t hc'
      cases hs1.symm.trans hc'
      exact hd
    rw [scanCOct_none hplain]
    refine cresult_none hs hs1 fun rest v t hrest hread => ?_
    cases hrest with
    | letter hmem =>
      rcases List.mem_append.mp hmem with hmem | hmem
      · rw [escapeLetter_iff.mpr hmem] at hletter
        cases hletter
      · simp only [List.mem_cons, Prod.mk.injEq, List.not_mem_nil, or_false] at hmem
        rcases hmem with ⟨rfl, -⟩ | ⟨rfl, -⟩
        · exact hquestion rfl
        · exact hquote rfl
    | control hc => exact hcaret hc
    | octal hlen hnumber =>
      obtain ⟨d, hd', -⟩ := numberFrom_eq_some_cons.mp hnumber
      exact absurd (hd'.symm.trans hd) (by simp)
    | hex hc => exact hx hc
  · exact cresult_octal hs hs1 hd

/-- With enough fuel `scanCChar` returns, if the zeros come to an end. -/
theorem scanCChar_returns (h : CZerosEnd getc s) :
    ∃ n, ∀ fuel, n ≤ fuel → ∃ r, scanCChar getc fuel s = .ok r := by
  by_cases hhex : ∃ s1 s2, getc s = some (chr '\\', s1) ∧ getc s1 = some (chr 'x', s2)
  · obtain ⟨s1, s2, hs, hs1⟩ := hhex
    obtain ⟨n, hn⟩ := skipZero_returns (h s2 (.cons hs (.one hs1)))
    refine ⟨n, fun fuel hfuel => ?_⟩
    obtain ⟨t, ht⟩ := hn (fuel + 1) (by omega)
    rw [scanCChar_hex hs hs1]
    rw [skipZero] at ht
    split
    · rename_i c s3 hs2
      rw [hs2] at ht
      split
      · rename_i hc
        simp only [if_pos hc] at ht
        exact ⟨_, by rw [ht]; rfl⟩
      · exact ⟨_, rfl⟩
    · exact ⟨_, rfl⟩
  · refine ⟨0, fun fuel _ => ?_⟩
    rcases hs : getc s with _ | ⟨c0, s1⟩
    · exact ⟨none, by rw [scanCChar, hs]⟩
    by_cases hc0 : c0 = chr '\\'
    · subst hc0
      rw [scanCChar_backslash hs]
      split
      · exact ⟨_, rfl⟩
      · split
        · exact ⟨_, rfl⟩
        · rename_i c s2 hs1
          have hx : c ≠ chr 'x' := fun hc => hhex ⟨s1, s2, hs, hc ▸ hs1⟩
          rw [if_neg hx]
          split
          · exact ⟨_, rfl⟩
          · split <;> exact ⟨_, rfl⟩
    · rw [scanCChar, hs]
      simp only [if_neg hc0]
      split <;> exact ⟨_, rfl⟩

theorem CItem.value_unique (w : List UInt8) (v v' : Option UInt8) (h : CItem w v)
    (h' : CItem w v') : v = v' := by
  cases w with
  | nil => cases h
  | cons c w =>
    by_cases hc : c = chr '\\'
    · subst hc
      obtain ⟨c1, rest, rfl, hrest⟩ := h.cases_backslash
      obtain ⟨c2, rest', heq, hrest'⟩ := h'.cases_backslash
      cases heq
      exact hrest.value_unique hrest'
    · rw [(h.cases_plain hc).2.1, (h'.cases_plain hc).2.1]

theorem Scans.unique {item : List UInt8 → Option UInt8 → Prop} {r' : Option (UInt8 × σ)}
    (hitem : ∀ w v v', item w v → item w v' → v = v') (h : Scans item getc s r)
    (h' : Scans item getc s r') : r = r' := by
  rcases h with ⟨w, t, v, hlongest, hw, rfl⟩ | ⟨hnone, rfl⟩
  · rcases h' with ⟨w', t', v', hlongest', hw', rfl⟩ | ⟨hnone', -⟩
    · obtain ⟨rfl, rfl⟩ := hlongest.unique hlongest'
      rw [hitem w v v' hw hw']
    · exact absurd hlongest (hnone' w t)
  · rcases h' with ⟨w', t', v', hlongest', -⟩ | ⟨-, rfl⟩
    · exact absurd hlongest' (hnone w' t')
    · rfl

/-- `scanCChar` is exact where the zeros come to an end and no escape sequence is bad. -/
theorem scanCChar_exact : (∃ fuel r, scanCChar getc fuel s = .ok r ∧ Scans CItem getc s r) ↔
    ¬ BadCEscape getc s ∧ CZerosEnd getc s := by
  constructor
  · rintro ⟨fuel, r, h, hscans⟩
    obtain ⟨hend, ⟨hgood, -⟩ | ⟨hbad, hr, hnone⟩⟩ := scanCChar_ok h
    · exact ⟨hgood, hend⟩
    · exact absurd (Scans.unique CItem.value_unique hscans hnone) hr
  · rintro ⟨hgood, hend⟩
    obtain ⟨n, hn⟩ := scanCChar_returns hend
    obtain ⟨r, hr⟩ := hn n (Nat.le_refl n)
    obtain ⟨-, ⟨-, hscans⟩ | ⟨hbad, -⟩⟩ := scanCChar_ok hr
    · exact ⟨n, r, hr, hscans⟩
    · exact absurd hbad hgood

end Scan

end ScanChar

end SmlSharp
