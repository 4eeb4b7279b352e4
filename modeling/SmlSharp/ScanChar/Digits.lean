/-
What the scanners for digits and for letters read.
-/
import Mathlib.Algebra.Ring.Nat
import SmlSharp.ScanChar.Grammar

namespace SmlSharp

namespace ScanChar

/-- A property of all characters is tested on all of them. -/
theorem forall_char {p : UInt8 → Prop} (h : ∀ n < 256, p (UInt8.ofNat n)) (c : UInt8) : p c := by
  have hc := h c.toNat c.toNat_lt
  rwa [UInt8.ofNat_toNat] at hc

/-- A property of the entries of a list is tested on them, and on nothing else. -/
theorem forall_mem_of_all {α : Type} {l : List α} {p : α → Prop} [DecidablePred p]
    (h : l.all (fun a => decide (p a)) = true) : ∀ a ∈ l, p a := by
  intro a ha
  exact of_decide_eq_true (List.all_eq_true.mp h a ha)

/-- The tables of the source, compared character by character with those of the grammar. -/
theorem tables_eq (c : UInt8) : (isSpace c = true ↔ c ∈ formatting) ∧
    (escapeLetter c).toList.all (fun l => decide ((c, l) ∈ letters)) = true ∧
    decDigit c = (digit 10 c).map Nat.cast ∧ octDigit c = (digit 8 c).map Nat.cast ∧
      hexDigit c = (digit 16 c).map Nat.cast := by
  revert c
  exact forall_char (by decide +kernel)

theorem isSpace_iff (c : UInt8) : isSpace c = true ↔ c ∈ formatting :=
  (tables_eq c).1

theorem escapeLetter_iff {l c : UInt8} : escapeLetter l = some c ↔ (l, c) ∈ letters := by
  have hsome : ∀ l c, escapeLetter l = some c → (l, c) ∈ letters := by
    intro l c hc
    exact forall_mem_of_all (tables_eq l).2.1 c (Option.mem_toList.mpr hc)
  have hletter : ∀ p ∈ letters, escapeLetter p.1 = some p.2 :=
    forall_mem_of_all rfl
  exact ⟨hsome l c, hletter (l, c)⟩

theorem digits_eq (c : UInt8) :
    decDigit c = (digit 10 c).map Nat.cast ∧ octDigit c = (digit 8 c).map Nat.cast ∧
      hexDigit c = (digit 16 c).map Nat.cast :=
  (tables_eq c).2.2

theorem decDigit_eq (c : UInt8) : decDigit c = (digit 10 c).map Nat.cast :=
  (digits_eq c).1

theorem octDigit_eq (c : UInt8) : octDigit c = (digit 8 c).map Nat.cast :=
  (digits_eq c).2.1

theorem hexDigit_eq (c : UInt8) : hexDigit c = (digit 16 c).map Nat.cast :=
  (digits_eq c).2.2

theorem numberFrom_cons (radix n : Nat) (c : UInt8) (digits : List UInt8) :
    numberFrom radix n (c :: digits) =
      (digit radix c).bind fun d => numberFrom radix (n * radix + d) digits :=
  rfl

theorem numberFrom_eq_some_cons {radix n m : Nat} {c : UInt8} {digits : List UInt8} :
    numberFrom radix n (c :: digits) = some m ↔
      ∃ d, digit radix c = some d ∧ numberFrom radix (n * radix + d) digits = some m := by
  rw [numberFrom_cons, Option.bind_eq_some_iff]

theorem numberFrom_append {radix n : Nat} (xs ys : List UInt8) :
    numberFrom radix n (xs ++ ys) =
      (numberFrom radix n xs).bind fun m => numberFrom radix m ys := by
  induction xs generalizing n with
  | nil => rfl
  | cons c xs ih =>
    rw [List.cons_append, numberFrom_cons, numberFrom_cons]
    rcases digit radix c with _ | d
    · rfl
    · exact ih

theorem digit_lt {radix d : Nat} {c : UInt8} (h : digit radix c = some d) : d < radix := by
  rw [digit] at h
  simp only [Option.ite_none_right_eq_some, Option.some.injEq] at h
  obtain ⟨hlt, rfl⟩ := h
  exact hlt

/-- The size of a number with a given amount of digits. -/
theorem numberFrom_bounds {radix n m : Nat} {digits : List UInt8}
    (h : numberFrom radix n digits = some m) :
    n * radix ^ digits.length ≤ m ∧ m < (n + 1) * radix ^ digits.length := by
  induction digits generalizing n with
  | nil =>
    obtain rfl : n = m := Option.some.inj h
    simp only [List.length_nil, Nat.pow_zero, Nat.mul_one]
    omega
  | cons c digits ih =>
    obtain ⟨d, hd, hrest⟩ := numberFrom_eq_some_cons.mp h
    obtain ⟨hle, hlt⟩ := ih hrest
    have hdlt := digit_lt hd
    rw [List.length_cons, Nat.pow_succ']
    constructor
    · calc
        n * (radix * radix ^ digits.length) = n * radix * radix ^ digits.length := by
          rw [Nat.mul_assoc]
        _ ≤ (n * radix + d) * radix ^ digits.length :=
          Nat.mul_le_mul_right _ (Nat.le_add_right _ _)
        _ ≤ m := hle
    · calc
        m < (n * radix + d + 1) * radix ^ digits.length := hlt
        _ ≤ ((n + 1) * radix) * radix ^ digits.length := by
          apply Nat.mul_le_mul_right
          rw [Nat.add_mul, Nat.one_mul]
          omega
        _ = (n + 1) * (radix * radix ^ digits.length) := by rw [Nat.mul_assoc]

section Read

variable {σ : Type} {getc : Reader UInt8 σ} {s t : σ} {radix : Nat}
  {value : UInt8 → Option Int} {n : Int}

theorem scanValue_eq_some (hvalue : ∀ c, value c = (digit radix c).map Nat.cast) :
    scanValue getc value s = some (n, t) ↔
      ∃ c d, getc s = some (c, t) ∧ digit radix c = some d ∧ n = d := by
  rw [scanValue]
  cases hs : getc s with
  | none => simp
  | some p =>
    obtain ⟨c, t'⟩ := p
    simp only [hvalue, Option.map_map, Option.map_eq_some_iff, Function.comp_apply,
      Prod.mk.injEq, Option.some.injEq]
    constructor
    · rintro ⟨d, hd, rfl, rfl⟩
      exact ⟨c, d, ⟨rfl, rfl⟩, hd, rfl⟩
    · rintro ⟨c', d, ⟨rfl, rfl⟩, hd, rfl⟩
      exact ⟨d, hd, rfl, rfl⟩

theorem scanValue_eq_none (hvalue : ∀ c, value c = (digit radix c).map Nat.cast) :
    scanValue getc value s = none ↔ ∀ c t, getc s = some (c, t) → digit radix c = none := by
  rw [scanValue]
  cases hs : getc s with
  | none => simp
  | some p =>
    obtain ⟨c, t'⟩ := p
    simp [hvalue]

/-- A number of as many digits as are asked for. -/
def scanNumber (getc : Reader UInt8 σ) (value : UInt8 → Option Int) (radix : Nat) :
    Nat → Int → σ → Option (Int × σ)
  | 0, n, s => some (n, s)
  | k + 1, n, s => (scanValue getc value s).bind fun (d, t) =>
    scanNumber getc value radix k (n * radix + d) t

theorem scanNumber_eq_some (hvalue : ∀ c, value c = (digit radix c).map Nat.cast) {k : Nat}
    {n : Nat} {m : Int} : scanNumber getc value radix k n s = some (m, t) ↔
      ∃ digits r, digits.length = k ∧ numberFrom radix n digits = some r ∧ m = r ∧
        Reads getc s digits t := by
  induction k generalizing n s with
  | zero =>
    rw [scanNumber]
    constructor
    · rintro ⟨⟩
      exact ⟨[], n, rfl, rfl, rfl, .nil _⟩
    · rintro ⟨digits, r, hlen, hnumber, rfl, hread⟩
      rw [List.length_eq_zero_iff] at hlen
      subst hlen
      cases hnumber
      cases hread
      rfl
  | succ k ih =>
    rw [scanNumber, Option.bind_eq_some_iff]
    constructor
    · rintro ⟨⟨d, t'⟩, hfirst, hrest⟩
      obtain ⟨c, d', hs, hd, rfl⟩ := (scanValue_eq_some hvalue).mp hfirst
      obtain ⟨digits, r, hlen, hnumber, rfl, hread⟩ :=
        ih.mp (show scanNumber getc value radix k ((n * radix + d' : Nat) : Int) t' = _ by
          exact_mod_cast hrest)
      exact ⟨c :: digits, r, by rw [List.length_cons, hlen],
        numberFrom_eq_some_cons.mpr ⟨d', hd, hnumber⟩, rfl, .cons hs hread⟩
    · rintro ⟨digits, r, hlen, hnumber, rfl, hread⟩
      cases digits with
      | nil => simp at hlen
      | cons c digits =>
        obtain ⟨d, hd, hnumber⟩ := numberFrom_eq_some_cons.mp hnumber
        obtain ⟨t', hs, hread⟩ := Reads.cons_iff.mp hread
        refine ⟨(d, t'), (scanValue_eq_some hvalue).mpr ⟨c, d, hs, hd, rfl⟩, ?_⟩
        have hrest := ih.mpr ⟨digits, r, by simpa using hlen, hnumber, rfl, hread⟩
        exact_mod_cast hrest

theorem scanDec3_eq (s : σ) : scanDec3 getc s = scanNumber getc decDigit 10 3 (0 : Nat) s := by
  simp only [scanDec3, scanDigit, scanNumber]
  rcases scanValue getc decDigit s with _ | ⟨n1, s⟩
  · rfl
  rcases h : scanValue getc decDigit s with _ | ⟨n2, s⟩
  · simp [h]
  simp [h]

theorem scanHex4_eq (s : σ) : scanHex4 getc s = scanNumber getc hexDigit 16 4 (0 : Nat) s := by
  simp [scanHex4, scanHexDigit, scanNumber]

theorem scanDec3_eq_some : scanDec3 getc s = some (n, t) ↔
    ∃ digits r, digits.length = 3 ∧ number 10 digits = some r ∧ n = r ∧
      Reads getc s digits t := by
  rw [scanDec3_eq]
  exact scanNumber_eq_some decDigit_eq

theorem scanHex4_eq_some : scanHex4 getc s = some (n, t) ↔
    ∃ digits r, digits.length = 4 ∧ number 16 digits = some r ∧ n = r ∧
      Reads getc s digits t := by
  rw [scanHex4_eq]
  exact scanNumber_eq_some hexDigit_eq

end Read

end ScanChar

end SmlSharp
