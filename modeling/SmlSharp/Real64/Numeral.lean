/-
What a string of decimal digits with a sign, a point and an exponent denotes.
-/
import SmlSharp.Real64.Format
import Mathlib.Tactic.Ring
import Mathlib.Tactic.FieldSimp
import Mathlib.Algebra.Order.Field.Rat

namespace SmlSharp.Real64

/-- The number that decimal digits denote. -/
def digitsValue (digits : List Char) : Nat :=
  digits.foldl (fun value c => 10 * value + (c.toNat - '0'.toNat)) 0

/-- `0.d1 ... dn` times the power of ten, with the sign. -/
def decimalValue (sign : Bool) (digits : List Char) (decpt : Int) : Rat :=
  (if sign then -1 else 1) * (digitsValue digits / 10 ^ digits.length * 10 ^ decpt)

structure Numeral where
  negative : Bool
  int : List Char
  frac : List Char
  exp : Int
deriving DecidableEq

def Numeral.value (numeral : Numeral) : Rat :=
  (if numeral.negative then -1 else 1) *
    (digitsValue (numeral.int ++ numeral.frac) / 10 ^ numeral.frac.length * 10 ^ numeral.exp)

def readSign : List Char → Bool × List Char
  | '~' :: s => (true, s)
  | s => (false, s)

def readFrac : List Char → Option (List Char × List Char)
  | '.' :: s =>
    if s.takeWhile Char.isDigit = [] then none
    else some (s.takeWhile Char.isDigit, s.dropWhile Char.isDigit)
  | s => some ([], s)

def readExp : List Char → Option Int
  | [] => some 0
  | 'E' :: s =>
    let (negative, s) := readSign s
    if s ≠ [] ∧ s.all Char.isDigit then
      some (if negative then -digitsValue s else digitsValue s)
    else none
  | _ => none

/-- Read a numeral: digits, a point with digits and an exponent, the last two of
which may be missing. -/
def readNumeral (s : List Char) : Option Numeral := do
  let (negative, s) := readSign s
  let int := s.takeWhile Char.isDigit
  if int = [] then none
  let (frac, s) ← readFrac (s.dropWhile Char.isDigit)
  let exp ← readExp s
  return ⟨negative, int, frac, exp⟩

def signChars (sign : Bool) : List Char := if sign then ['~'] else []

def fracChars (frac : List Char) : List Char := if frac = [] then [] else '.' :: frac

def AllDigits (digits : List Char) : Prop := ∀ c ∈ digits, c.isDigit = true

theorem AllDigits.append {xs ys : List Char} (hxs : AllDigits xs) (hys : AllDigits ys) :
    AllDigits (xs ++ ys) := by
  intro c hc
  rcases List.mem_append.1 hc with hc | hc
  · exact hxs c hc
  · exact hys c hc

theorem AllDigits.zeroes (n : Nat) : AllDigits (List.replicate n '0') := by
  intro c hc
  rw [List.eq_of_mem_replicate hc]
  rfl

theorem AllDigits.of_subset {xs ys : List Char} (hys : AllDigits ys) (hsub : xs ⊆ ys) :
    AllDigits xs := fun c hc => hys c (hsub hc)

/-- The rest of a string that does not go on with a digit. -/
def Stops (rest : List Char) : Prop := ∀ c s, rest = c :: s → c.isDigit = false

theorem takeWhile_digits {digits rest : List Char} (hdigits : AllDigits digits)
    (hrest : Stops rest) : (digits ++ rest).takeWhile Char.isDigit = digits := by
  rw [List.takeWhile_append_of_pos hdigits]
  cases rest with
  | nil => simp
  | cons c s => simp [hrest c s rfl]

theorem dropWhile_digits {digits rest : List Char} (hdigits : AllDigits digits)
    (hrest : Stops rest) : (digits ++ rest).dropWhile Char.isDigit = rest := by
  rw [List.dropWhile_append_of_pos hdigits]
  cases rest with
  | nil => simp
  | cons c s => simp [hrest c s rfl]

theorem readSign_digits {s : List Char} (h : ∀ c rest, s = c :: rest → c.isDigit = true) :
    readSign s = (false, s) := by
  unfold readSign
  split
  · have := h _ _ rfl
    simp [Char.isDigit] at this
  · rfl

theorem readFrac_fracChars {frac rest : List Char} (hfrac : AllDigits frac)
    (hrest : Stops rest) (hpoint : ∀ s, rest ≠ '.' :: s) :
    readFrac (fracChars frac ++ rest) = some (frac, rest) := by
  cases frac with
  | nil =>
    rw [fracChars, if_pos rfl, List.nil_append]
    unfold readFrac
    split
    · next s => exact absurd rfl (hpoint s)
    · rfl
  | cons c frac =>
    rw [fracChars, if_neg (by simp), List.cons_append]
    simp only [readFrac]
    rw [takeWhile_digits hfrac hrest, dropWhile_digits hfrac hrest, if_neg (by simp)]

theorem stops_fracChars {frac rest : List Char} (hrest : Stops rest) :
    Stops (fracChars frac ++ rest) := by
  unfold fracChars
  split
  · exact hrest
  · intro c s heq
    rw [List.cons_append, List.cons.injEq] at heq
    rw [← heq.1]
    rfl

theorem readNumeral_chars (sign : Bool) {int frac rest : List Char} {exp : Int}
    (hint : int ≠ []) (hintDigits : AllDigits int) (hfrac : AllDigits frac) (hrest : Stops rest)
    (hpoint : ∀ s, rest ≠ '.' :: s) (hexp : readExp rest = some exp) :
    readNumeral (signChars sign ++ (int ++ (fracChars frac ++ rest))) =
      some ⟨sign, int, frac, exp⟩ := by
  have hsign : readSign (signChars sign ++ (int ++ (fracChars frac ++ rest))) =
      (sign, int ++ (fracChars frac ++ rest)) := by
    cases sign with
    | true => rfl
    | false =>
      refine readSign_digits fun c s heq => ?_
      cases int with
      | nil => exact absurd rfl hint
      | cons c' int =>
        rw [signChars, if_neg (by simp), List.nil_append, List.cons_append,
          List.cons.injEq] at heq
        exact hintDigits c (by rw [heq.1]; exact List.mem_cons_self)
  have hstops : Stops (fracChars frac ++ rest) := stops_fracChars hrest
  simp only [readNumeral, hsign, takeWhile_digits hintDigits hstops,
    dropWhile_digits hintDigits hstops, readFrac_fracChars hfrac hrest hpoint, if_neg hint,
    Option.bind_eq_bind, Option.bind_some, hexp]
  rfl

theorem digitsValue_append_zeroes (digits : List Char) (n : Nat) :
    digitsValue (digits ++ List.replicate n '0') = digitsValue digits * 10 ^ n := by
  induction n with
  | zero => simp
  | succ n ih =>
    rw [List.replicate_succ', ← List.append_assoc]
    rw [digitsValue, List.foldl_append]
    rw [digitsValue] at ih
    rw [ih, pow_succ, ← mul_assoc]
    simp only [List.foldl_cons, List.foldl_nil]
    omega

theorem digitsValue_zeroes_append (n : Nat) (digits : List Char) :
    digitsValue (List.replicate n '0' ++ digits) = digitsValue digits := by
  have hzeroes : (List.replicate n '0').foldl
      (fun value c => 10 * value + (c.toNat - '0'.toNat)) 0 = 0 := by
    induction n with
    | zero => rfl
    | succ n ih => simpa [List.replicate_succ] using ih
  rw [digitsValue, List.foldl_append, hzeroes, digitsValue]

/-- Digits that are moved by a number of places against the point. -/
theorem Numeral.value_eq {sign : Bool} {int frac digits : List Char} {decpt exp : Int} {k : Nat}
    (hdigits : digitsValue (int ++ frac) = digitsValue digits * 10 ^ k)
    (hk : (k : Int) + exp = frac.length + decpt - digits.length) :
    (⟨sign, int, frac, exp⟩ : Numeral).value = decimalValue sign digits decpt := by
  have hten : (10 : Rat) ≠ 0 := by norm_num
  rw [Numeral.value, decimalValue]
  simp only
  rw [hdigits, Nat.cast_mul, Nat.cast_pow, Nat.cast_ofNat]
  congr 1
  have hpow : (10 : Rat) ^ k * 10 ^ exp / 10 ^ frac.length = 10 ^ decpt / 10 ^ digits.length := by
    rw [← zpow_natCast, ← zpow_natCast, ← zpow_natCast, ← zpow_add₀ hten, ← zpow_sub₀ hten,
      ← zpow_sub₀ hten]
    congr 1
    omega
  calc (digitsValue digits : Rat) * 10 ^ k / 10 ^ frac.length * 10 ^ exp
      = digitsValue digits * (10 ^ k * 10 ^ exp / 10 ^ frac.length) := by ring
    _ = digitsValue digits * (10 ^ decpt / 10 ^ digits.length) := by rw [hpow]
    _ = digitsValue digits / 10 ^ digits.length * 10 ^ decpt := by ring

end SmlSharp.Real64
