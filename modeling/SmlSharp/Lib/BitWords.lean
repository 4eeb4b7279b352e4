/-
Bit strings held in lists of machine words, the low word first: reading one
bit, shifting the whole string left with carries, and comparing two strings.
-/
import Mathlib.Data.List.Basic

namespace SmlSharp

namespace BitWords

variable {width : Nat}

/-- The bit at one position, counted across all the words. -/
def bitAt : List (BitVec width) → Nat → Bool
  | [], _ => false
  | word :: words, i =>
    if i < width then word.getLsbD i else bitAt words (i - width)

/-- Shift the string left by `amount`, with `carry` entering from below. -/
def shiftLeft (amount : Nat) :
    BitVec width → List (BitVec width) → List (BitVec width)
  | carry, [] => [carry]
  | carry, word :: words =>
    (word <<< amount ||| carry) ::
      shiftLeft amount (word >>> (width - amount)) words

theorem length_shiftLeft (amount : Nat) (carry : BitVec width)
    (words : List (BitVec width)) :
    (shiftLeft amount carry words).length = words.length + 1 := by
  induction words generalizing carry with
  | nil => rfl
  | cons word words ih => simp [shiftLeft, ih]

theorem bitAt_of_length_le {words : List (BitVec width)} {i : Nat}
    (hle : width * words.length ≤ i) : bitAt words i = false := by
  induction words generalizing i with
  | nil => rfl
  | cons word words ih =>
    rw [List.length_cons, Nat.mul_succ] at hle
    have hnot : ¬ i < width := by
      have hmul := Nat.zero_le (width * words.length)
      omega
    rw [bitAt, if_neg hnot]
    exact ih (by omega)

/-- The bits of a shifted string: the carry below the amount, the old bits
above it. -/
theorem bitAt_shiftLeft {amount : Nat} (hamount : amount ≤ width)
    (words : List (BitVec width)) (carry : BitVec width)
    (hcarry : ∀ i, amount ≤ i → carry.getLsbD i = false) (i : Nat) :
    bitAt (shiftLeft amount carry words) i =
      if i < amount then carry.getLsbD i else bitAt words (i - amount) := by
  induction words generalizing carry i with
  | nil =>
    by_cases hi : i < width
    · by_cases hlow : i < amount
      · simp [shiftLeft, bitAt, hi, hlow]
      · have hbit := hcarry i (by omega)
        rw [BitVec.getLsbD_eq_getElem hi] at hbit
        simpa [shiftLeft, bitAt, hi, hlow] using hbit
    · have hlow : ¬ i < amount := by omega
      simp [shiftLeft, bitAt, hi, hlow]
  | cons word words ih =>
    by_cases hi : i < width
    · by_cases hlow : i < amount
      · simp [shiftLeft, bitAt, hi, hlow]
      · have hword : i - amount < width := by omega
        rw [shiftLeft, bitAt, if_pos hi, if_neg hlow, bitAt, if_pos hword,
          BitVec.getLsbD_or, hcarry i (by omega), Bool.or_false]
        simp [hi, hlow, BitVec.getLsbD_eq_getElem hword]
    · have hlow : ¬ i < amount := by omega
      have hnext : ∀ j, amount ≤ j →
          (word >>> (width - amount)).getLsbD j = false := by
        intro j hj
        rw [BitVec.getLsbD_ushiftRight]
        exact BitVec.getLsbD_of_ge word _ (by omega)
      rw [shiftLeft, bitAt, if_neg hi, ih _ hnext, if_neg hlow, bitAt]
      by_cases hcross : i - width < amount
      · have hword : i - amount < width := by omega
        have hindex : width - amount + (i - width) = i - amount := by omega
        rw [if_pos hcross, if_pos hword, BitVec.getLsbD_ushiftRight, hindex]
      · have hword : ¬ i - amount < width := by omega
        have hindex : i - width - amount = i - amount - width := by omega
        rw [if_neg hcross, if_neg hword, hindex]

/-- With nothing carried in, shifting moves every bit up by the amount. -/
theorem bitAt_shiftLeft_zero {amount : Nat} (hamount : amount ≤ width)
    (words : List (BitVec width)) (i : Nat) :
    bitAt (shiftLeft amount 0 words) i =
      (decide (amount ≤ i) && bitAt words (i - amount)) := by
  rw [bitAt_shiftLeft hamount words 0 (by simp)]
  by_cases hlow : i < amount
  · simp [hlow, Nat.not_le.mpr hlow]
  · simp [hlow, Nat.not_lt.mp hlow]

theorem bitAt_of_getElem? (hwidth : 0 < width) {words : List (BitVec width)}
    {i : Nat} {word : BitVec width} (hword : words[i / width]? = some word) :
    bitAt words i = word.getLsbD (i % width) := by
  induction words generalizing i with
  | nil => cases hword
  | cons first rest ih =>
    by_cases hi : i < width
    · rw [Nat.div_eq_of_lt hi] at hword
      cases hword
      rw [bitAt, if_pos hi, Nat.mod_eq_of_lt hi]
    · have hle : width ≤ i := Nat.not_lt.mp hi
      rw [Nat.div_eq_sub_div hwidth hle] at hword
      rw [bitAt, if_neg hi, ih hword, Nat.mod_eq_sub_mod hle]

theorem bitAt_append_left {words rest : List (BitVec width)} {i : Nat}
    (hlt : i < width * words.length) :
    bitAt (words ++ rest) i = bitAt words i := by
  induction words generalizing i with
  | nil => simp at hlt
  | cons word words ih =>
    rw [List.length_cons, Nat.mul_succ] at hlt
    by_cases hi : i < width
    · rw [List.cons_append, bitAt, bitAt, if_pos hi, if_pos hi]
    · rw [List.cons_append, bitAt, bitAt, if_neg hi, if_neg hi, ih (by omega)]

/-- Words beyond the last bit can be dropped. -/
theorem bitAt_append_of_bound {words rest : List (BitVec width)}
    (hbound : ∀ i, bitAt (words ++ rest) i = true → i < width * words.length)
    (i : Nat) : bitAt (words ++ rest) i = bitAt words i := by
  by_cases hi : i < width * words.length
  · exact bitAt_append_left hi
  · rw [bitAt_of_length_le (Nat.not_lt.mp hi)]
    by_contra hbit
    exact hi (hbound i (by simpa using hbit))

/-- Setting the lowest bit of the string. -/
theorem bitAt_or_low (hwidth : 0 < width) (word bit : BitVec width)
    (words : List (BitVec width)) (hbit : bit = 0 ∨ bit = 1) (i : Nat) :
    bitAt ((word ||| bit) :: words) i =
      (bitAt (word :: words) i || (decide (i = 0) && decide (bit = 1))) := by
  have hone : (1 : BitVec width) ≠ 0 := by
    intro heq
    have hnat := congrArg (fun word => BitVec.getLsbD word 0) heq
    simp [hwidth] at hnat
  rcases hbit with rfl | rfl
  · have hsame : word ||| (0 : BitVec width) = word := BitVec.or_zero
    rw [hsame, decide_eq_false hone.symm, Bool.and_false, Bool.or_false]
  · by_cases hi : i < width
    · by_cases hzero : i = 0
      · subst hzero
        simp [bitAt, hwidth]
      · simp [bitAt, hi, hzero]
    · have hzero : i ≠ 0 := by omega
      simp [bitAt, hi, hzero]

/-- Strings with the same bits are equal up to words of zeros at the end. -/
theorem eq_append_replicate {short long : List (BitVec width)} (hlen : short.length ≤ long.length)
    (hbits : ∀ i, bitAt short i = bitAt long i) :
    long = short ++ List.replicate (long.length - short.length) 0 := by
  induction long generalizing short with
  | nil =>
    have hnil : short = [] := List.length_eq_zero_iff.mp (by simpa using hlen)
    simp [hnil]
  | cons word long ih =>
    have hstep : ∀ (first : BitVec width) (rest : List (BitVec width)),
        (∀ i, bitAt (first :: rest) i = bitAt (word :: long) i) →
          first = word ∧ ∀ i, bitAt rest i = bitAt long i := by
      intro first rest hsame
      constructor
      · apply BitVec.eq_of_getLsbD_eq
        intro i hi
        have hbit := hsame i
        rwa [bitAt, bitAt, if_pos hi, if_pos hi] at hbit
      · intro i
        have hbit := hsame (i + width)
        have hnot : ¬ i + width < width := by omega
        rwa [bitAt, bitAt, if_neg hnot, if_neg hnot, Nat.add_sub_cancel] at hbit
    cases short with
    | nil =>
      have hzeros : ∀ i, bitAt ((0 : BitVec width) :: []) i =
          bitAt (word :: long) i := by
        intro i
        rw [← hbits i]
        simp [bitAt]
      obtain ⟨hword, hrest⟩ := hstep 0 [] hzeros
      have hlong := ih (Nat.zero_le _) hrest
      rw [List.nil_append] at hlong
      simp only [List.length_nil, Nat.sub_zero, List.nil_append,
        List.length_cons, List.replicate_succ, ← hword]
      exact congrArg (List.cons 0) hlong
    | cons first rest =>
      obtain ⟨hword, hrest⟩ := hstep first rest hbits
      have hlong := ih (Nat.le_of_succ_le_succ hlen) hrest
      simp only [List.length_cons, Nat.add_sub_add_right, List.cons_append,
        hword]
      exact congrArg (List.cons word) hlong

end BitWords

end SmlSharp
