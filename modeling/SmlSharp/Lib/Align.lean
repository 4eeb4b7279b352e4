/-
Rounding up to a multiple, and the machine form of it: adding the alignment
less one and masking the low bits off with the two's complement of a power of
two.
-/
import Mathlib.Data.Nat.Basic
import Mathlib.Tactic.IntervalCases

namespace SmlSharp

/-- The least multiple of `alignment` that is not below `position`. -/
def alignUp (position alignment : Nat) : Nat :=
  (position + alignment - 1) / alignment * alignment

theorem dvd_alignUp (position alignment : Nat) :
    alignment ∣ alignUp position alignment :=
  Nat.dvd_mul_left _ _

theorem alignUp_lt {alignment : Nat} (hpos : 0 < alignment) (position : Nat) :
    alignUp position alignment < position + alignment := by
  have hle : alignUp position alignment ≤ position + alignment - 1 :=
    Nat.div_mul_le_self _ _
  omega

theorem le_alignUp {alignment : Nat} (hpos : 0 < alignment) (position : Nat) :
    position ≤ alignUp position alignment := by
  have hlt : position + alignment - 1 <
      ((position + alignment - 1) / alignment + 1) * alignment := by
    rw [mul_comm]
    exact Nat.lt_mul_div_succ _ hpos
  rw [Nat.add_mul, Nat.one_mul] at hlt
  unfold alignUp
  omega

theorem alignUp_le_of_dvd {position alignment bound : Nat}
    (hpos : 0 < alignment) (hle : position ≤ bound) (hdvd : alignment ∣ bound) :
    alignUp position alignment ≤ bound := by
  obtain ⟨factor, rfl⟩ := hdvd
  have hquot : (position + alignment - 1) / alignment ≤ factor := by
    rw [← Nat.lt_succ_iff, Nat.div_lt_iff_lt_mul hpos, Nat.succ_mul, mul_comm]
    omega
  calc
    alignUp position alignment ≤ factor * alignment :=
      Nat.mul_le_mul_right alignment hquot
    _ = alignment * factor := mul_comm _ _

theorem alignUp_of_dvd {position alignment : Nat} (hpos : 0 < alignment)
    (hdvd : alignment ∣ position) : alignUp position alignment = position :=
  le_antisymm (alignUp_le_of_dvd hpos le_rfl hdvd) (le_alignUp hpos position)

namespace Word

variable {width : Nat}

/-- The bits of the two's complement of a power of two: ones from the exponent
upwards. -/
theorem getLsbD_neg_twoPow {exponent : Nat} (hlt : exponent < width) (i : Nat) :
    (-BitVec.twoPow width exponent).getLsbD i =
      decide (exponent ≤ i ∧ i < width) := by
  rw [BitVec.getLsbD_neg, BitVec.getLsbD_twoPow]
  by_cases hi : i < width
  · have hexists : (∃ j < i, (BitVec.twoPow width exponent).getLsbD j = true) ↔
        exponent < i := by
      constructor
      · rintro ⟨j, hj, hbit⟩
        rw [BitVec.getLsbD_twoPow] at hbit
        have heq : exponent = j := by simpa using (Bool.and_eq_true_iff.mp hbit).2
        omega
      · intro hexp
        exact ⟨exponent, hexp, by simp [hlt]⟩
    rcases Nat.lt_trichotomy exponent i with hcase | hcase | hcase
    · simp [hi, hcase, hcase.le, hcase.ne, hlt]
    · subst hcase
      simp [hi]
    · have hnot : ¬ exponent ≤ i := by omega
      simp [hi, hlt, hnot, hcase.ne', Nat.not_lt.mpr hcase.le]
  · have hne : exponent ≠ i := by omega
    simp [hi, hne]

/-- Masking with the two's complement of a power of two rounds down. -/
theorem toNat_and_neg_twoPow {exponent : Nat} (hlt : exponent < width)
    (word : BitVec width) : (word &&& -BitVec.twoPow width exponent).toNat =
      word.toNat / 2 ^ exponent * 2 ^ exponent := by
  apply Nat.eq_of_testBit_eq
  intro i
  have hmask := getLsbD_neg_twoPow hlt i
  rw [← Nat.shiftLeft_eq, ← Nat.shiftRight_eq_div_pow, Nat.testBit_shiftLeft,
    Nat.testBit_shiftRight, BitVec.testBit_toNat, BitVec.getLsbD_and, hmask,
    BitVec.testBit_toNat]
  by_cases hexp : exponent ≤ i
  · have hindex : exponent + (i - exponent) = i := by omega
    by_cases hi : i < width
    · simp [hexp, hi]
    · have hout : word.getLsbD i = false := BitVec.getLsbD_of_ge word i (by omega)
      simp [hindex, hout]
  · simp [hexp]

end Word

end SmlSharp
