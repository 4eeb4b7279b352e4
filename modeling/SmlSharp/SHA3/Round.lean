/-
`permute` computes `KECCAK-p[1600, 24]` on the bits of its words.
-/
import Mathlib.Data.Fintype.Basic
import Mathlib.Tactic.FinCases
import SmlSharp.SHA3.Fips202
import SmlSharp.SHA3.Keccak

namespace SmlSharp

namespace SHA3

open BitString

/-- The word of the lane `(x, y)`. -/
def State.lane (s : State) (x y : Fin 5) : Word64 :=
  match y, x with
  | 0, 0 => s.a00
  | 0, 1 => s.a01
  | 0, 2 => s.a02
  | 0, 3 => s.a03
  | 0, 4 => s.a04
  | 1, 0 => s.a10
  | 1, 1 => s.a11
  | 1, 2 => s.a12
  | 1, 3 => s.a13
  | 1, 4 => s.a14
  | 2, 0 => s.a20
  | 2, 1 => s.a21
  | 2, 2 => s.a22
  | 2, 3 => s.a23
  | 2, 4 => s.a24
  | 3, 0 => s.a30
  | 3, 1 => s.a31
  | 3, 2 => s.a32
  | 3, 3 => s.a33
  | 3, 4 => s.a34
  | 4, 0 => s.a40
  | 4, 1 => s.a41
  | 4, 2 => s.a42
  | 4, 3 => s.a43
  | 4, 4 => s.a44

def State.array (s : State) : Fips202.StateArray := fun x y z => (s.lane x y).getLsbD z

/-! ### The steps on lanes -/

/-- The parity of the column `x`. -/
def State.column (s : State) (x : Fin 5) : Word64 :=
  s.lane x 0 ^^^ s.lane x 1 ^^^ s.lane x 2 ^^^ s.lane x 3 ^^^ s.lane x 4

theorem lane_theta (s : State) (x y : Fin 5) : (theta s).lane x y =
      s.lane x y ^^^ (s.column (x - 1) ^^^ rol (s.column (x + 1)) 1) := by
  fin_cases y <;> fin_cases x <;> rfl

theorem rol_zero (w : Word64) : rol w 0 = w := by
  rw [rol, BitVec.shiftLeft_zero, BitVec.ushiftRight_eq_zero (Nat.le_refl 64), BitVec.or_zero]

theorem lane_rho (s : State) (x y : Fin 5) :
    (rho s).lane x y = rol (s.lane x y) (Fips202.offset x y % 64) := by
  fin_cases y <;> fin_cases x
  case «0».«0» => exact (rol_zero _).symm
  all_goals rfl

theorem lane_pi (s : State) (x y : Fin 5) : (pi s).lane x y = s.lane (x + 3 * y) x := by
  fin_cases y <;> fin_cases x <;> rfl

theorem lane_xi (s : State) (x y : Fin 5) :
    (xi s).lane x y = xe (s.lane x y) (s.lane (x + 1) y) (s.lane (x + 2) y) := by
  fin_cases y <;> fin_cases x <;> rfl

theorem lane_iota (rc : Word64) (s : State) (x y : Fin 5) :
    (iota rc s).lane x y =
      if x = 0 ∧ y = 0 then s.lane x y ^^^ rc else s.lane x y := by
  fin_cases y <;> fin_cases x <;> rfl

/-! ### The steps on bits -/

theorem getLsbD_rol (w : Word64) {k : Nat} (hk : k < 64) (z : Fin 64) :
    (rol w k).getLsbD z = w.getLsbD (z - Fin.ofNat 64 k).val := by
  have hsub : (z - Fin.ofNat 64 k).val = (64 - k + z.val) % 64 := by
    rw [Fin.sub_def]
    simp [Nat.mod_eq_of_lt hk]
  have hz := z.isLt
  rw [rol, BitVec.getLsbD_or, BitVec.getLsbD_shiftLeft, BitVec.getLsbD_ushiftRight, hsub]
  by_cases hlow : z.val < k
  · rw [Nat.mod_eq_of_lt (by omega)]
    simp [hlow]
  · have hwrap : (64 - k + z.val) % 64 = z.val - k := by omega
    rw [hwrap, BitVec.getLsbD_of_ge w (64 - k + z.val) (by omega)]
    simp [hlow]

theorem array_theta (s : State) : (theta s).array = Fips202.theta s.array := by
  funext x y z
  have hone : Fin.ofNat 64 1 = (1 : Fin 64) := rfl
  simp only [State.array, lane_theta, BitVec.getLsbD_xor, State.column,
    getLsbD_rol _ (show 1 < 64 by decide), hone, Fips202.theta]

theorem array_rho (s : State) : (rho s).array = Fips202.rho s.array := by
  funext x y z
  have hmod : Fin.ofNat 64 (Fips202.offset x y % 64) = Fin.ofNat 64 (Fips202.offset x y) := by
    apply Fin.ext
    exact Nat.mod_mod _ 64
  rw [State.array, lane_rho, getLsbD_rol _ (Nat.mod_lt _ (by decide)), hmod]
  rfl

theorem array_pi (s : State) : (pi s).array = Fips202.pi s.array := by
  funext x y z
  rw [State.array, lane_pi]
  rfl

theorem array_xi (s : State) : (xi s).array = Fips202.chi s.array := by
  funext x y z
  rw [State.array, lane_xi, xe, BitVec.getLsbD_xor, BitVec.getLsbD_and, BitVec.getLsbD_not,
    decide_eq_true z.isLt, Bool.true_and, ← Bool.xor_true]
  rfl

theorem array_iota (s : State) {rc : Word64} {ir : Nat}
    (hrc : ∀ z : Fin 64, rc.getLsbD z = Fips202.RC ir z) :
    (iota rc s).array = Fips202.iota s.array ir := by
  funext x y z
  rw [State.array, lane_iota, Fips202.iota, ← hrc]
  split
  · rw [BitVec.getLsbD_xor, State.array]
  · rfl

theorem array_round (s : State) {rc : Word64} {ir : Nat}
    (hrc : ∀ z : Fin 64, rc.getLsbD z = Fips202.RC ir z) :
    (round rc s).array = Fips202.Rnd s.array ir := by
  rw [round, array_iota _ hrc, array_xi, array_pi, array_rho, array_theta, Fips202.Rnd]

theorem array_foldl_round (rcs : List Word64) (s : State) (start : Nat)
    (hrcs : ∀ i (hi : i < rcs.length), ∀ z : Fin 64,
      rcs[i].getLsbD z = Fips202.RC (start + i) z) :
    (rcs.foldl (fun z h => round h z) s).array =
      (List.range' start rcs.length).foldl Fips202.Rnd s.array := by
  induction rcs generalizing s start with
  | nil => rfl
  | cons rc rcs ih =>
    have hrc : ∀ z : Fin 64, rc.getLsbD z = Fips202.RC start z :=
      hrcs 0 (Nat.succ_pos rcs.length)
    rw [List.foldl_cons, List.length_cons, List.range'_succ, List.foldl_cons,
      ← array_round s hrc]
    apply ih
    intro i hi z
    have hnext := hrcs (i + 1) (Nat.succ_lt_succ hi) z
    rwa [List.getElem_cons_succ, Nat.add_comm i 1, ← Nat.add_assoc] at hnext

/-- The table holds the constants that the shift register produces. -/
theorem getLsbD_roundConstants : ∀ ir : Fin 24, ∀ z : Fin 64,
      (roundConstants.get ir).getLsbD z = Fips202.RC ir z := by
  decide +kernel

theorem array_permute (s : State) :
    (permute s).array = (List.range 24).foldl Fips202.Rnd s.array := by
  rw [List.range_eq_range']
  apply array_foldl_round
  intro i hi z
  rw [Nat.zero_add]
  exact getLsbD_roundConstants ⟨i, hi⟩ z

/-! ### Strings of bits -/

/-- The bits of the words in their order. -/
def State.bits (s : State) : List Bool := ofWords s.words

theorem words_eq (s : State) :
    s.words =
      (List.finRange 5).flatMap fun y => (List.finRange 5).map fun x => s.lane x y := rfl

theorem toBits_array (s : State) : Fips202.toBits s.array = s.bits := by
  rw [State.bits, ofWords, words_eq, List.flatMap_assoc]
  simp only [List.flatMap_map]
  rfl

theorem ofBits_toBits (A : Fips202.StateArray) : Fips202.ofBits (Fips202.toBits A) = A := by
  funext x y z
  have hlane : ∀ y x, (List.ofFn fun z => A x y z).length = 64 :=
    fun y x => List.length_ofFn
  have hplane : ∀ y, ((List.finRange 5).flatMap fun x =>
      List.ofFn fun z => A x y z).length = 320 := by
    intro y
    simp [List.length_flatMap]
  have hindex : 64 * (5 * y.val + x.val) + z.val = 320 * y.val + (64 * x.val + z.val) := by
    omega
  have hat : ∀ y : Fin 5, (List.finRange 5)[y.val]? = some y := by decide
  rw [Fips202.ofBits, Fips202.toBits, hindex,
    getElem?_flatMap hplane _ _ _ (by omega), hat, Option.bind_some,
    getElem?_flatMap (hlane y) _ _ _ z.isLt, hat, Option.bind_some, List.getElem?_ofFn]
  simp

theorem bits_permute (s : State) : (permute s).bits = Fips202.keccakP s.bits := by
  rw [Fips202.keccakP, ← toBits_array s, ofBits_toBits, ← array_permute, toBits_array]

end SHA3

end SmlSharp
