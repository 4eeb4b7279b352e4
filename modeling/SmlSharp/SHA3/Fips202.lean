/-
The functions of FIPS 202, which `SHA3.sml` cites: the step mappings on state
arrays, the permutation, and the hash and extendable-output functions.
-/
import Mathlib.Algebra.Ring.Nat
import Mathlib.Data.Fin.Basic
import SmlSharp.Lib.Sponge

namespace SmlSharp

namespace Fips202

/-- The bits `A[x, y, z]` of a state of 1600 bits. -/
abbrev StateArray := Fin 5 → Fin 5 → Fin 64 → Bool

instance neZero_five : NeZero 5 := ⟨by decide⟩

/-- The bit string of a state array, one lane after the other. -/
def toBits (A : StateArray) : List Bool :=
  (List.finRange 5).flatMap fun y =>
    (List.finRange 5).flatMap fun x => List.ofFn fun z => A x y z

def ofBits (S : List Bool) : StateArray :=
  fun x y z => (S[64 * (5 * y.val + x.val) + z.val]?).getD false

def theta (A : StateArray) : StateArray :=
  let C := fun x z => A x 0 z ^^ A x 1 z ^^ A x 2 z ^^ A x 3 z ^^ A x 4 z
  let D := fun x z => C (x - 1) z ^^ C (x + 1) (z - 1)
  fun x y z => A x y z ^^ D x z

/-- The lane that `rho` reaches after `t` steps. -/
def walk : Nat → Fin 5 × Fin 5
  | 0 => (1, 0)
  | t + 1 => ((walk t).2, 2 * (walk t).1 + 3 * (walk t).2)

/-- How far `rho` rotates a lane. -/
def offset (x y : Fin 5) : Nat :=
  match (List.range 24).find? fun t => walk t = (x, y) with
  | some t => (t + 1) * (t + 2) / 2
  | none => 0

def rho (A : StateArray) : StateArray :=
  fun x y z => A x y (z - Fin.ofNat 64 (offset x y))

def pi (A : StateArray) : StateArray := fun x y z => A (x + 3 * y) x z

def chi (A : StateArray) : StateArray :=
  fun x y z => A x y z ^^ ((A (x + 1) y z ^^ true) && A (x + 2) y z)

/-- One step of the shift register of `rc`. -/
def shift : List Bool → List Bool
  | [r0, r1, r2, r3, r4, r5, r6, r7] =>
    [r7, r0, r1, r2, r3 ^^ r7, r4 ^^ r7, r5 ^^ r7, r6]
  | R => R

def rc (t : Nat) : Bool :=
  (shift^[t % 255] [true, false, false, false, false, false, false, false]).headD false

/-- The round constant, whose bits `2 ^ j - 1` come from `rc`. -/
def RC (ir : Nat) (z : Fin 64) : Bool :=
  (List.range 7).any fun j => z.val = 2 ^ j - 1 && rc (j + 7 * ir)

def iota (A : StateArray) (ir : Nat) : StateArray :=
  fun x y z => if x = 0 ∧ y = 0 then A x y z ^^ RC ir z else A x y z

def Rnd (A : StateArray) (ir : Nat) : StateArray := iota (chi (pi (rho (theta A)))) ir

/-- `KECCAK-p[1600, 24]`. -/
def keccakP (S : List Bool) : List Bool :=
  toBits ((List.range 24).foldl Rnd (ofBits S))

/-- `KECCAK[c]`, the sponge with the capacity `c`. -/
def keccak (c : Nat) (N : List Bool) (d : Nat) : List Bool :=
  Sponge.sponge keccakP (1600 - c) 1600 N d

def sha3_224 (M : List Bool) : List Bool := keccak 448 (M ++ [false, true]) 224

def sha3_256 (M : List Bool) : List Bool := keccak 512 (M ++ [false, true]) 256

def sha3_384 (M : List Bool) : List Bool := keccak 768 (M ++ [false, true]) 384

def sha3_512 (M : List Bool) : List Bool := keccak 1024 (M ++ [false, true]) 512

def shake128 (M : List Bool) (d : Nat) : List Bool :=
  keccak 256 (M ++ [true, true, true, true]) d

def shake256 (M : List Bool) (d : Nat) : List Bool :=
  keccak 512 (M ++ [true, true, true, true]) d

end Fips202

end SmlSharp
