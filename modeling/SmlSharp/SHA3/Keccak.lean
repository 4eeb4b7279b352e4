/-
The Keccak sponge of `SHA3.sml`: the permutation on 25 words, the reading of
padded blocks, and the writing of the output.
-/
import SmlSharp.Lib.ElementArray
import SmlSharp.Lib.Except

namespace SmlSharp

namespace SHA3

abbrev Word64 := BitVec 64

abbrev Word8 := BitVec 8

inductive Exn where
  | subscript
  | size
deriving DecidableEq, Repr

namespace Word8Array

/-- An object's size occupies 28 bits of its header. -/
def maxLen : Nat := 0x0fffffff

def array (len : Int) (w : Word8) : Except Exn (List Word8) :=
  if 0 ≤ len ∧ len ≤ maxLen then .ok (List.replicate len.toNat w) else .error .size

def sub (a : List Word8) (i : Nat) : Except Exn Word8 :=
  match a[i]? with
  | some w => .ok w
  | none => .error .subscript

def update (a : List Word8) (i : Nat) (w : Word8) : Except Exn (List Word8) :=
  if i < a.length then .ok (a.set i w) else .error .subscript

end Word8Array

/-- The elements of `Word8VectorSlice.slice (w, i, SOME n)`. -/
def slice (w : List Word8) (i n : Nat) : Except Exn (List Word8) :=
  if i ≤ w.length ∧ n ≤ w.length - i then .ok ((w.drop i).take n) else .error .subscript

/-- `Word8ArraySlice.copyVec {dst = dst, di = di, src = src}`. -/
def copyVec (dst : List Word8) (di : Nat) (src : List Word8) : Except Exn (List Word8) :=
  if di ≤ dst.length ∧ src.length ≤ dst.length - di then
    .ok (ElementArray.splice di src dst)
  else .error .subscript

def rol (x : Word64) (y : Nat) : Word64 := (x <<< y) ||| (x >>> (64 - y))

def fromWord8 (w : Word8) : Word64 := w.setWidth 64

def toWord8 (w : Word64) : Word8 := w.setWidth 8

def sub (a : List Word8) (i : Nat) : Except Exn Word64 := do
  return fromWord8 (← Word8Array.sub a i)

def update (a : List Word8) (i : Nat) (w : Word64) : Except Exn (List Word8) :=
  Word8Array.update a i (toWord8 w)

def read64 (a : List Word8) (i : Nat) : Nat → Except Exn Word64
  | 0 => .ok 0
  | j + 1 => do
      let low ← sub a i
      let high ← read64 a (i + 1) j
      return low ||| (high <<< 8)

def write64 (a : List Word8) (i : Nat) (w : Word64) : Nat → Except Exn (List Word8)
  | 0 => .ok a
  | j + 1 => do
      let a ← update a i w
      write64 a (i + 1) (w >>> 8) j

def roundConstants : List Word64 :=
  [0x0000000000000001, 0x0000000000008082,
   0x800000000000808a, 0x8000000080008000,
   0x000000000000808b, 0x0000000080000001,
   0x8000000080008081, 0x8000000000008009,
   0x000000000000008a, 0x0000000000000088,
   0x0000000080008009, 0x000000008000000a,
   0x000000008000808b, 0x800000000000008b,
   0x8000000000008089, 0x8000000000008003,
   0x8000000000008002, 0x8000000000000080,
   0x000000000000800a, 0x800000008000000a,
   0x8000000080008081, 0x8000000000008080,
   0x0000000080000001, 0x8000000080008008]

structure State where
  (a00 a01 a02 a03 a04 : Word64)
  (a10 a11 a12 a13 a14 : Word64)
  (a20 a21 a22 a23 a24 : Word64)
  (a30 a31 a32 a33 a34 : Word64)
  (a40 a41 a42 a43 a44 : Word64)

def initialState : State :=
  ⟨0, 0, 0, 0, 0,
   0, 0, 0, 0, 0,
   0, 0, 0, 0, 0,
   0, 0, 0, 0, 0,
   0, 0, 0, 0, 0⟩

/-! ### The steps of `round` -/

def theta (s : State) : State :=
  let c0 := s.a00 ^^^ s.a10 ^^^ s.a20 ^^^ s.a30 ^^^ s.a40
  let c1 := s.a01 ^^^ s.a11 ^^^ s.a21 ^^^ s.a31 ^^^ s.a41
  let c2 := s.a02 ^^^ s.a12 ^^^ s.a22 ^^^ s.a32 ^^^ s.a42
  let c3 := s.a03 ^^^ s.a13 ^^^ s.a23 ^^^ s.a33 ^^^ s.a43
  let c4 := s.a04 ^^^ s.a14 ^^^ s.a24 ^^^ s.a34 ^^^ s.a44
  let d0 := c4 ^^^ rol c1 1
  let d1 := c0 ^^^ rol c2 1
  let d2 := c1 ^^^ rol c3 1
  let d3 := c2 ^^^ rol c4 1
  let d4 := c3 ^^^ rol c0 1
  ⟨s.a00 ^^^ d0, s.a01 ^^^ d1, s.a02 ^^^ d2, s.a03 ^^^ d3, s.a04 ^^^ d4,
   s.a10 ^^^ d0, s.a11 ^^^ d1, s.a12 ^^^ d2, s.a13 ^^^ d3, s.a14 ^^^ d4,
   s.a20 ^^^ d0, s.a21 ^^^ d1, s.a22 ^^^ d2, s.a23 ^^^ d3, s.a24 ^^^ d4,
   s.a30 ^^^ d0, s.a31 ^^^ d1, s.a32 ^^^ d2, s.a33 ^^^ d3, s.a34 ^^^ d4,
   s.a40 ^^^ d0, s.a41 ^^^ d1, s.a42 ^^^ d2, s.a43 ^^^ d3, s.a44 ^^^ d4⟩

def rho (s : State) : State :=
  ⟨s.a00, rol s.a01 1, rol s.a02 62, rol s.a03 28, rol s.a04 27,
   rol s.a10 36, rol s.a11 44, rol s.a12 6, rol s.a13 55, rol s.a14 20,
   rol s.a20 3, rol s.a21 10, rol s.a22 43, rol s.a23 25, rol s.a24 39,
   rol s.a30 41, rol s.a31 45, rol s.a32 15, rol s.a33 21, rol s.a34 8,
   rol s.a40 18, rol s.a41 2, rol s.a42 61, rol s.a43 56, rol s.a44 14⟩

def pi (s : State) : State :=
  ⟨s.a00, s.a11, s.a22, s.a33, s.a44,
   s.a03, s.a14, s.a20, s.a31, s.a42,
   s.a01, s.a12, s.a23, s.a34, s.a40,
   s.a04, s.a10, s.a21, s.a32, s.a43,
   s.a02, s.a13, s.a24, s.a30, s.a41⟩

def xe (x y z : Word64) : Word64 := x ^^^ (~~~ y &&& z)

def xi (s : State) : State :=
  ⟨xe s.a00 s.a01 s.a02, xe s.a01 s.a02 s.a03, xe s.a02 s.a03 s.a04,
   xe s.a03 s.a04 s.a00, xe s.a04 s.a00 s.a01,
   xe s.a10 s.a11 s.a12, xe s.a11 s.a12 s.a13, xe s.a12 s.a13 s.a14,
   xe s.a13 s.a14 s.a10, xe s.a14 s.a10 s.a11,
   xe s.a20 s.a21 s.a22, xe s.a21 s.a22 s.a23, xe s.a22 s.a23 s.a24,
   xe s.a23 s.a24 s.a20, xe s.a24 s.a20 s.a21,
   xe s.a30 s.a31 s.a32, xe s.a31 s.a32 s.a33, xe s.a32 s.a33 s.a34,
   xe s.a33 s.a34 s.a30, xe s.a34 s.a30 s.a31,
   xe s.a40 s.a41 s.a42, xe s.a41 s.a42 s.a43, xe s.a42 s.a43 s.a44,
   xe s.a43 s.a44 s.a40, xe s.a44 s.a40 s.a41⟩

def iota (rc : Word64) (s : State) : State := { s with a00 := s.a00 ^^^ rc }

def round (rc : Word64) (s : State) : State := iota rc (xi (pi (rho (theta s))))

def permute (state : State) : State :=
  roundConstants.foldl (fun z h => round h z) state

/-! ### Absorbing -/

def absorbBlock (b : List Word8) (s : State) : Except Exn State := do
  return {
    a00 := s.a00 ^^^ (← read64 b 0 8)
    a01 := s.a01 ^^^ (← read64 b 8 8)
    a02 := s.a02 ^^^ (← read64 b 16 8)
    a03 := s.a03 ^^^ (← read64 b 24 8)
    a04 := s.a04 ^^^ (← read64 b 32 8)
    a10 := s.a10 ^^^ (← read64 b 40 8)
    a11 := s.a11 ^^^ (← read64 b 48 8)
    a12 := s.a12 ^^^ (← read64 b 56 8)
    a13 := s.a13 ^^^ (← read64 b 64 8)
    a14 := s.a14 ^^^ (← read64 b 72 8)
    a20 := s.a20 ^^^ (← read64 b 80 8)
    a21 := s.a21 ^^^ (← read64 b 88 8)
    a22 := s.a22 ^^^ (← read64 b 96 8)
    a23 := s.a23 ^^^ (← read64 b 104 8)
    a24 := s.a24 ^^^ (← read64 b 112 8)
    a30 := s.a30 ^^^ (← read64 b 120 8)
    a31 := s.a31 ^^^ (← read64 b 128 8)
    a32 := s.a32 ^^^ (← read64 b 136 8)
    a33 := s.a33 ^^^ (← read64 b 144 8)
    a34 := s.a34 ^^^ (← read64 b 152 8)
    a40 := s.a40 ^^^ (← read64 b 160 8)
    a41 := s.a41 ^^^ (← read64 b 168 8)
    a42 := s.a42 ^^^ (← read64 b 176 8)
    a43 := s.a43 ^^^ (← read64 b 184 8)
    a44 := s.a44 ^^^ (← read64 b 192 8) }

/-- The settings of `keccak`, whose blocks fit into the state. -/
structure Setting where
  rate : Nat
  padH : Word8
  rate_pos : 0 < rate
  rate_le : rate ≤ 200

inductive Input where
  | INPUT (w : List Word8) (i l : Nat)
  | EOF

def padL : Word8 := 0x80

section Setting

variable (setting : Setting)

def readBlock (w : List Word8) (i l : Nat) : Except Exn (List Word8 × Input) := do
  let a ← Word8Array.array 200 0
  let n := if l < setting.rate then l else setting.rate
  let s ← slice w i n
  let a ← copyVec a 0 s
  if l ≥ setting.rate then
    return (a, .INPUT w (i + setting.rate) (l - setting.rate))
  else if l = setting.rate - 1 then do
    let a ← Word8Array.update a l (setting.padH ||| padL)
    return (a, .EOF)
  else do
    let a ← Word8Array.update a l setting.padH
    let a ← Word8Array.update a (setting.rate - 1) padL
    return (a, .EOF)

/-- What is left to read, the end included. -/
def Input.left : Input → Nat
  | INPUT _ _ l => l + 1
  | EOF => 0

theorem readBlock_left {w : List Word8} {i l : Nat} {b : List Word8} {next : Input}
    (h : readBlock setting w i l = .ok (b, next)) : next.left < l + 1 := by
  have hpos := setting.rate_pos
  obtain ⟨a, -, h⟩ := except_bind_ok.mp h
  obtain ⟨s, -, h⟩ := except_bind_ok.mp h
  obtain ⟨a', -, h⟩ := except_bind_ok.mp h
  split at h
  · have hnext : _ = next := congrArg Prod.snd (except_pure_ok.mp h)
    rw [← hnext]
    change l - setting.rate + 1 < l + 1
    omega
  · have hend : next = .EOF := by
      split at h
      · obtain ⟨a'', -, h⟩ := except_bind_ok.mp h
        exact (congrArg Prod.snd (except_pure_ok.mp h)).symm
      · obtain ⟨a'', -, h⟩ := except_bind_ok.mp h
        obtain ⟨b', -, h⟩ := except_bind_ok.mp h
        exact (congrArg Prod.snd (except_pure_ok.mp h)).symm
    rw [hend]
    exact Nat.succ_pos l

/-- The loop of `absorb`. -/
def absorbLoop (m : State) : Input → Except Exn State
  | .EOF => .ok m
  | .INPUT w i l =>
    match _h : readBlock setting w i l with
    | .error e => .error e
    | .ok (b, next) => do
        let m ← absorbBlock b m
        absorbLoop (permute m) next
termination_by input => input.left
decreasing_by exact readBlock_left setting _h

def absorb (src : List Word8) : Except Exn State :=
  absorbLoop setting initialState (.INPUT src 0 src.length)

/-! ### Squeezing -/

/-- The loop of `serialize`. -/
def serializeLoop (a : List Word8) (i l : Nat) : List Word64 → Except Exn (List Word8)
  | [] => .ok a
  | h :: t =>
    if l > 8 then do
      let a ← write64 a i h 8
      serializeLoop a (i + 8) (l - 8) t
    else write64 a i h l

def State.words (s : State) : List Word64 :=
  [s.a00, s.a01, s.a02, s.a03, s.a04,
   s.a10, s.a11, s.a12, s.a13, s.a14,
   s.a20, s.a21, s.a22, s.a23, s.a24,
   s.a30, s.a31, s.a32, s.a33, s.a34,
   s.a40, s.a41, s.a42, s.a43, s.a44]

def serialize (a : List Word8) (i l : Nat) (s : State) : Except Exn (List Word8) :=
  serializeLoop a i l s.words

/-- The loop of `squeeze`. -/
def squeezeLoop (output : List Word8) (state : State) (i l : Nat) :
    Except Exn (List Word8) :=
  if l ≤ setting.rate then serialize output i l state
  else do
    let output ← serialize output i setting.rate state
    squeezeLoop output (permute state) (i + setting.rate) (l - setting.rate)
termination_by l
decreasing_by
  have hpos := setting.rate_pos
  omega

def squeeze (output : List Word8) (state : State) : Except Exn (List Word8) :=
  squeezeLoop setting output state 0 output.length

def keccak (outputLen : Int) (input : List Word8) : Except Exn (List Word8) := do
  let state ← absorb setting input
  let out ← Word8Array.array outputLen 0
  squeeze setting out state

end Setting

def shake128 (x : List Word8) (l : Int) : Except Exn (List Word8) :=
  keccak ⟨168, 0x1f, by decide, by decide⟩ l x

def shake256 (x : List Word8) (l : Int) : Except Exn (List Word8) :=
  keccak ⟨136, 0x1f, by decide, by decide⟩ l x

def sha3_224 (x : List Word8) : Except Exn (List Word8) :=
  keccak ⟨144, 0x06, by decide, by decide⟩ 28 x

def sha3_256 (x : List Word8) : Except Exn (List Word8) :=
  keccak ⟨136, 0x06, by decide, by decide⟩ 32 x

def sha3_384 (x : List Word8) : Except Exn (List Word8) :=
  keccak ⟨104, 0x06, by decide, by decide⟩ 48 x

def sha3_512 (x : List Word8) : Except Exn (List Word8) :=
  keccak ⟨72, 0x06, by decide, by decide⟩ 64 x

end SHA3

end SmlSharp
