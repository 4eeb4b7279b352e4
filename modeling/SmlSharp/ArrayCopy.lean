/-
Block copies between arrays.  The primitive `Array_copy_unsafe` chooses by the
run-time tag of the elements between the runtime's `sml_copyary`, which stores
one pointer after the other, and `llvm.memmove`.  The slice and array copies of
the basis library check the bounds in front of it.
-/
import Mathlib.Data.Int.Basic
import Mathlib.Logic.Function.Basic
import SmlSharp.Lib.ElementArray
import SmlSharp.Lib.Except
import SmlSharp.RuntimeTypes

namespace SmlSharp

namespace ArrayCopy

open ElementArray RuntimeTypes

/-- A heap object.  Its size occupies 28 bits of the header. -/
structure Object where
  payload : List UInt8
  size_lt : payload.length < 2 ^ 28

abbrev Addr := Nat

abbrev Heap := Addr → Object

/-- A copy raises `Subscript`, or it leaves the objects and then its behaviour
is undefined. -/
inductive Failure where
  | subscript
  | undefined
deriving DecidableEq, Repr

def Object.load (object : Object) (offset : Int) (bytes : Nat) :
    Except Failure (List UInt8) :=
  if 0 ≤ offset ∧ offset.toNat + bytes ≤ object.payload.length then
    .ok ((object.payload.drop offset.toNat).take bytes)
  else .error .undefined

def Object.store (object : Object) (offset : Int) (stored : List UInt8) :
    Except Failure Object :=
  if hfit : 0 ≤ offset ∧ offset.toNat + stored.length ≤ object.payload.length then
    .ok ⟨splice offset.toNat stored object.payload, by
      rw [length_splice hfit.2]
      exact object.size_lt⟩
  else .error .undefined

/-- Read bytes of one object and then store them in another. -/
def moveBytes (h : Heap) (dst : Addr) (dstOffset : Int) (src : Addr)
    (srcOffset : Int) (bytes : Nat) : Except Failure Heap := do
  let stored ← (h src).load srcOffset bytes
  let object ← (h dst).store dstOffset stored
  return Function.update h dst object

section Runtime

variable (ptrSize : Nat)

/-- `sml_write(dst, dst + index, src[srcIndex])` on arrays of pointers. -/
def smlWrite (h : Heap) (dst : Addr) (index : Nat) (src : Addr) (srcIndex : Nat) :
    Except Failure Heap :=
  moveBytes h dst (ptrSize * index : Nat) src (ptrSize * srcIndex : Nat) ptrSize

/-- The loop for one array, which counts `len` down. -/
def copyDown (src : Addr) (si : UInt32) (dst : Addr) (di : UInt32) :
    Nat → Heap → Except Failure Heap
  | 0, h => .ok h
  | n + 1, h => do
      let len := UInt32.ofNat n
      let h ← smlWrite ptrSize h dst (di.toNat + len.toNat) src (si + len).toNat
      copyDown src si dst di n h

/-- The loop for two arrays, which counts the indices up. -/
def copyUp (src : Addr) (si : UInt32) (dst : Addr) (di : UInt32) :
    Nat → Heap → Except Failure Heap
  | 0, h => .ok h
  | n + 1, h => do
      let h ← smlWrite ptrSize h dst di.toNat src si.toNat
      copyUp src (si + 1) dst (di + 1) n h

def smlCopyary (h : Heap) (src : Addr) (si : UInt32) (dst : Addr) (di len : UInt32) :
    Except Failure Heap :=
  if src = dst then copyDown ptrSize src si dst di len.toNat h
  else copyUp ptrSize src si dst di len.toNat h

end Runtime

/-- `MAARRAYELEM`: a wrapping 32-bit product, extended with its sign. -/
def arrayElemOffset (elemSize index : UInt32) : Int :=
  (elemSize * index).toInt32.toInt

/-- `MCMEMMOVE_UNBOXED_ARRAY`.  The product of the size must not wrap. -/
def memmoveUnboxedArray (h : Heap) (src : Addr) (si : UInt32) (dst : Addr)
    (di numElems elemSize : UInt32) : Except Failure Heap :=
  if numElems.toNat * elemSize.toNat < 2 ^ 32 then
    moveBytes h dst (arrayElemOffset elemSize di) src (arrayElemOffset elemSize si)
      (numElems * elemSize).toNat
  else .error .undefined

/-- The run-time representation of the elements of an array. -/
structure Elem (ptrSize : Nat) where
  tag : Tag
  size : UInt32
  size_pos : 0 < size.toNat
  size_boxed : tag = .boxed → size.toNat = ptrSize

section Primitives

variable {ptrSize : Nat} (elem : Elem ptrSize)

def arrayLength (h : Heap) (array : Addr) : Int32 :=
  (UInt32.ofNat (h array).payload.length / elem.size).toInt32

/-- `Array_copy_unsafe`. -/
def copyUnsafe (h : Heap) (src : Addr) (si : Int32) (dst : Addr) (di len : Int32) :
    Except Failure Heap :=
  match elem.tag with
  | .unboxed =>
    memmoveUnboxedArray h src si.toUInt32 dst di.toUInt32 len.toUInt32 elem.size
  | .boxed => smlCopyary ptrSize h src si.toUInt32 dst di.toUInt32 len.toUInt32

/-- The primitive `Array_copy`. -/
def Array.copy (h : Heap) (src dst : Addr) (di : Int32) : Except Failure Heap :=
  let slen := arrayLength elem h src
  let dlen := arrayLength elem h dst
  if 0 ≤ di ∧ di ≤ dlen ∧ slen ≤ dlen - di then copyUnsafe elem h src 0 dst di slen
  else .error .subscript

/-- A slice keeps the invariant of its type. -/
structure Slice (h : Heap) where
  seq : Addr
  start : Int32
  length : Int32
  start_nonneg : 0 ≤ start.toInt
  length_nonneg : 0 ≤ length.toInt
  le_length : start.toInt + length.toInt ≤ (arrayLength elem h seq).toInt

variable {elem}

def SliceCommon.copy {h : Heap} (src : Slice elem h) (dst : Addr) (di : Int32) :
    Except Failure Heap :=
  let dstlen := arrayLength elem h dst
  if di < 0 ∨ dstlen < di ∨ dstlen - di < src.length then .error .subscript
  else copyUnsafe elem h src.seq src.start dst di src.length

/-- The source is a vector slice, `Seq.VectorSlice.base src`. -/
def SliceCommon.copyVec {h : Heap} (src : Slice elem h) (dst : Addr) (di : Int32) :
    Except Failure Heap :=
  let dstlen := arrayLength elem h dst
  if di < 0 ∨ dstlen < di ∨ dstlen - di < src.length then .error .subscript
  else copyUnsafe elem h src.seq src.start dst di src.length

end Primitives

/-! What a copy does to the elements. -/

def Heap.element (size : Nat) (h : Heap) (array : Addr) (index : Nat) : List UInt8 :=
  ElementArray.element size (h array).payload index

/-- The destination holds the elements that the source had before, and nothing
else has changed. -/
structure Copied (size : Nat) (h h' : Heap) (src : Addr) (si : Nat) (dst : Addr)
    (di count : Nat) : Prop where
  copied : ∀ i < count, h'.element size dst (di + i) = h.element size src (si + i)
  kept : ∀ k, k < di ∨ di + count ≤ k → h'.element size dst k = h.element size dst k
  other : ∀ array, array ≠ dst → h' array = h array
  length : ∀ array, (h' array).payload.length = (h array).payload.length

theorem Object.ext_payload {o o' : Object} (heq : o.payload = o'.payload) : o = o' := by
  cases o
  cases o'
  simpa using heq

variable {h : Heap} {src dst : Addr} {si : Nat} {di : Int32} {count ptrSize : Nat}

/-- A copy determines the heap it leaves. -/
theorem Copied.unique {size : Nat} {h₁ h₂ : Heap} {di : Nat}
    (hsize : 0 < size) (h₁copied : Copied size h h₁ src si dst di count)
    (h₂copied : Copied size h h₂ src si dst di count) : h₁ = h₂ := by
  funext array
  by_cases harray : array = dst
  · subst harray
    refine Object.ext_payload (eq_of_element_eq hsize fun k => ?_)
    change h₁.element size array k = h₂.element size array k
    by_cases hk : k < di ∨ di + count ≤ k
    · rw [h₁copied.kept k hk, h₂copied.kept k hk]
    · obtain ⟨i, rfl⟩ := Nat.exists_eq_add_of_le (show di ≤ k by omega)
      rw [h₁copied.copied i (by omega), h₂copied.copied i (by omega)]
  · rw [h₁copied.other array harray, h₂copied.other array harray]

theorem moveBytes_copied {size : Nat} {di : Nat}
    (hsrc : size * (si + count) ≤ (h src).payload.length)
    (hdst : size * (di + count) ≤ (h dst).payload.length) :
    ∃ h', moveBytes h dst (size * di : Nat) src (size * si : Nat) (size * count) = .ok h' ∧
      Copied size h h' src si dst di count := by
  have hlength : (((h src).payload.drop (size * si)).take (size * count)).length =
      size * count := by
    rw [Nat.mul_add] at hsrc
    rw [List.length_take, List.length_drop]
    omega
  have hload : (h src).load (size * si : Nat) (size * count) =
      .ok (((h src).payload.drop (size * si)).take (size * count)) := by
    rw [Nat.mul_add] at hsrc
    rw [Object.load, Int.toNat_natCast, if_pos ⟨Int.natCast_nonneg _, hsrc⟩]
  have hfit : size * di +
      (((h src).payload.drop (size * si)).take (size * count)).length ≤
        (h dst).payload.length := by
    rw [hlength, ← Nat.mul_add]
    exact hdst
  obtain ⟨object, hstore, hpayload⟩ :
      ∃ object, (h dst).store (size * di : Nat)
          (((h src).payload.drop (size * si)).take (size * count)) = .ok object ∧
        object.payload = splice (size * di)
          (((h src).payload.drop (size * si)).take (size * count)) (h dst).payload := by
    rw [Object.store, dif_pos ⟨Int.natCast_nonneg _, by rw [Int.toNat_natCast]; exact hfit⟩]
    exact ⟨_, rfl, rfl⟩
  refine ⟨Function.update h dst object, ?_, ?_⟩
  · rw [moveBytes, hload]
    change ((h dst).store _ _ >>= fun object => pure (Function.update h dst object)) = _
    rw [hstore]
    rfl
  · have helement : ∀ k, Heap.element size (Function.update h dst object) dst k =
        if di ≤ k ∧ k < di + count then h.element size src (si + (k - di))
        else h.element size dst k := by
      intro k
      rw [Heap.element, Function.update_self, hpayload]
      exact element_splice hsrc hdst k
    constructor
    · intro i hi
      rw [helement, if_pos (by omega), Nat.add_sub_cancel_left]
    · intro k hk
      rw [helement, if_neg (by omega)]
    · intro array harray
      exact Function.update_of_ne harray _ _
    · intro array
      by_cases harray : array = dst
      · subst harray
        rw [Function.update_self, hpayload, length_splice hfit]
      · rw [Function.update_of_ne harray]

theorem smlWrite_copied {di : Nat}
    (hsrc : ptrSize * (si + 1) ≤ (h src).payload.length)
    (hdst : ptrSize * (di + 1) ≤ (h dst).payload.length) :
    ∃ h', smlWrite ptrSize h dst di src si = .ok h' ∧ Copied ptrSize h h' src si dst di 1 := by
  simpa only [smlWrite, Nat.mul_one] using moveBytes_copied hsrc hdst

theorem index_lt {size index : Nat} {object : Object} (hsize : 0 < size)
    (hfit : size * index ≤ object.payload.length) : index < 2 ^ 28 :=
  lt_of_le_of_lt (Nat.le_mul_of_pos_left index hsize)
    (lt_of_le_of_lt hfit object.size_lt)

theorem toNat_add_ofNat {x : UInt32} {n : Nat} (hsum : x.toNat + n < 2 ^ 28) :
    (x + UInt32.ofNat n).toNat = x.toNat + n := by
  rw [UInt32.toNat_add, UInt32.toNat_ofNat']
  omega

/-- The two loops store at the same places; counting up copies between two
arrays. -/
theorem copyUp_copied (hsize : 0 < ptrSize)
    (hne : src ≠ dst) (n : Nat) (si di : UInt32) (h : Heap)
    (hsrc : ptrSize * (si.toNat + n) ≤ (h src).payload.length)
    (hdst : ptrSize * (di.toNat + n) ≤ (h dst).payload.length) :
    ∃ h', copyUp ptrSize src si dst di n h = .ok h' ∧
      Copied ptrSize h h' src si.toNat dst di.toNat n := by
  induction n generalizing si di h with
  | zero =>
    refine ⟨h, rfl, ?_⟩
    constructor
    · intro i hi
      omega
    · intro k _
      rfl
    · intro array _
      rfl
    · intro array
      rfl
  | succ n ih =>
    have hsi : (si + 1).toNat = si.toNat + 1 :=
      toNat_add_ofNat (n := 1) (by have := index_lt hsize hsrc; omega)
    have hdi : (di + 1).toNat = di.toNat + 1 :=
      toNat_add_ofNat (n := 1) (by have := index_lt hsize hdst; omega)
    obtain ⟨h₁, hwrite, hfirst⟩ : ∃ h₁,
        smlWrite ptrSize h dst di.toNat src si.toNat = .ok h₁ ∧
          Copied ptrSize h h₁ src si.toNat dst di.toNat 1 :=
      smlWrite_copied
        (le_trans (Nat.mul_le_mul_left _ (by omega)) hsrc)
        (le_trans (Nat.mul_le_mul_left _ (by omega)) hdst)
    obtain ⟨h', hrest, hcopied⟩ := ih (si + 1) (di + 1) h₁
      (by rw [hsi, hfirst.length, Nat.add_assoc, Nat.add_comm 1]; exact hsrc)
      (by rw [hdi, hfirst.length, Nat.add_assoc, Nat.add_comm 1]; exact hdst)
    rw [hsi, hdi] at hcopied
    refine ⟨h', ?_, ?_⟩
    · rw [copyUp, hwrite]
      exact hrest
    · have hsame : ∀ k, h₁.element ptrSize src k = h.element ptrSize src k := by
        intro k
        rw [Heap.element, hfirst.other src hne]
        rfl
      constructor
      · intro i hi
        cases i with
        | zero =>
          rw [hcopied.kept _ (by omega)]
          exact hfirst.copied 0 (by omega)
        | succ i =>
          have hstep := hcopied.copied i (by omega)
          rw [hsame] at hstep
          simpa only [Nat.add_assoc, Nat.add_comm 1] using hstep
      · intro k hk
        rw [hcopied.kept k (by omega), hfirst.kept k (by omega)]
      · intro array harray
        rw [hcopied.other array harray, hfirst.other array harray]
      · intro array
        rw [hcopied.length, hfirst.length]

/-- What counting down leaves when both ranges lie in one array.  A range moved
to the right arrives; of one moved to the left, each element is the one that
its source place holds at the end. -/
structure MovedDown (size : Nat) (h h' : Heap) (array : Addr) (si di count : Nat) :
    Prop where
  right : si ≤ di → ∀ i < count,
    h'.element size array (di + i) = h.element size array (si + i)
  left : di < si → ∀ i < count,
    h'.element size array (di + i) = h'.element size array (si + i)
  kept : ∀ k, k < di ∨ di + count ≤ k → h'.element size array k = h.element size array k
  other : ∀ array', array' ≠ array → h' array' = h array'
  length : ∀ array', (h' array').payload.length = (h array').payload.length

theorem copyDown_movedDown (hsize : 0 < ptrSize) {array : Addr}
    (si di : UInt32) (n : Nat) (h : Heap)
    (hsrc : ptrSize * (si.toNat + n) ≤ (h array).payload.length)
    (hdst : ptrSize * (di.toNat + n) ≤ (h array).payload.length) :
    ∃ h', copyDown ptrSize array si array di n h = .ok h' ∧
      MovedDown ptrSize h h' array si.toNat di.toNat n := by
  induction n generalizing h with
  | zero =>
    refine ⟨h, rfl, ?_⟩
    constructor
    · intro _ i hi
      omega
    · intro _ i hi
      omega
    · intro k _
      rfl
    · intro array' _
      rfl
    · intro array'
      rfl
  | succ n ih =>
    have hsi := index_lt hsize hsrc
    have hn : (UInt32.ofNat n).toNat = n := by
      rw [UInt32.toNat_ofNat']
      omega
    have hsum : (si + UInt32.ofNat n).toNat = si.toNat + n := toNat_add_ofNat (by omega)
    obtain ⟨h₁, hwrite, hfirst⟩ : ∃ h₁,
        smlWrite ptrSize h array (di.toNat + n) array (si.toNat + n) = .ok h₁ ∧
          Copied ptrSize h h₁ array (si.toNat + n) array (di.toNat + n) 1 :=
      smlWrite_copied hsrc hdst
    obtain ⟨h', hrest, hmoved⟩ := ih h₁
      (by rw [hfirst.length]; exact le_trans (Nat.mul_le_mul_left _ (by omega)) hsrc)
      (by rw [hfirst.length]; exact le_trans (Nat.mul_le_mul_left _ (by omega)) hdst)
    have hlast : h₁.element ptrSize array (di.toNat + n) =
        h.element ptrSize array (si.toNat + n) := hfirst.copied 0 (by omega)
    refine ⟨h', ?_, ?_⟩
    · rw [copyDown, hn, hsum, hwrite]
      exact hrest
    · constructor
      · intro hle i hi
        by_cases heq : i = n
        · subst heq
          rw [hmoved.kept _ (by omega), hlast]
        · rw [hmoved.right hle i (by omega), hfirst.kept _ (by omega)]
      · intro hlt i hi
        by_cases heq : i = n
        · subst heq
          rw [hmoved.kept _ (by omega), hlast, hmoved.kept _ (by omega),
            hfirst.kept _ (by omega)]
        · exact hmoved.left hlt i (by omega)
      · intro k hk
        rw [hmoved.kept k (by omega), hfirst.kept k (by omega)]
      · intro array' harray
        rw [hmoved.other array' harray, hfirst.other array' harray]
      · intro array'
        rw [hmoved.length, hfirst.length]

/-- A source range that repeats itself at the distance of the move. -/
def Repeats (size : Nat) (h : Heap) (array : Addr) (si count period : Nat) : Prop :=
  ∀ i, i + period < count →
    h.element size array (si + i) = h.element size array (si + i + period)

/-- A range moved to the left arrives when it repeats itself at the distance of
the move, in particular when the two ranges are disjoint. -/
theorem MovedDown.copied_iff {size : Nat} {h' : Heap} {array : Addr}
    {di : Nat} (hmoved : MovedDown size h h' array si di count) :
    Copied size h h' array si array di count ↔
      (di < si → Repeats size h array si count (si - di)) := by
  constructor
  · intro hcopied hlt i hi
    have hplace : di + (i + (si - di)) = si + i := by omega
    have hsource : si + (i + (si - di)) = si + i + (si - di) := by omega
    calc
      h.element size array (si + i) = h'.element size array (di + i) :=
        (hcopied.copied i (by omega)).symm
      _ = h'.element size array (si + i) := hmoved.left hlt i (by omega)
      _ = h'.element size array (di + (i + (si - di))) := by rw [hplace]
      _ = h.element size array (si + (i + (si - di))) :=
        hcopied.copied (i + (si - di)) hi
      _ = h.element size array (si + i + (si - di)) := by rw [hsource]
  · intro hrepeats
    refine ⟨?_, hmoved.kept, hmoved.other, hmoved.length⟩
    by_cases hle : si ≤ di
    · exact hmoved.right hle
    · have hlt : di < si := by omega
      -- the source places hold the old elements: from the end of the range down
      have hsame : ∀ fuel i, i < count → count - i ≤ fuel →
          h'.element size array (si + i) = h.element size array (si + i) := by
        intro fuel
        induction fuel with
        | zero =>
          intro i hi hfuel
          omega
        | succ fuel ih =>
          intro i hi hfuel
          by_cases hinside : i + (si - di) < count
          · have hplace : si + i = di + (i + (si - di)) := by omega
            have hsource : si + (i + (si - di)) = si + i + (si - di) := by omega
            calc
              h'.element size array (si + i) =
                  h'.element size array (di + (i + (si - di))) := by rw [← hplace]
              _ = h'.element size array (si + (i + (si - di))) :=
                hmoved.left hlt _ hinside
              _ = h.element size array (si + (i + (si - di))) :=
                ih _ hinside (by omega)
              _ = h.element size array (si + i) := by
                rw [hsource]
                exact (hrepeats hlt i hinside).symm
          · exact hmoved.kept _ (by omega)
      intro i hi
      rw [hmoved.left hlt i hi]
      exact hsame (count - i) i hi le_rfl

/-! The primitive and the checked copies. -/

/-- When a copy of elements stored as `tag` says leaves them at their places. -/
def Exact (size : Nat) (tag : Tag) (h : Heap) (src : Addr) (si : Nat) (dst : Addr)
    (di count : Nat) : Prop :=
  tag = .unboxed ∨ (src = dst → di < si → Repeats size h src si count (si - di))

theorem smlCopyary_copied (hsize : 0 < ptrSize) {si di len : UInt32}
    (hsrc : ptrSize * (si.toNat + len.toNat) ≤ (h src).payload.length)
    (hdst : ptrSize * (di.toNat + len.toNat) ≤ (h dst).payload.length) :
    ∃ h', smlCopyary ptrSize h src si dst di len = .ok h' ∧
      (Copied ptrSize h h' src si.toNat dst di.toNat len.toNat ↔
        (src = dst → di.toNat < si.toNat →
          Repeats ptrSize h src si.toNat len.toNat (si.toNat - di.toNat))) := by
  by_cases hsame : src = dst
  · subst hsame
    obtain ⟨h', hcopy, hmoved⟩ := copyDown_movedDown hsize si di len.toNat h hsrc hdst
    refine ⟨h', by rw [smlCopyary, if_pos rfl, hcopy], ?_⟩
    rw [hmoved.copied_iff]
    exact ⟨fun hrepeats _ => hrepeats, fun hrepeats => hrepeats rfl⟩
  · obtain ⟨h', hcopy, hcopied⟩ := copyUp_copied hsize hsame len.toNat si di h hsrc hdst
    refine ⟨h', by rw [smlCopyary, if_neg hsame, hcopy], ?_⟩
    exact ⟨fun _ heq => absurd heq hsame, fun _ => hcopied⟩

/-- Offsets in an object do not wrap. -/
theorem arrayElemOffset_eq {size index : UInt32} {object : Object}
    (hfit : size.toNat * index.toNat ≤ object.payload.length) :
    arrayElemOffset size index = (size.toNat * index.toNat : Nat) := by
  have hlt := lt_of_le_of_lt hfit object.size_lt
  have hnat : (size * index).toNat = size.toNat * index.toNat := by
    rw [UInt32.toNat_mul]
    exact Nat.mod_eq_of_lt (by omega)
  have hint : (size * index).toInt32.toInt = ((size * index).toNat : Int) := by
    change (size * index).toBitVec.toInt = _
    rw [BitVec.toInt_eq_toNat_of_lt]
    · rfl
    · change 2 * (size * index).toNat < 2 ^ 32
      omega
  rw [arrayElemOffset, hint, hnat]

theorem memmoveUnboxedArray_copied {si di numElems elemSize : UInt32}
    (hsrc : elemSize.toNat * (si.toNat + numElems.toNat) ≤ (h src).payload.length)
    (hdst : elemSize.toNat * (di.toNat + numElems.toNat) ≤ (h dst).payload.length) :
    ∃ h', memmoveUnboxedArray h src si dst di numElems elemSize = .ok h' ∧
      Copied elemSize.toNat h h' src si.toNat dst di.toNat numElems.toNat := by
  have hsum := Nat.mul_add elemSize.toNat si.toNat numElems.toNat
  have hsum' := Nat.mul_add elemSize.toNat di.toNat numElems.toNat
  have hlt := lt_of_le_of_lt hsrc (h src).size_lt
  have hcomm := Nat.mul_comm numElems.toNat elemSize.toNat
  have hbytes : (numElems * elemSize).toNat = elemSize.toNat * numElems.toNat := by
    rw [UInt32.toNat_mul, hcomm]
    exact Nat.mod_eq_of_lt (by omega)
  have hsrcOffset : arrayElemOffset elemSize si = (elemSize.toNat * si.toNat : Nat) :=
    arrayElemOffset_eq (le_trans (by omega) hsrc)
  have hdstOffset : arrayElemOffset elemSize di = (elemSize.toNat * di.toNat : Nat) :=
    arrayElemOffset_eq (le_trans (by omega) hdst)
  rw [memmoveUnboxedArray, if_pos (by omega), hbytes,
    hsrcOffset, hdstOffset]
  exact moveBytes_copied hsrc hdst

section Checked

variable {ptrSize : Nat} {elem : Elem ptrSize} {h : Heap}

theorem toNat_toUInt32 {x : Int32} (hx : 0 ≤ x.toInt) :
    x.toUInt32.toNat = x.toInt.toNat :=
  Int32.toNat_toUInt32_of_le (Int32.le_iff_toInt_le.2 (by simpa using hx))

theorem toInt_arrayLength (elem : Elem ptrSize) (h : Heap) (array : Addr) :
    (arrayLength elem h array).toInt =
      ((h array).payload.length / elem.size.toNat : Nat) := by
  have hlt := (h array).size_lt
  have hquot : (UInt32.ofNat (h array).payload.length / elem.size).toNat =
      (h array).payload.length / elem.size.toNat := by
    rw [UInt32.toNat_div, UInt32.toNat_ofNat', Nat.mod_eq_of_lt (by omega)]
  have hdiv := Nat.div_le_self (h array).payload.length elem.size.toNat
  rw [← hquot]
  change (UInt32.ofNat (h array).payload.length / elem.size).toBitVec.toInt = _
  rw [BitVec.toInt_eq_toNat_of_lt]
  · rfl
  · change 2 * (UInt32.ofNat (h array).payload.length / elem.size).toNat < 2 ^ 32
    omega

/-- The length of an array counts the elements that its object has room for. -/
theorem mul_le_of_le_arrayLength {array : Addr}
    (hle : (count : Int) ≤ (arrayLength elem h array).toInt) :
    elem.size.toNat * count ≤ (h array).payload.length := by
  rw [toInt_arrayLength] at hle
  calc
    elem.size.toNat * count ≤
        elem.size.toNat * ((h array).payload.length / elem.size.toNat) :=
      Nat.mul_le_mul_left _ (by omega)
    _ ≤ (h array).payload.length := Nat.mul_div_le _ _

/-- A range of elements lies in an array. -/
structure InBounds (elem : Elem ptrSize) (h : Heap) (array : Addr)
    (start length : Int32) : Prop where
  start_nonneg : 0 ≤ start.toInt
  length_nonneg : 0 ≤ length.toInt
  le_length : start.toInt + length.toInt ≤ (arrayLength elem h array).toInt

theorem InBounds.fit {array : Addr} {start length : Int32}
    (hin : InBounds elem h array start length) :
    elem.size.toNat * (start.toInt.toNat + length.toInt.toNat) ≤
      (h array).payload.length := by
  refine mul_le_of_le_arrayLength ?_
  have hstart := hin.start_nonneg
  have hlength := hin.length_nonneg
  have hle := hin.le_length
  omega

theorem Slice.inBounds (slice : Slice elem h) :
    InBounds elem h slice.seq slice.start slice.length :=
  ⟨slice.start_nonneg, slice.length_nonneg, slice.le_length⟩

/-- A copy that leaves the elements of the source in the destination, as they
were before it. -/
def Moves (elem : Elem ptrSize) (h : Heap) (result : Except Failure Heap) (src : Addr)
    (si : Int32) (dst : Addr) (di length : Int32) : Prop :=
  ∃ h', result = .ok h' ∧
    Copied elem.size.toNat h h' src si.toInt.toNat dst di.toInt.toNat length.toInt.toNat

theorem copyUnsafe_moves_iff {si len : Int32}
    (hsrc : InBounds elem h src si len) (hdst : InBounds elem h dst di len) :
    Moves elem h (copyUnsafe elem h src si dst di len) src si dst di len ↔
      Exact elem.size.toNat elem.tag h src si.toInt.toNat dst di.toInt.toNat
        len.toInt.toNat := by
  have hsi := toNat_toUInt32 hsrc.start_nonneg
  have hdi := toNat_toUInt32 hdst.start_nonneg
  have hlen := toNat_toUInt32 hsrc.length_nonneg
  have hsrcfit := hsrc.fit
  have hdstfit := hdst.fit
  rw [← hsi, ← hlen] at hsrcfit
  rw [← hdi, ← hlen] at hdstfit
  rw [Moves, ← hsi, ← hdi, ← hlen]
  cases htag : elem.tag with
  | unboxed =>
    obtain ⟨h', hcopy, hcopied⟩ := memmoveUnboxedArray_copied hsrcfit hdstfit
    have hresult : copyUnsafe elem h src si dst di len = .ok h' := by
      simp only [copyUnsafe, htag, hcopy]
    exact ⟨fun _ => Or.inl rfl, fun _ => ⟨h', hresult, hcopied⟩⟩
  | boxed =>
    rw [elem.size_boxed htag] at hsrcfit hdstfit ⊢
    have hsize : 0 < ptrSize := elem.size_boxed htag ▸ elem.size_pos
    obtain ⟨h', hcopy, hiff⟩ := smlCopyary_copied hsize hsrcfit hdstfit
    have hresult : copyUnsafe elem h src si dst di len = .ok h' := by
      simp only [copyUnsafe, htag, hcopy]
    rw [hresult]
    constructor
    · rintro ⟨h'', heq, hcopied⟩
      obtain rfl := Except.ok.inj heq
      exact Or.inr (hiff.1 hcopied)
    · rintro (hunboxed | hrepeats)
      · exact absurd hunboxed (by decide)
      · exact ⟨h', rfl, hiff.2 hrepeats⟩

/-- The check in front of a copy passes exactly on ranges in bounds. -/
theorem check_iff {length : Int32} (hlength : 0 ≤ length.toInt) :
    ¬(di < 0 ∨ arrayLength elem h dst < di ∨ arrayLength elem h dst - di < length) ↔
      InBounds elem h dst di length := by
  have hbound := (arrayLength elem h dst).toInt_lt
  have hzero : (0 : Int32).toInt = 0 := Int32.toInt_zero
  rw [Int32.lt_iff_toInt_lt, Int32.lt_iff_toInt_lt, Int32.lt_iff_toInt_lt, Int32.toInt_sub,
    hzero]
  constructor
  · intro hpass
    have hsub : ((arrayLength elem h dst).toInt - di.toInt).bmod (2 ^ 32) =
        (arrayLength elem h dst).toInt - di.toInt :=
      Int.bmod_eq_of_le (by omega) (by omega)
    rw [hsub] at hpass
    exact ⟨by omega, hlength, by omega⟩
  · rintro ⟨hdi, -, hle⟩ hfail
    have hsub : ((arrayLength elem h dst).toInt - di.toInt).bmod (2 ^ 32) =
        (arrayLength elem h dst).toInt - di.toInt :=
      Int.bmod_eq_of_le (by omega) (by omega)
    rw [hsub] at hfail
    omega

theorem SliceCommon.copy_of_inBounds (src : Slice elem h)
    (hdst : InBounds elem h dst di src.length) : SliceCommon.copy src dst di =
      copyUnsafe elem h src.seq src.start dst di src.length :=
  if_neg ((check_iff src.length_nonneg).2 hdst)

theorem SliceCommon.copyVec_of_inBounds (src : Slice elem h)
    (hdst : InBounds elem h dst di src.length) :
    SliceCommon.copyVec src dst di =
      copyUnsafe elem h src.seq src.start dst di src.length :=
  if_neg ((check_iff src.length_nonneg).2 hdst)

theorem arrayLength_nonneg (elem : Elem ptrSize) (h : Heap) (array : Addr) :
    0 ≤ (arrayLength elem h array).toInt := by
  rw [toInt_arrayLength]
  exact Int.natCast_nonneg _

theorem Array.copy_of_inBounds (hdst : InBounds elem h dst di (arrayLength elem h src)) :
    Array.copy elem h src dst di =
      copyUnsafe elem h src 0 dst di (arrayLength elem h src) := by
  have hpass := (check_iff (arrayLength_nonneg elem h src)).2 hdst
  simp only [not_or, Int32.not_lt] at hpass
  exact if_pos hpass

/-- The two implementations, on elements of a pointer's size. -/
theorem smlCopyary_eq_memmove_iff (hsize : elem.size.toNat = ptrSize)
    {si len : Int32} (hsrc : InBounds elem h src si len)
    (hdst : InBounds elem h dst di len) :
    smlCopyary ptrSize h src si.toUInt32 dst di.toUInt32 len.toUInt32 =
        memmoveUnboxedArray h src si.toUInt32 dst di.toUInt32 len.toUInt32 elem.size ↔
      Exact ptrSize .boxed h src si.toInt.toNat dst di.toInt.toNat len.toInt.toNat := by
  have hsi := toNat_toUInt32 hsrc.start_nonneg
  have hdi := toNat_toUInt32 hdst.start_nonneg
  have hlen := toNat_toUInt32 hsrc.length_nonneg
  have hsrcfit := hsrc.fit
  have hdstfit := hdst.fit
  rw [← hsi, ← hlen] at hsrcfit
  rw [← hdi, ← hlen] at hdstfit
  rw [← hsi, ← hdi, ← hlen]
  have hpos : 0 < ptrSize := hsize ▸ elem.size_pos
  obtain ⟨h₁, hmove, hmoved⟩ := memmoveUnboxedArray_copied hsrcfit hdstfit
  rw [hsize] at hsrcfit hdstfit hmoved
  obtain ⟨h₂, hcopy, hiff⟩ := smlCopyary_copied hpos hsrcfit hdstfit
  rw [hmove, hcopy, Except.ok.injEq]
  constructor
  · rintro rfl
    exact Or.inr (hiff.1 hmoved)
  · rintro (hunboxed | hrepeats)
    · exact absurd hunboxed (by decide)
    · exact Copied.unique hpos (hiff.2 hrepeats) hmoved

/-- A copy that stays in bounds moves the elements, unless it moves a range of
boxed elements to the left in one array over itself. -/
theorem copy_moves_iff (elem : Elem ptrSize) (h : Heap) (src : Slice elem h)
    (array dst : Addr) (di : Int32) :
    (InBounds elem h dst di src.length →
      (Moves elem h (SliceCommon.copy src dst di) src.seq src.start dst di src.length ↔
        Exact elem.size.toNat elem.tag h src.seq src.start.toInt.toNat dst
          di.toInt.toNat src.length.toInt.toNat) ∧
      (Moves elem h (SliceCommon.copyVec src dst di) src.seq src.start dst di src.length ↔
        Exact elem.size.toNat elem.tag h src.seq src.start.toInt.toNat dst
          di.toInt.toNat src.length.toInt.toNat) ∧
      (elem.size.toNat = ptrSize →
        (smlCopyary ptrSize h src.seq src.start.toUInt32 dst di.toUInt32
              src.length.toUInt32 =
            memmoveUnboxedArray h src.seq src.start.toUInt32 dst di.toUInt32
              src.length.toUInt32 elem.size ↔
          Exact ptrSize .boxed h src.seq src.start.toInt.toNat dst di.toInt.toNat
            src.length.toInt.toNat))) ∧
      (InBounds elem h dst di (arrayLength elem h array) →
        Moves elem h (Array.copy elem h array dst di) array 0 dst di
          (arrayLength elem h array)) := by
  refine ⟨fun hdst => ⟨?_, ?_, ?_⟩, fun hdst => ?_⟩
  · rw [SliceCommon.copy_of_inBounds src hdst]
    exact copyUnsafe_moves_iff src.inBounds hdst
  · rw [SliceCommon.copyVec_of_inBounds src hdst]
    exact copyUnsafe_moves_iff src.inBounds hdst
  · intro hsize
    exact smlCopyary_eq_memmove_iff hsize src.inBounds hdst
  · have hsrc : InBounds elem h array 0 (arrayLength elem h array) :=
      ⟨by simp, arrayLength_nonneg elem h array, by simp⟩
    rw [Array.copy_of_inBounds hdst, copyUnsafe_moves_iff hsrc hdst]
    exact Or.inr fun _ hlt => absurd hlt (by simp)

end Checked

section Overlap

/-- One array of three pointers. -/
def threePointers : Heap := fun _ =>
  ⟨[1, 0, 0, 0, 0, 0, 0, 0, 2, 0, 0, 0, 0, 0, 0, 0, 3, 0, 0, 0, 0, 0, 0, 0], by decide⟩

def boxedElem : Elem 8 where
  tag := .boxed
  size := 8
  size_pos := by decide
  size_boxed := fun _ => rfl

/-- The last two elements of the array. -/
def lastTwo : Slice boxedElem threePointers where
  seq := 0
  start := 1
  length := 2
  start_nonneg := by decide
  length_nonneg := by decide
  le_length := by decide

/-- The last two elements of an array of three pointers to its front, and the
array onto itself. -/
theorem copy_moves_iff_lastTwo :
    (Moves boxedElem threePointers (SliceCommon.copy lastTwo 0 0) 0 1 0 0 2 ↔
      Exact 8 .boxed threePointers 0 1 0 0 2) ∧
      Moves boxedElem threePointers (Array.copy boxedElem threePointers 0 0 0) 0 0 0 0 3 := by
  have hall := copy_moves_iff boxedElem threePointers lastTwo 0 0 0
  exact ⟨(hall.1 ⟨by decide, by decide, by decide⟩).1,
    hall.2 ⟨by decide, by decide, by decide⟩⟩

/-- Copied one place to the left, the first of them is lost. -/
theorem copy_lastTwo_overwrites :
    ¬Moves boxedElem threePointers (SliceCommon.copy lastTwo 0 0) 0 1 0 0 2 := by
  rintro ⟨h', hcopy, hcopied⟩
  have hfirst : (SliceCommon.copy lastTwo 0 0).map (fun h => h.element 8 0 0) =
      .ok [3, 0, 0, 0, 0, 0, 0, 0] := by decide
  rw [hcopy] at hfirst
  have hread : h'.element 8 0 0 = [3, 0, 0, 0, 0, 0, 0, 0] := Except.ok.inj hfirst
  have hmoved : h'.element 8 0 0 = threePointers.element 8 0 1 := hcopied.copied 0 (by decide)
  rw [hread] at hmoved
  exact absurd hmoved (by decide)

end Overlap

end ArrayCopy

end SmlSharp
