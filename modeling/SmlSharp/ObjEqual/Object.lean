/-
Heap objects of the runtime, and `sml_obj_equal`, the comparison of two objects
behind the polymorphic equality.
-/
import SmlSharp.Lib.BitWords
import SmlSharp.Lib.Except

namespace SmlSharp

namespace ObjEqual

/-- The eight bytes of a word, as they stand in memory. -/
abbrev Word := List UInt8

def wordSize : Nat := 8

def null : Word := List.replicate 8 0

inductive ObjType where
  | unboxedVector
  | boxedVector
  | unboxedArray
  | boxedArray
  | unused
  | record
  | intinf
  | forwarded
deriving DecidableEq

/-- An object: its type, its payload, whose length is the size in the header,
and the bitmap words behind the payload; `intinf` is the number that an `INTINF`
object stands for. -/
structure Obj where
  objType : ObjType
  payload : List UInt8
  bitmaps : List (BitVec 32)
  intinf : Int

abbrev Heap := Word → Option Obj

inductive Stop where
  | fuel
  /-- An access outside the objects. -/
  | outside
  /-- `sml_fatal`, or an assertion that fails. -/
  | fatal
deriving DecidableEq

def deref (heap : Heap) (p : Word) : Except Stop Obj :=
  match heap p with
  | some obj => .ok obj
  | none => .error .outside

def assert (cond : Bool) : Except Stop Unit :=
  if cond then .ok () else .error .fatal

def Obj.size (obj : Obj) : Nat := obj.payload.length

/-- The `i`th word of the payload. -/
def Obj.word (obj : Obj) (i : Nat) : Except Stop Word :=
  let w := (obj.payload.drop (wordSize * i)).take wordSize
  if w.length = wordSize then .ok w else .error .outside

/-- `BITMAP_BIT`; the tag is `TAG_BOXED` if the bit is set. -/
def bitmapBit (bitmaps : List (BitVec 32)) (i : Nat) : Except Stop Bool :=
  match bitmaps[i / 32]? with
  | some w => .ok (w.getLsbD (i % 32))
  | none => .error .outside

def Obj.numBitmaps (obj : Obj) : Nat := (obj.size / wordSize + 32 - 1) / 32

/-- The equality of the first `size` bytes, as `memcmp` finds it. -/
def memcmp (obj1 obj2 : Obj) (size : Nat) : Except Stop Bool :=
  if size ≤ obj1.size ∧ size ≤ obj2.size then
    .ok (obj1.payload.take size == obj2.payload.take size)
  else
    .error .outside

/-- The loop over the bits of a record that is compared with a vector, with
the number of bits that are left. -/
def tagLoop (bitmaps : List (BitVec 32)) (tag : Bool) : Nat → Nat → Except Stop Bool
  | 0, _ => return true
  | n + 1, i => do
      let bit ← bitmapBit bitmaps i
      if bit ≠ tag then return false else tagLoop bitmaps tag n (i + 1)

section Loops

variable (equal : Word → Word → Except Stop Bool)

def boxedLoop (obj1 obj2 : Obj) : Nat → Nat → Except Stop Bool
  | 0, _ => return true
  | n + 1, i => do
      let w1 ← obj1.word i
      let w2 ← obj2.word i
      let same ← equal w1 w2
      if !same then return false else boxedLoop obj1 obj2 n (i + 1)

def bitmapLoop (obj1 obj2 : Obj) : Nat → Nat → Except Stop Bool
  | 0, _ => return true
  | n + 1, i =>
    match obj1.bitmaps[i]?, obj2.bitmaps[i]? with
    | some bits1, some bits2 =>
      if bits1 ≠ bits2 then return false else bitmapLoop obj1 obj2 n (i + 1)
    | _, _ => throw .outside

def recordLoop (obj1 obj2 : Obj) : Nat → Nat → Except Stop Bool
  | 0, _ => return true
  | n + 1, i => do
      let bit ← bitmapBit obj1.bitmaps i
      let w1 ← obj1.word i
      let w2 ← obj2.word i
      if !bit then
        if w1 ≠ w2 then return false else recordLoop obj1 obj2 n (i + 1)
      else do
        let same ← equal w1 w2
        if !same then return false else recordLoop obj1 obj2 n (i + 1)

/-- The objects of different types that are compared further: the vector, the
record, and the tag that all the bits of the record must have. -/
def mixed (obj1 obj2 : Obj) : Option (Obj × Obj × Bool) := do
  let (obj1, obj2) ←
    if obj1.objType = .record then some (obj2, obj1)
    else if obj2.objType ≠ .record then none
    else some (obj1, obj2)
  match obj1.objType with
  | .unboxedVector => some (obj1, obj2, false)
  | .boxedVector => some (obj1, obj2, true)
  | _ => none

/-- The switch on the type of the first object. -/
def compareObjs (obj1 obj2 : Obj) : Except Stop Bool :=
  match obj1.objType with
  | .unboxedArray | .boxedArray => return false
  | .unboxedVector => memcmp obj1 obj2 obj1.size
  | .boxedVector => do
      assert (obj1.size % wordSize == 0)
      boxedLoop equal obj1 obj2 (obj1.size / wordSize) 0
  | .intinf => return obj1.intinf == obj2.intinf
  | .record => do
      assert (obj1.numBitmaps == obj2.numBitmaps)
      assert (obj1.size % wordSize == 0)
      let same ← bitmapLoop obj1 obj2 obj1.numBitmaps 0
      if !same then return false
      else recordLoop equal obj1 obj2 (obj1.size / wordSize) 0
  | .unused | .forwarded => throw .fatal

/-- The comparison of two objects by their headers, and further. -/
def compareHeaders (obj1 obj2 : Obj) : Except Stop Bool :=
  if obj1.size ≠ obj2.size then return false
  else if obj1.objType ≠ obj2.objType then
    match mixed obj1 obj2 with
    | none => return false
    | some (obj1, obj2, tag) => do
        assert (obj2.size % wordSize == 0)
        let same ← tagLoop obj2.bitmaps tag (obj2.size / wordSize) 0
        if !same then return false else compareObjs equal obj1 obj2
  else
    compareObjs equal obj1 obj2

end Loops

/-- `sml_obj_equal`, with a bound on the depth of the recursion. -/
def smlObjEqual (heap : Heap) : Nat → Word → Word → Except Stop Bool
  | 0, _, _ => throw .fuel
  | fuel + 1, p1, p2 =>
    if p1 = p2 then return true
    else if p1 = null ∨ p2 = null then return false
    else do
      let obj1 ← deref heap p1
      let obj2 ← deref heap p2
      compareHeaders (smlObjEqual heap fuel) obj1 obj2

end ObjEqual

end SmlSharp
