/-
The formatting of reals from their decimal digits, by writes to string buffers
that are not checked.
-/
import Mathlib.Algebra.Ring.Int.Defs
import Mathlib.Algebra.Ring.Nat
import SmlSharp.Lib.WriteBuffer
import SmlSharp.Lib.StateExcept

namespace SmlSharp.Real64

inductive Failure where
  | overflow
  | size
  /-- Characters are read that the string does not have. -/
  | undefined
  /-- A loop does not stop. -/
  | diverges
deriving DecidableEq, Repr

/-- The `Int32` arithmetic, checked and not.  The state says whether every operation of the
unchecked integer arithmetic was exact. -/
abbrev Fmt := StateT Bool (Except Failure)

abbrev Buffer := WriteBuffer Char

def InRange (n : Int) : Prop := -2 ^ 31 ≤ n ∧ n < 2 ^ 31

instance (n : Int) : Decidable (InRange n) := inferInstanceAs (Decidable (_ ∧ _))

/-- The integer of 32 bits that is left of a result. -/
def wrap (n : Int) : Int := n.bmod (2 ^ 32)

namespace Int32Arith

def checked (n : Int) : Fmt Int := if InRange n then pure n else throw .overflow

def add (x y : Int) : Fmt Int := checked (x + y)

def sub (x y : Int) : Fmt Int := checked (x - y)

def unchecked (n : Int) : Fmt Int := do
  modify fun exact => exact && decide (InRange n)
  return wrap n

def addUnsafe (x y : Int) : Fmt Int := unchecked (x + y)

def subUnsafe (x y : Int) : Fmt Int := unchecked (x - y)

end Int32Arith

/-- `handle Overflow => raise Size` -/
def orSize {α : Type} (x : Fmt α) : Fmt α := fun exact =>
  match x exact with
  | .error .overflow => .error .size
  | result => result

def maxStringSize : Int := 0x0fffffff - 1

/-- `String.alloc` -/
def stringAlloc (size : Int) : Fmt Buffer :=
  if 0 ≤ size ∧ size ≤ maxStringSize then pure (.alloc size) else throw .size

/-- `Array.copy_unsafe` -/
def copyUnsafe (src : List Char) (si : Int) (buf : Buffer) (di len : Int) : Fmt Buffer :=
  if 0 ≤ si ∧ 0 ≤ len ∧ si + len ≤ src.length then
    pure (buf.updateFrom di ((src.drop si.toNat).take len.toNat))
  else throw .undefined

def storeSign (buf : Buffer) (sign : Bool) : Buffer :=
  if sign then buf.update 0 '~' else buf

/-- The loop of `fillZero`, given the number of its iterations. -/
def fillZeroLoop (limit : Int) : Nat → Buffer → Int → Fmt Buffer
  | 0, buf, i => if i ≥ limit then pure buf else throw .diverges
  | fuel + 1, buf, i =>
    if i ≥ limit then pure buf
    else do
      let next ← Int32Arith.addUnsafe i 1
      fillZeroLoop limit fuel (buf.update i '0') next

def fillZero (buf : Buffer) (index limit : Int) : Fmt Buffer :=
  fillZeroLoop limit (limit - index).toNat buf index

open Int32Arith

def insertSignAndDot (sign : Bool) (decpt : Int) (digits : List Char) (prec : Int) :
    Fmt Buffer := do
  let plen : Int := if sign then 1 else 0
  let slen : Int := digits.length
  if decpt ≤ 0 then
    let pzeroes ← orSize (sub 0 decpt)
    let frac ← orSize (add pzeroes slen)
    let tzeroes ← orSize (if frac < prec then sub prec frac else pure 0)
    let frac ← orSize (add frac tzeroes)
    let frac ← orSize (if 0 < frac then add frac 1 else pure 0)
    let buflen ← orSize (do add (← add plen 1) frac)
    let buf ← stringAlloc buflen
    let buf := storeSign buf sign
    let buf := buf.update plen '0'
    if frac > 0 then
      let buf := buf.update (← addUnsafe plen 1) '.'
      let start ← addUnsafe plen 2
      let stop ← addUnsafe (← addUnsafe plen 2) pzeroes
      let buf ← fillZero buf start stop
      let di ← addUnsafe (← addUnsafe plen 2) pzeroes
      let buf ← copyUnsafe digits 0 buf di slen
      if tzeroes > 0 then
        let start ← addUnsafe (← addUnsafe (← addUnsafe plen 2) pzeroes) slen
        fillZero buf start buflen
      else pure buf
    else pure buf
  else if slen ≤ decpt then
    let zeroes ← orSize (sub decpt slen)
    let frac ← orSize (if 0 < prec then add prec 1 else pure 0)
    let buflen ← orSize (do add (← add (← add plen slen) zeroes) frac)
    let buf ← stringAlloc buflen
    let buf := storeSign buf sign
    let buf ← copyUnsafe digits 0 buf plen slen
    let start ← addUnsafe plen slen
    let stop ← addUnsafe (← addUnsafe plen slen) zeroes
    let buf ← fillZero buf start stop
    if frac > 0 then
      let i ← addUnsafe (← addUnsafe plen slen) zeroes
      let buf := buf.update i '.'
      let start ← addUnsafe i 1
      fillZero buf start buflen
    else pure buf
  else
    let frac ← orSize (sub slen decpt)
    let zeroes ← orSize (if frac < prec then sub prec frac else pure 0)
    let buflen ← orSize (do add (← add (← add plen slen) 1) zeroes)
    let buf ← stringAlloc buflen
    let buf := storeSign buf sign
    let buf ← copyUnsafe digits 0 buf plen decpt
    let buf := buf.update (← addUnsafe plen decpt) '.'
    let start ← addUnsafe (← addUnsafe plen decpt) 1
    let rest ← subUnsafe slen decpt
    let buf ← copyUnsafe digits decpt buf start rest
    if zeroes > 0 then
      let start ← addUnsafe (← addUnsafe plen slen) 1
      fillZero buf start buflen
    else pure buf

/-- `Word8.castToChar (Word8.sub (0wx30, Word8.fromInt32 r))` -/
def digitChar (r : Int) : Char := Char.ofNat ((0x30 - r) % 256).toNat

/-- The loop of `intToChars`, which gives the digits of numbers up to zero. -/
def intToCharsLoop (n : Int) (z : List Char) (len : Int) : Fmt (List Char × Int) :=
  if _hn : n = 0 then pure (z, len)
  else do
    let len ← add len 1
    intToCharsLoop (n.tdiv 10) (digitChar (n.tmod 10) :: z) len
termination_by n.natAbs
decreasing_by
  rw [Int.natAbs_tdiv]
  exact Nat.div_lt_self (by omega) (by decide)

def intToChars (sign : Char) (n pos : Int) : Fmt (List Char × Int) :=
  if n = 0 then do
    let len ← add pos 1
    return (['0'], len)
  else if 0 < n then do
    let negated ← subUnsafe 0 n
    intToCharsLoop negated [] pos
  else do
    let (l, len) ← intToCharsLoop n [] (← add pos 1)
    return (sign :: l, len)

def copyChars : Buffer → Int → List Char → Fmt Buffer
  | buf, _, [] => pure buf
  | buf, i, h :: t => do
      let next ← addUnsafe i 1
      copyChars (buf.update i h) next t

def appendExponent (str : List Char) (sign : Char) (exp : Int) : Fmt Buffer := do
  let slen : Int := str.length
  let (exp, allocSize) ← orSize (do intToChars sign exp (← add slen 1))
  let buf ← stringAlloc allocSize
  let buf ← copyUnsafe str 0 buf 0 slen
  let buf := buf.update slen 'E'
  let start ← addUnsafe slen 1
  copyChars buf start exp

def fmtSCI' (sign : Bool) (decpt : Int) (digits : List Char) (prec : Int) : Fmt Buffer := do
  let exp ← subUnsafe decpt 1
  let str ← insertSignAndDot sign 1 digits prec
  appendExponent str.contents '~' exp

end SmlSharp.Real64
