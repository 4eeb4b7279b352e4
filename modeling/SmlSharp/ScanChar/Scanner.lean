/-
The scanners for characters and strings of the basis library.  They read from a
functional stream and go back to an earlier position by using it again.  The loops
take an amount of fuel, because a stream may have no end.
-/
import SmlSharp.Lib.Except
import SmlSharp.Lib.Reader

namespace SmlSharp

namespace ScanChar

/-- Why a function does not return: the fuel of a loop is used up, or it raises
`Size`. -/
inductive Stop where
  | fuel
  | size
deriving DecidableEq, Repr

/-- The code of a character literal of the source. -/
def chr (c : Char) : UInt8 := UInt8.ofNat c.toNat

/-- `Char.ord`. -/
def ord (c : UInt8) : Int := c.toNat

/-- `Word8.castToChar (Word8.fromInt32 n)`. -/
def fromInt32 (n : Int) : UInt8 := UInt8.ofNat (n % 256).toNat

/-- The value that `scanDigit` takes a character for. -/
def decDigit (c : UInt8) : Option Int :=
  if chr '0' ≤ c ∧ c ≤ chr '9' then some (ord c - 0x30) else none

def octDigit (c : UInt8) : Option Int :=
  if chr '0' ≤ c ∧ c ≤ chr '7' then some (ord c - 0x30) else none

def hexDigit (c : UInt8) : Option Int :=
  if chr '0' ≤ c ∧ c ≤ chr '9' then some (ord c - 0x30)
  else if chr 'A' ≤ c ∧ c ≤ chr 'F' then some (ord c - 0x41 + 10)
  else if chr 'a' ≤ c ∧ c ≤ chr 'f' then some (ord c - 0x61 + 10)
  else none

section Scanners

variable {σ : Type} (getc : Reader UInt8 σ)

def scanValue (value : UInt8 → Option Int) (strm : σ) : Option (Int × σ) :=
  match getc strm with
  | none => none
  | some (c, strm) => (value c).map (·, strm)

def scanDigit : σ → Option (Int × σ) := scanValue getc decDigit

def scanOctDigit : σ → Option (Int × σ) := scanValue getc octDigit

def scanHexDigit : σ → Option (Int × σ) := scanValue getc hexDigit

def scanDec3 (strm : σ) : Option (Int × σ) := do
  let (n1, strm) ← scanDigit getc strm
  let (n2, strm) ← scanDigit getc strm
  let (n3, strm) ← scanDigit getc strm
  return ((n1 * 10 + n2) * 10 + n3, strm)

def scanHex4 (strm : σ) : Option (Int × σ) := do
  let (n1, strm) ← scanHexDigit getc strm
  let (n2, strm) ← scanHexDigit getc strm
  let (n3, strm) ← scanHexDigit getc strm
  let (n4, strm) ← scanHexDigit getc strm
  return (((n1 * 16 + n2) * 16 + n3) * 16 + n4, strm)

def skipZero : Nat → σ → Except Stop σ
  | 0, _ => .error .fuel
  | fuel + 1, strm =>
    match getc strm with
    | some (c, strm') => if c = chr '0' then skipZero fuel strm' else .ok strm
    | none => .ok strm

/-- The escapes of one letter, which `scanEscapeSequence` knows. -/
def escapeLetter (c : UInt8) : Option UInt8 :=
  match Char.ofUInt8 c with
  | 'a' => some 7
  | 'b' => some 8
  | 't' => some 9
  | 'n' => some 10
  | 'v' => some 11
  | 'f' => some 12
  | 'r' => some 13
  | '\\' => some (chr '\\')
  | '"' => some (chr '"')
  | _ => none

/-- The range check of a control character holds of every character. -/
def scanEscapeSequence (strm : σ) : Option (UInt8 × σ) :=
  match getc strm with
  | none => none
  | some (c, strm) =>
    if c = chr '^' then
      match getc strm with
      | none => none
      | some (c, strm) => if 64 ≤ c ∨ c ≤ 95 then some (c - 64, strm) else none
    else (escapeLetter c).map (·, strm)

def isSpace (c : UInt8) : Bool :=
  c = chr ' ' ∨ (chr '\t' ≤ c ∧ c ≤ chr '\r')

def skipSpaces : Nat → σ → Except Stop σ
  | 0, _ => .error .fuel
  | fuel + 1, strm =>
    match getc strm with
    | none => .ok strm
    | some (c, strm') => if isSpace c then skipSpaces fuel strm' else .ok strm

def scanSpaces (fuel : Nat) (strm : σ) : Except Stop (Option σ) :=
  match getc strm with
  | none => .ok none
  | some (c, strm) => if isSpace c then (skipSpaces getc fuel strm).map some else .ok none

/-- The rest of a gap, behind its first backslash. -/
def scanGapEnd (fuel : Nat) (strm : σ) : Except Stop (Option σ) := do
  match ← scanSpaces getc fuel strm with
  | none => return none
  | some strm =>
    match getc strm with
    | some (c, strm) => return if c = chr '\\' then some strm else none
    | none => return none

def scanEscapeSpaces (fuel : Nat) (strm : σ) : Except Stop (Option σ) :=
  match getc strm with
  | some (c, strm) => if c = chr '\\' then scanGapEnd getc fuel strm else .ok none
  | none => .ok none

/-- The character of a number that is in its range. -/
def charInRange (n : Int) (strm : σ) : Option (UInt8 × σ) :=
  if n < 0 ∨ 255 < n then none else some (fromInt32 n, strm)

def scanChar : Nat → σ → Except Stop (Option (UInt8 × σ))
  | 0, _ => .error .fuel
  | fuel + 1, strm =>
    match getc strm with
    | none => .ok none
    | some (c, strm) =>
      if c = chr '\\' then
        match scanEscapeSequence getc strm with
        | some scanned => .ok (some scanned)
        | none =>
          match getc strm with
          | none => .ok none
          | some (c, strm') =>
            if c = chr 'u' then
              match scanHex4 getc strm' with
              | none => .ok none
              | some (n, strm) => .ok (charInRange n strm)
            else
              match scanDec3 getc strm with
              | some (n, strm) => .ok (charInRange n strm)
              | none => do
                  match ← scanGapEnd getc fuel strm with
                  | none => return none
                  | some strm => scanChar fuel strm
      else if 32 ≤ c ∧ c ≤ 126 then .ok (some (c, strm))
      else .ok none

/-- The hexadecimal digits of an escape in C, behind the zeros. -/
def scanCHex (zero : Bool) (strm : σ) : Option (UInt8 × σ) :=
  match scanHexDigit getc strm with
  | none => if zero then some (0, strm) else none
  | some (n1, strm) =>
    match scanHexDigit getc strm with
    | none => some (fromInt32 n1, strm)
    | some (n2, strm) =>
      match scanHexDigit getc strm with
      | none => some (fromInt32 (n1 * 16 + n2), strm)
      | some _ => none

/-- The octal digits of an escape in C, of which the value is not checked. -/
def scanCOct (strm : σ) : Option (UInt8 × σ) :=
  match scanOctDigit getc strm with
  | none => none
  | some (n1, strm) =>
    match scanOctDigit getc strm with
    | none => some (fromInt32 n1, strm)
    | some (n2, strm) =>
      match scanOctDigit getc strm with
      | none => some (fromInt32 (n1 * 8 + n2), strm)
      | some (n3, strm) => some (fromInt32 ((n1 * 8 + n2) * 8 + n3), strm)

def scanCChar (fuel : Nat) (strm : σ) : Except Stop (Option (UInt8 × σ)) :=
  match getc strm with
  | none => .ok none
  | some (c, strm) =>
    if c = chr '\\' then
      match scanEscapeSequence getc strm with
      | some scanned => .ok (some scanned)
      | none =>
        match getc strm with
        | none => .ok none
        | some (c, strm') =>
          if c = chr '?' then .ok (some (chr '?', strm'))
          else if c = chr '\'' then .ok (some (chr '\'', strm'))
          else if c = chr 'x' then
            match getc strm' with
            | some (c, strm'') =>
              if c = chr '0' then
                (skipZero getc fuel strm'').map (scanCHex getc true)
              else .ok (scanCHex getc false strm')
            | none => .ok (scanCHex getc false strm')
          else .ok (scanCOct getc strm)
    else if 32 ≤ c ∧ c ≤ 126 then .ok (some (c, strm))
    else .ok none

end Scanners

section Strings

variable {σ β : Type}

/-- The loop of `scanRepeat0`. -/
def scanRepeat0 (scan : σ → Except Stop (Option (β × σ))) :
    Nat → List β → σ → Except Stop (List β × σ)
  | 0, _, _ => .error .fuel
  | fuel + 1, z, strm => do
      match ← scan strm with
      | none => return (z.reverse, strm)
      | some (c, strm) => scanRepeat0 scan fuel (c :: z) strm

def scanRepeat1 (scan : σ → Except Stop (Option (β × σ))) (fuel : Nat) (strm : σ) :
    Except Stop (Option (List β × σ)) := do
  match ← scan strm with
  | none => return none
  | some (c, strm) =>
    let (t, strm) ← scanRepeat0 scan fuel [] strm
    return some (c :: t, strm)

/-- `0x0ffffffe`, the largest size of a string. -/
def maxSize : Nat := 0x0ffffffe

/-- `CharVector.fromList`, which checks the size of the string. -/
def implode (chars : List UInt8) : Except Stop (List UInt8) :=
  if chars.length ≤ maxSize then .ok chars else .error .size

def implodeFirst : Option (List UInt8 × σ) → Except Stop (Option (List UInt8 × σ))
  | none => .ok none
  | some (chars, strm) => do
      let string ← implode chars
      return some (string, strm)

/-- `String.scan`. -/
def scan (getc : Reader UInt8 σ) (fuel : Nat) (strm : σ) :
    Except Stop (Option (List UInt8 × σ)) :=
  match getc strm with
  | none => .ok (some ([], strm))
  | some _ => do
      let (zero, strm) := match ← scanEscapeSpaces getc fuel strm with
        | none => (false, strm)
        | some strm => (true, strm)
      match ← scanRepeat1 (scanChar getc fuel) fuel strm with
      | none => return if zero then some ([], strm) else none
      | some scanned => implodeFirst (some scanned)

/-- The local function `scan` of `String.fromCString`. -/
def scanC (getc : Reader UInt8 σ) (fuel : Nat) (strm : σ) :
    Except Stop (Option (List UInt8 × σ)) := do
  implodeFirst (← scanRepeat1 (scanCChar getc fuel) fuel strm)

/-- The reader of `StringCvt.scanString`, which counts the index up. -/
def stringReader (string : List UInt8) : Reader UInt8 Nat := fun index =>
  string[index]?.map (·, index + 1)

def scanString (readerConverter : Reader UInt8 Nat → Nat → Except Stop (Option (β × Nat)))
    (string : List UInt8) : Except Stop (Option β) :=
  (readerConverter (stringReader string) 0).map (Option.map Prod.fst)

/-- `String.fromString`. -/
def fromString (fuel : Nat) (s : List UInt8) : Except Stop (Option (List UInt8)) :=
  scanString (fun getc => scan getc fuel) s

/-- `String.fromCString`. -/
def fromCString (fuel : Nat) (s : List UInt8) : Except Stop (Option (List UInt8)) :=
  match s with
  | [] => .ok (some [])
  | s => scanString (fun getc => scanC getc fuel) s

end Strings

end ScanChar

end SmlSharp
