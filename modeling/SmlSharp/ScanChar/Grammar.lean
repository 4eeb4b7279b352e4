/-
The items of strings: the printable characters and the escape sequences of SML and
of C.  An item may have a number that is not the code of a character.
-/
import SmlSharp.ScanChar.Scanner

namespace SmlSharp

namespace ScanChar

/-- The characters between the backslashes of a gap. -/
def formatting : List UInt8 := [9, 10, 11, 12, 13, 32]

/-- The value of a digit, given its radix. -/
def digit (radix : Nat) (c : UInt8) : Option Nat :=
  let value :=
    if 48 ≤ c ∧ c ≤ 57 then c.toNat - 48
    else if 65 ≤ c ∧ c ≤ 70 then c.toNat - 55
    else if 97 ≤ c ∧ c ≤ 102 then c.toNat - 87
    else radix
  if value < radix then some value else none

def numberFrom (radix : Nat) : Nat → List UInt8 → Option Nat
  | n, [] => some n
  | n, c :: digits => (digit radix c).bind fun d => numberFrom radix (n * radix + d) digits

/-- The number that the digits denote. -/
def number (radix : Nat) (digits : List UInt8) : Option Nat := numberFrom radix 0 digits

/-- The character of a number. -/
def charOf (n : Nat) : Option UInt8 := if n ≤ 255 then some (UInt8.ofNat n) else none

/-- The control character that is written with a caret. -/
def controlChar (c : UInt8) : Option UInt8 :=
  if 64 ≤ c ∧ c ≤ 95 then some (c - 64) else none

def letters : List (UInt8 × UInt8) :=
  [(chr 'a', 7), (chr 'b', 8), (chr 't', 9), (chr 'n', 10), (chr 'v', 11), (chr 'f', 12),
    (chr 'r', 13), (chr '\\', chr '\\'), (chr '"', chr '"')]

/-- A character or an escape sequence of SML, and the character that it denotes. -/
inductive SmlEscape : List UInt8 → Option UInt8 → Prop where
  | printable {c : UInt8} (hprint : 32 ≤ c ∧ c ≤ 126) (hne : c ≠ chr '\\') :
      SmlEscape [c] (some c)
  | letter {l c : UInt8} (hletter : (l, c) ∈ letters) : SmlEscape [chr '\\', l] (some c)
  | control (c : UInt8) : SmlEscape [chr '\\', chr '^', c] (controlChar c)
  | decimal {digits : List UInt8} {n : Nat} (hlen : digits.length = 3)
      (hnumber : number 10 digits = some n) : SmlEscape (chr '\\' :: digits) (charOf n)
  | unicode {digits : List UInt8} {n : Nat} (hlen : digits.length = 4)
      (hnumber : number 16 digits = some n) :
      SmlEscape (chr '\\' :: chr 'u' :: digits) (charOf n)

/-- A gap: formatting characters between backslashes. -/
def Gap (g : List UInt8) : Prop :=
  ∃ spaces, spaces ≠ [] ∧ (∀ c ∈ spaces, c ∈ formatting) ∧
    g = chr '\\' :: (spaces ++ [chr '\\'])

inductive Gaps : List UInt8 → Prop where
  | nil : Gaps []
  | cons {g gs : List UInt8} (head : Gap g) (tail : Gaps gs) : Gaps (g ++ gs)

/-- An item of SML: gaps may stand in front of the character. -/
def SmlItem (w : List UInt8) (v : Option UInt8) : Prop :=
  ∃ g e, Gaps g ∧ SmlEscape e v ∧ w = g ++ e

/-- A character or an escape sequence of C. -/
inductive CItem : List UInt8 → Option UInt8 → Prop where
  | printable {c : UInt8} (hprint : 32 ≤ c ∧ c ≤ 126) (hne : c ≠ chr '\\') :
      CItem [c] (some c)
  | letter {l c : UInt8}
      (hletter : (l, c) ∈ letters ++ [(chr '?', chr '?'), (chr '\'', chr '\'')]) :
      CItem [chr '\\', l] (some c)
  | control (c : UInt8) : CItem [chr '\\', chr '^', c] (controlChar c)
  | octal {digits : List UInt8} {n : Nat} (hlen : 1 ≤ digits.length ∧ digits.length ≤ 3)
      (hnumber : number 8 digits = some n) : CItem (chr '\\' :: digits) (charOf n)
  | hex {digits : List UInt8} {n : Nat} (hlen : digits ≠ [])
      (hnumber : number 16 digits = some n) :
      CItem (chr '\\' :: chr 'x' :: digits) (charOf n)

section Specification

variable {σ : Type} (item : List UInt8 → Option UInt8 → Prop) (getc : Reader UInt8 σ)

/-- The result of a scanner: the character that the longest item at the position
denotes. -/
def Scans (s : σ) (r : Option (UInt8 × σ)) : Prop :=
  (∃ w t v, Longest getc (fun w => ∃ v, item w v) s w t ∧ item w v ∧ r = v.map (·, t)) ∨
    ((∀ w t, ¬ Longest getc (fun w => ∃ v, item w v) s w t) ∧ r = none)

/-- The items read from a position on, and the characters that they denote. -/
inductive Items : σ → List UInt8 → σ → Prop where
  | nil (s : σ) : Items s [] s
  | cons {s t u : σ} {c : UInt8} {cs : List UInt8} (head : Scans item getc s (some (c, t)))
      (tail : Items t cs u) : Items s (c :: cs) u

/-- The items are all that can be read: there is none behind them. -/
def AllItems (s : σ) (cs : List UInt8) (u : σ) : Prop :=
  Items item getc s cs u ∧ Scans item getc u none

end Specification

section Conditions

variable {σ : Type} (getc : Reader UInt8 σ)

/-- The formatting characters at the position come to an end. -/
inductive SpacesEnd : σ → Prop where
  | stop {s : σ} (hstop : ∀ c t, getc s = some (c, t) → c ∉ formatting) : SpacesEnd s
  | skip {s t : σ} {c : UInt8} (hread : getc s = some (c, t)) (hspace : c ∈ formatting)
      (hend : SpacesEnd t) : SpacesEnd s

/-- The gaps at the position come to an end. -/
inductive GapsEnd : σ → Prop where
  | plain {s : σ} (hplain : ∀ t, getc s ≠ some (chr '\\', t)) : GapsEnd s
  | none {s t : σ} (hread : getc s = some (chr '\\', t)) (hend : SpacesEnd getc t)
      (hnone : ∀ g u, Gap g → ¬ Reads getc s g u) : GapsEnd s
  | gap {s t : σ} {g : List UInt8} (hgap : Gap g) (hread : Reads getc s g t)
      (hend : GapsEnd t) : GapsEnd s

/-- The zeros at the position come to an end. -/
inductive ZerosEnd : σ → Prop where
  | stop {s : σ} (hstop : ∀ t, getc s ≠ some (chr '0', t)) : ZerosEnd s
  | skip {s t : σ} (hread : getc s = some (chr '0', t)) (hend : ZerosEnd t) : ZerosEnd s

/-- Behind the gaps a caret escape stands that is not a control character. -/
def BadControl (s : σ) : Prop :=
  ∃ g c t, Gaps g ∧ Reads getc s (g ++ [chr '\\', chr '^', c]) t ∧ controlChar c = none

/-- A caret escape that is not a control character, or an octal escape above 255. -/
def BadCEscape (s : σ) : Prop :=
  (∃ c t, Reads getc s [chr '\\', chr '^', c] t ∧ controlChar c = none) ∨
    ∃ digits n t, digits.length = 3 ∧ number 8 digits = some n ∧ 255 < n ∧
      Reads getc s (chr '\\' :: digits) t

/-- The zeros of a hexadecimal escape in C come to an end. -/
def CZerosEnd (s : σ) : Prop :=
  ∀ t, Reads getc s [chr '\\', chr 'x'] t → ZerosEnd getc t

/-- Where the items of a string begin: behind a gap, if there is one. -/
def Begins (s s' : σ) : Prop :=
  (∃ g, Gap g ∧ Reads getc s g s') ∨ ((∀ g t, Gap g → ¬ Reads getc s g t) ∧ s' = s)

/-- The result of `String.scan`: the characters of all the items.  Where there are none,
a string is read only from the end of the stream and behind a gap. -/
def ScansString (s : σ) (r : Option (List UInt8 × σ)) : Prop :=
  ∃ s' cs u, Begins getc s s' ∧ AllItems SmlItem getc s' cs u ∧
    ((cs = [] ∧ getc s ≠ none ∧ (∀ g t, Gap g → ¬ Reads getc s g t)) ∧ r = none ∨
      ¬ (cs = [] ∧ getc s ≠ none ∧ (∀ g t, Gap g → ¬ Reads getc s g t)) ∧
        r = some (cs, u))

/-- The characters of the items fit in a string, and what stands behind them is not
accepted by mistake. -/
def StringOk (s : σ) : Prop :=
  ∃ s' cs u, Begins getc s s' ∧ AllItems SmlItem getc s' cs u ∧ cs.length ≤ maxSize ∧
    ¬ BadControl getc u ∧ GapsEnd getc u

end Conditions

end ScanChar

end SmlSharp
