/-
The text of a format expression, and the parser for such texts.
-/
import SmlSharp.FormatExpression.ParserComb
import SmlSharp.PrettyPrinter2.Machine

namespace SmlSharp

namespace FormatExpression

open PrettyPrinter2 ParserComb

/-! ### Numbers

The `int` of the source is unbounded here. -/

/-- `Int.toString`. -/
def intToString (n : Int) : List Char :=
  if n < 0 then '~' :: Nat.toDigits 10 n.natAbs else Nat.toDigits 10 n.natAbs

def isSpace (c : Char) : Bool := ('\t' ≤ c && c ≤ '\r') || c == ' '

def skipSpaces : List Char → List Char
  | [] => []
  | c :: strm => if isSpace c then skipSpaces strm else c :: strm

def scanDigit (c : Char) : Option Int :=
  if '0' ≤ c ∧ c ≤ '9' then some (c.toNat - 0x30) else none

def scanDigits : List Char → List Int × List Char
  | [] => ([], [])
  | c :: strm =>
    match scanDigit c with
    | none => ([], c :: strm)
    | some digit =>
      let (digits, strm) := scanDigits strm
      (digit :: digits, strm)

def scanSign : List Char → Bool × List Char
  | '+' :: strm => (false, strm)
  | '-' :: strm => (true, strm)
  | '~' :: strm => (true, strm)
  | strm => (false, strm)

def scanInt (strm : List Char) : Option (Bool × List Int × List Char) :=
  let (neg, strm) := scanSign (skipSpaces strm)
  match scanDigits strm with
  | ([], _) => none
  | (digits, strm) => some (neg, digits, strm)

/-- `Int.scan StringCvt.DEC`. -/
def scan : Parser Int := fun strm =>
  match scanInt strm with
  | none => .ok none
  | some (neg, digits, strm) =>
    if neg then .ok (some (digits.foldl (fun z h => z * 10 - h) 0, strm))
    else .ok (some (digits.foldl (fun z h => z * 10 + h) 0, strm))

/-! ### The printer -/

def assocToString (assoc : GuardAssoc) : List Char :=
  let directionText := match assoc.direction with
    | .left => ['L']
    | .right => ['R']
    | .neutral => ['N']
  (if assoc.cut then ['!'] else []) ++ directionText ++ intToString assoc.strength

def priorityToString : Priority → List Char
  | .preferred priority => intToString priority
  | .deferred => ['d']

mutual

def toString : Expression → List Char
  | .term _ text => '"' :: text.toList ++ ['"']
  | .newline => ['\\', 'n']
  | .guard assoc body =>
    (match assoc with
      | none => ['{']
      | some assoc => assocToString assoc ++ ['{']) ++ toStringAll body ++ ['}']
  | .indicator space newline =>
    (if space then ['+'] else []) ++
      match newline with
      | none => []
      | some priority => priorityToString priority
  | .startOfIndent indent => intToString indent ++ ['[']
  | .endOfIndent => [']']
  | .sequence body => toStringAll body

/-- `concat (map (fn exp => (toString exp) ^ " ") expressions)`. -/
def toStringAll : List Expression → List Char
  | [] => []
  | exp :: expressions => toString exp ++ ' ' :: toStringAll expressions

end

/-! ### The parser -/

def escapedChar : Parser (List Char) :=
  or (wrap (seq (char '\\') (eatChar fun _ => true)) fun (_, ch) => ['\\', ch])
    (wrap (eatChar fun ch => ch != '"') fun ch => [ch])

def stringTerm (fuel : Nat) : Parser Expression :=
  seqWith (fun _ (cs, _) => .term cs.flatten.length (String.ofList cs.flatten))
    (char '"') (seq (zeroOrMore fuel escapedChar) (char '"'))

def newline : Parser Expression := wrap (string ['\\', 'n']) fun _ => .newline

def assocIndicator : Parser GuardAssoc :=
  seqWith (fun cutOpt (direction, strength) => ⟨Option.isSome cutOpt, strength, direction⟩)
    (option (char '!'))
    (seq
      (or' [wrap (char 'L') fun _ => .left, wrap (char 'R') fun _ => .right,
        wrap (char 'N') fun _ => .neutral])
      scan)

def startOfIndent : Parser Expression :=
  wrap (seq scan (char '[')) fun (level, _) => .startOfIndent level

def endOfIndent : Parser Expression := wrap (char ']') fun _ => .endOfIndent

def priority : Parser Priority :=
  or (wrap (char 'd') fun _ => .deferred) (wrap scan .preferred)

def indicator : Parser Expression :=
  or
    (seqWith (fun spaceOpt priority => .indicator (Option.isSome spaceOpt) (some priority))
      (option (char '+')) priority)
    (wrap (char '+') fun _ => .indicator true none)

mutual

def guard : Nat → Parser Expression
  | 0, _ => .error .outOfFuel
  | n + 1, strm =>
    seqWith (fun assocOpt (_, (exps, _)) => .guard assocOpt exps)
      (option assocIndicator)
      (seq (char '{') (seq (expressions n) (char '}'))) strm

def expression : Nat → Parser Expression
  | 0, _ => .error .outOfFuel
  | n + 1, strm =>
    or' [stringTerm n, newline, guard n, startOfIndent, endOfIndent, indicator] strm

def expressions : Nat → Parser (List Expression)
  | 0, _ => .error .outOfFuel
  | n + 1, strm =>
    seqWith (fun exps _ => exps)
      (skipBefore isSpace (oneOrMore n (skipBefore isSpace (expression n))))
      (zeroOrMore n (eatChar isSpace)) strm

end

def parse (fuel : Nat) : Parser (List Expression) := expressions fuel

/-- The text of the list is parsed as the list. -/
def RoundTrips (exps : List Expression) : Prop :=
  Yields parse (toStringAll exps) exps []

end FormatExpression

end SmlSharp
