import Cadence.Json.Value
import Cadence.Number.Digits

/-!
# JSON tokens

The text of a JSON document is divided into tokens: brackets, marks, words, numbers and strings.
Blanks between tokens are skipped. A text that holds anything else has no tokens.
-/

namespace Cadence.Json

open Number (hexValue?)

/-- One token. -/
inductive Token where
  /-- The bracket that opens a list. -/
  | openArray
  /-- The bracket that closes a list. -/
  | closeArray
  /-- The bracket that opens an object. -/
  | openObject
  /-- The bracket that closes an object. -/
  | closeObject
  /-- The mark between items. -/
  | comma
  /-- The mark between a name and its value. -/
  | colon
  /-- A value that is one token: a word, a number or a string. -/
  | scalar (value : Value)
deriving Repr, Inhabited

/-- A blank between tokens. -/
def isBlank (c : Char) : Bool := c = ' ' || c = '\n' || c = '\t' || c = '\r'

/-- The value of the four hexadecimal digits at the head, with what follows them. -/
def hexUnit? : List Char → Option (Nat × List Char)
  | a :: b :: c :: d :: rest => do
    let a ← hexValue? a
    let b ← hexValue? b
    let c ← hexValue? c
    let d ← hexValue? d
    pure (((a * 16 + b) * 16 + c) * 16 + d, rest)
  | _ => none

/-- The unit is the first half of a surrogate pair. -/
def isLeading (unit : Nat) : Bool := 0xD800 ≤ unit && unit < 0xDC00

/-- The unit is the second half of a surrogate pair. -/
def isTrailing (unit : Nat) : Bool := 0xDC00 ≤ unit && unit < 0xE000

/-- The character of a surrogate pair. -/
def pairChar (leading trailing : Nat) : Char :=
  Char.ofNat (0x10000 + (leading - 0xD800) * 0x400 + (trailing - 0xDC00))

/-- The character that one escape names, with what follows it. The character is absent for half of
a surrogate pair. -/
def escape? : List Char → Option (Option Char × List Char)
  | '"' :: rest => some (some '"', rest)
  | '\\' :: rest => some (some '\\', rest)
  | '/' :: rest => some (some '/', rest)
  | 'b' :: rest => some (some (Char.ofNat 8), rest)
  | 'f' :: rest => some (some (Char.ofNat 12), rest)
  | 'n' :: rest => some (some '\n', rest)
  | 'r' :: rest => some (some '\r', rest)
  | 't' :: rest => some (some '\t', rest)
  | 'u' :: rest => do
    let (unit, rest) ← hexUnit? rest
    if isTrailing unit then pure (none, rest)
    else if isLeading unit then
      match rest with
      | '\\' :: 'u' :: more =>
        let (second, after) ← hexUnit? more
        if isTrailing second then pure (some (pairChar unit second), after)
        else pure (none, rest)
      | _ => pure (none, rest)
    else pure (some (Char.ofNat unit), rest)
  | _ => none

/-- The text of a string up to its closing quote, with what follows the quote. The text is absent
if an escape in it names none. The fuel bounds the number of characters. -/
def stringBody? (fuel : Nat) (text : Option (List Char)) :
    List Char → Option (Option String × List Char)
  | [] => none
  | c :: rest =>
    match fuel with
    | 0 => none
    | fuel + 1 =>
      if c = '"' then some (text.map fun chars => String.ofList chars.reverse, rest)
      else if c = '\\' then do
        let (named, rest) ← escape? rest
        stringBody? fuel (do pure ((← named) :: (← text))) rest
      else if c.toNat < 32 then none
      else stringBody? fuel (text.map (c :: ·)) rest

/-- A character that can stand in a number. -/
def isNumeric (c : Char) : Bool :=
  c.isDigit || c = '-' || c = '+' || c = '.' || c = 'e' || c = 'E'

/-- The digits at the head, with what follows them. -/
def digits (cs : List Char) : List Char × List Char :=
  (cs.takeWhile Char.isDigit, cs.dropWhile Char.isDigit)

/-- A JSON number taken apart. -/
structure NumberParts where
  /-- There is a minus sign in front. -/
  negative : Bool
  /-- The digits before the point. -/
  whole : List Char
  /-- The digits after the point, absent without a point. -/
  fraction : Option (List Char)
  /-- The exponent, negative or not, with its digits; absent without a mark. -/
  exponent : Option (Bool × List Char)
deriving Repr, DecidableEq

/-- The fraction at the head, with what follows it. A point needs a digit after it. -/
def fractionPart? : List Char → Option (Option (List Char) × List Char)
  | '.' :: rest =>
    let (places, rest) := digits rest
    if places.isEmpty then none else some (some places, rest)
  | rest => some (none, rest)

/-- The exponent that is the rest of a number. Its mark needs a digit after it. -/
def exponentPart? : List Char → Option (Option (Bool × List Char))
  | [] => some none
  | mark :: rest =>
    if mark = 'e' ∨ mark = 'E' then
      let (negative, power) := match rest with
        | '-' :: power => (true, power)
        | '+' :: power => (false, power)
        | power => (false, power)
      if power.isEmpty ∨ !power.all Char.isDigit then none else some (some (negative, power))
    else none

/-- The parts of a number, if the whole text is one. A zero in front stands alone. -/
def numberParts? (cs : List Char) : Option NumberParts := do
  let (negative, cs) := match cs with
    | '-' :: rest => (true, rest)
    | rest => (false, rest)
  let (whole, cs) := digits cs
  if whole.isEmpty ∨ (whole.head? = some '0' ∧ whole ≠ ['0']) then none
  else
    let (fraction, cs) ← fractionPart? cs
    let exponent ← exponentPart? cs
    pure { negative, whole, fraction, exponent }

/-- The token at the head of a text that does not start with a blank, with what follows it. -/
def token? : List Char → Option (Token × List Char)
  | [] => none
  | '[' :: rest => some (.openArray, rest)
  | ']' :: rest => some (.closeArray, rest)
  | '\x7b' :: rest => some (.openObject, rest)
  | '\x7d' :: rest => some (.closeObject, rest)
  | ',' :: rest => some (.comma, rest)
  | ':' :: rest => some (.colon, rest)
  | 'n' :: 'u' :: 'l' :: 'l' :: rest => some (.scalar .null, rest)
  | 't' :: 'r' :: 'u' :: 'e' :: rest => some (.scalar (.bool true), rest)
  | 'f' :: 'a' :: 'l' :: 's' :: 'e' :: rest => some (.scalar (.bool false), rest)
  | '"' :: rest => do
    let (text, rest) ← stringBody? (rest.length + 1) (some []) rest
    pure (.scalar (.string text), rest)
  | cs =>
    let literal := cs.takeWhile isNumeric
    if (numberParts? literal).isSome then
      some (.scalar (.number (String.ofList literal)), cs.dropWhile isNumeric)
    else none

/-- All tokens of a text. The fuel bounds their number. -/
def tokens? (fuel : Nat) (cs : List Char) : Option (List Token) :=
  match cs.dropWhile isBlank with
  | [] => some []
  | cs =>
    match fuel with
    | 0 => none
    | fuel + 1 => do
      let (token, rest) ← token? cs
      let more ← tokens? fuel rest
      pure (token :: more)

end Cadence.Json
