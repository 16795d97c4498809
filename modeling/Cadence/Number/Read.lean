import Cadence.Number.Decimal
import Cadence.Number.Digits

/-!
# Reading numbers

Counts and binary64 numbers as a user types them. A count says why it was refused; a number that is
too large becomes infinite.
-/

namespace Cadence.Number

/-- Why a text is no count. -/
inductive CountFault where
  /-- There is nothing. -/
  | empty
  /-- There is something that is no digit. -/
  | invalidDigit
  /-- The count is beyond its limit. -/
  | tooLarge
deriving Repr, DecidableEq

/-- The wording of a refused count. -/
def CountFault.message : CountFault → String
  | .empty => "cannot parse integer from empty string"
  | .invalidDigit => "invalid digit found in string"
  | .tooLarge => "number too large to fit in target type"

/-- Goes on with the digits of a count. Whatever is wrong first is the fault. -/
def countDigits (limit n : Nat) : List Char → Except CountFault Nat
  | [] => .ok n
  | c :: rest =>
    if !c.isDigit then .error .invalidDigit
    else if limit < n * 10 + digitValue c then .error .tooLarge
    else countDigits limit (n * 10 + digitValue c) rest

/-- The count not above a limit that a text stands for. A plus sign may come first. -/
def readCount (limit : Nat) : List Char → Except CountFault Nat
  | [] => .error .empty
  | ['+'] => .error .invalidDigit
  | '+' :: digits => countDigits limit 0 digits
  | digits => countDigits limit 0 digits

/-- The sign at the head, and what follows it. -/
def splitSign : List Char → Bool × List Char
  | '-' :: rest => (true, rest)
  | '+' :: rest => (false, rest)
  | cs => (false, cs)

/-- The power of ten that the rest of a number stands for: nothing, or a mark with an exponent. -/
def readExponent? : List Char → Option Int
  | [] => some 0
  | mark :: rest =>
    let (negative, digits) := splitSign rest
    if (mark = 'e' ∨ mark = 'E') ∧ !digits.isEmpty ∧ digits.all Char.isDigit then
      let power : Int := digitsValue digits
      some (if negative then -power else power)
    else none

/-- The decimal that a text without a sign stands for. There has to be a digit before the point or
after it. -/
def readDecimal? (cs : List Char) : Option Decimal := do
  let whole := cs.takeWhile Char.isDigit
  let (places, rest) := match cs.dropWhile Char.isDigit with
    | '.' :: rest => (rest.takeWhile Char.isDigit, rest.dropWhile Char.isDigit)
    | rest => ([], rest)
  if whole.isEmpty ∧ places.isEmpty then none
  else
    let power ← readExponent? rest
    pure ⟨digitsValue (whole ++ places), power - places.length⟩

/-- The binary64 number that a text stands for: a decimal, or a word for an infinity or for an
undefined number, whose case does not count. -/
def readFloat? (text : String) : Option Float := do
  let (negative, cs) := splitSign text.toList
  let word := String.ofList (cs.map Char.toLower)
  let magnitude ←
    if word = "inf" ∨ word = "infinity" then some (1.0 / 0.0)
    else if word = "nan" then some (0.0 / 0.0)
    else (readDecimal? cs).map ofDecimal
  pure (if negative then -magnitude else magnitude)

end Cadence.Number
