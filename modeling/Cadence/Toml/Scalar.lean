import Cadence.Number.Decimal
import Cadence.Number.Digits
import Cadence.Toml.Value

/-!
# TOML scalars

The values that are written as one word: numbers, truth values, dates. A word is read as a whole.
Digits can be grouped by single underscores. Integers have 64 bits and a sign; a number with a point
or an exponent must not exceed the largest binary64 number.
-/

namespace Cadence.Toml

/-- Takes the underscores out of grouped digits. Each has to stand between two digits. -/
def ungroup? (isDigit : Char → Bool) : List Char → Option (List Char)
  | [] => none
  | [c] => if isDigit c then some [c] else none
  | c :: '_' :: rest => if isDigit c then (ungroup? isDigit rest).map (c :: ·) else none
  | c :: rest => if isDigit c then (ungroup? isDigit rest).map (c :: ·) else none

/-- Grouped decimal digits. -/
def decimal? (cs : List Char) : Option (List Char) := ungroup? Char.isDigit cs

/-- The digits of a whole part. A zero in front stands alone. -/
def wholePart? (cs : List Char) : Option (List Char) :=
  if cs.head? = some '0' ∧ cs ≠ ['0'] then none else decimal? cs

/-- The value is an integer of 64 bits. -/
def isInteger (n : Int) : Bool := Int64.minValue.toInt ≤ n && n ≤ Int64.maxValue.toInt

/-- An integer as a value, if 64 bits hold it. -/
def integer? (n : Int) : Option Value := if isInteger n then some (.integer n) else none

/-- An integer in another base, from after the mark of the base. -/
def radixInteger? (base : Nat) (cs : List Char) : Option Value := do
  let digits ← ungroup? (fun c => (Number.radixValue? base c).isSome) cs
  let n ← Number.radixDigitsValue? base digits
  integer? n

/-- The sign at the head, and what follows it. -/
def signed : List Char → Bool × List Char
  | '-' :: rest => (true, rest)
  | '+' :: rest => (false, rest)
  | cs => (false, cs)

/-- The power of ten that the exponent at the end of a number stands for. -/
def exponent? : List Char → Option Int
  | [] => some 0
  | mark :: rest =>
    if mark = 'e' ∨ mark = 'E' then do
      let (negative, cs) := signed rest
      let power : Int := Number.digitsValue (← decimal? cs)
      pure (if negative then -power else power)
    else none

/-- A character of a whole part or of decimal places. -/
def isGrouped (c : Char) : Bool := c.isDigit || c = '_'

/-- The decimal that a number without its sign stands for, if it has a point or an exponent. -/
def fractional? (cs : List Char) : Option Number.Decimal := do
  let whole ← wholePart? (cs.takeWhile isGrouped)
  match cs.dropWhile isGrouped with
  | [] => none
  | '.' :: rest =>
    let places ← decimal? (rest.takeWhile isGrouped)
    let power ← exponent? (rest.dropWhile isGrouped)
    pure ⟨Number.digitsValue (whole ++ places), power - places.length⟩
  | rest =>
    let power ← exponent? rest
    pure ⟨Number.digitsValue whole, power⟩

/-- A number with a sign or without. Positive numbers beyond the largest one are refused. -/
def number? (cs : List Char) : Option Value := do
  let (negative, body) := signed cs
  let signedFloat (x : Float) : Value := .float (if negative then -x else x)
  if body = "inf".toList then some (signedFloat (1.0 / 0.0))
  else if body = "nan".toList then some (signedFloat (0.0 / 0.0))
  else match fractional? body with
    | some d =>
      let x := Number.ofDecimal d
      if x.isInf && !negative then none else some (signedFloat x)
    | none =>
      let n : Int := Number.digitsValue (← wholePart? body)
      integer? (if negative then -n else n)

/-! ### Dates -/

/-- The two digits at the head, with a value within the bounds, and what follows them. -/
def twoDigits? (least greatest : Nat) : List Char → Option (Nat × List Char)
  | a :: b :: rest =>
    let n := Number.digitsValue [a, b]
    if a.isDigit && b.isDigit && least ≤ n && n ≤ greatest then some (n, rest) else none
  | _ => none

/-- What follows a given character. -/
def after? (c : Char) : List Char → Option (List Char)
  | d :: rest => if c = d then some rest else none
  | [] => none

/-- The number of days of a month. -/
def daysIn (year month : Nat) : Nat :=
  if month = 2 then
    if year % 4 = 0 ∧ (year % 100 ≠ 0 ∨ year % 400 = 0) then 29 else 28
  else if month = 4 ∨ month = 6 ∨ month = 9 ∨ month = 11 then 30
  else 31

/-- What follows the day at the head. -/
def day? (cs : List Char) : Option (List Char) := do
  let year := cs.take 4
  if year.length < 4 || !year.all Char.isDigit then none
  else
    let rest ← after? '-' (cs.drop 4)
    let (month, rest) ← twoDigits? 1 12 rest
    let rest ← after? '-' rest
    let (_, rest) ← twoDigits? 1 (daysIn (Number.digitsValue year) month) rest
    pure rest

/-- What follows the time of day at the head. -/
def time? (cs : List Char) : Option (List Char) := do
  let (_, rest) ← twoDigits? 0 23 cs
  let (_, rest) ← twoDigits? 0 59 (← after? ':' rest)
  let (_, rest) ← twoDigits? 0 60 (← after? ':' rest)
  match rest with
  | '.' :: c :: rest => if c.isDigit then some (rest.dropWhile Char.isDigit) else none
  | rest => some rest

/-- The whole text is a time zone, or empty. -/
def isZone : List Char → Bool
  | [] => true
  | ['Z'] | ['z'] => true
  | sign :: rest => (sign = '+' || sign = '-') &&
    ((do
      let (_, rest) ← twoDigits? 0 23 rest
      let (_, rest) ← twoDigits? 0 59 (← after? ':' rest)
      pure rest) : Option (List Char)) = some []

/-- The whole text is a day, a time of day, or a day with a time of day and perhaps a zone. Day and
time are divided by a letter or by a blank. -/
def isDate (cs : List Char) : Bool :=
  match day? cs with
  | some [] => true
  | some (mark :: rest) =>
    (mark = 'T' || mark = 't' || mark = ' ') && (time? rest).any isZone
  | none => time? cs = some []

/-! ### Words -/

/-- A character that a word can hold. -/
def isWordChar (c : Char) : Bool :=
  c.isAlphanum || c = '+' || c = '-' || c = '_' || c = '.' || c = ':'

/-- The value of a word. -/
def word? (cs : List Char) : Option Value :=
  if isDate cs then some .date
  else match cs with
    | '0' :: 'x' :: digits => radixInteger? 16 digits
    | '0' :: 'o' :: digits => radixInteger? 8 digits
    | '0' :: 'b' :: digits => radixInteger? 2 digits
    | cs =>
      if cs = "true".toList then some (.bool true)
      else if cs = "false".toList then some (.bool false)
      else number? cs

/-- The word at the head, with what follows it. A day goes on after a blank that a digit follows. -/
def wordParts (cs : List Char) : List Char × List Char :=
  let first := cs.takeWhile isWordChar
  match day? first, cs.dropWhile isWordChar with
  | some [], ' ' :: c :: rest =>
    if c.isDigit then
      (first ++ ' ' :: (c :: rest).takeWhile isWordChar, (c :: rest).dropWhile isWordChar)
    else (first, ' ' :: c :: rest)
  | _, rest => (first, rest)

/-- The scalar at the head, with what follows it. -/
def scalar? (cs : List Char) : Option (Value × List Char) := do
  let (word, rest) := wordParts cs
  pure (← word? word, rest)

end Cadence.Toml
