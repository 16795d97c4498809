import Cadence.Json.Token
import Cadence.Number.Digits

/-!
# JSON numbers

The value of a number literal. A count is a literal without sign, point and exponent. Any literal
is a binary64 number: its digits are gathered in 64 bits, those that do not fit only count as
places, and the gathered digits are scaled by a power of ten in binary64. A number too large for
binary64 is refused.
-/

namespace Cadence.Json

open Number (digitValue digitsValue)

/-- The digits gathered so far, and the power of ten they are to be scaled by. -/
structure Gathered where
  /-- The gathered digits, as one number that fits in 64 bits. -/
  significand : Nat
  /-- The power of ten. -/
  exponent : Int
deriving Repr, DecidableEq

/-- The digit still fits beside the gathered ones. -/
def Gathered.fits (g : Gathered) (c : Char) : Bool :=
  g.significand * 10 + digitValue c ≤ Number.countLimit

/-- Gathers the digits before the point. From the first that does not fit, each is one more
place. -/
def Gathered.whole (g : Gathered) : List Char → Gathered
  | [] => g
  | c :: rest =>
    if g.fits c then Gathered.whole { g with significand := g.significand * 10 + digitValue c } rest
    else { g with exponent := g.exponent + (rest.length + 1 : Nat) }

/-- Gathers the digits after the point. From the first that does not fit, none counts. -/
def Gathered.fraction (g : Gathered) : List Char → Gathered
  | [] => g
  | c :: rest =>
    if g.fits c then Gathered.fraction ⟨g.significand * 10 + digitValue c, g.exponent - 1⟩ rest
    else g

/-- The largest exponent that is kept as written. -/
def exponentLimit : Int := Int32.maxValue.toInt

/-- A sum of exponents, kept within 32 bits. -/
def boundedExponent (e : Int) : Int := max (-exponentLimit - 1) (min exponentLimit e)

/-- The power of ten nearest to `10 ^ n`. -/
def powerOfTen (n : Nat) : Float := Number.ofDecimal ⟨1, n⟩

/-- Scales a number by a power of ten, in steps of `10 ^ 308` while the power is smaller than
`10 ^ -308`. There is no answer beyond the largest binary64 number. The fuel bounds the steps: after
three of them nothing is left of a 64-bit number. -/
def scaled? (fuel : Nat) (x : Float) (exponent : Int) : Option Float :=
  if exponent.natAbs ≤ 308 then
    if 0 ≤ exponent then
      let y := x * powerOfTen exponent.toNat
      if y.isInf then none else some y
    else some (x / powerOfTen exponent.natAbs)
  else if x == 0.0 then some x
  else if 0 ≤ exponent then none
  else match fuel with
    | 0 => some x
    | fuel + 1 => scaled? fuel (x / powerOfTen 308) (exponent + 308)

/-- The magnitude of a literal. An exponent beyond 32 bits leaves nothing of a number, or makes it
too large. -/
def NumberParts.magnitude? (parts : NumberParts) : Option Float :=
  let gathered := (Gathered.whole ⟨0, 0⟩ parts.whole).fraction (parts.fraction.getD [])
  let x := (UInt64.ofNat gathered.significand).toFloat
  match parts.exponent with
  | none => scaled? 4 x gathered.exponent
  | some (negative, power) =>
    let power : Int := digitsValue power
    if exponentLimit < power then
      if gathered.significand ≠ 0 ∧ !negative then none else some 0.0
    else
      scaled? 4 x (boundedExponent (gathered.exponent + if negative then -power else power))

/-- The value of a number literal in binary64. -/
def floatOf? (literal : String) : Option Float := do
  let parts ← numberParts? literal.toList
  let magnitude ← parts.magnitude?
  pure (if parts.negative then -magnitude else magnitude)

/-- The value of a number literal that is a count not above a limit. -/
def countOf? (limit : Nat) (literal : String) : Option Nat := do
  let parts ← numberParts? literal.toList
  if parts.negative ∨ parts.fraction.isSome ∨ parts.exponent.isSome then none
  else
    let n := digitsValue parts.whole
    if n ≤ limit then some n else none

end Cadence.Json
