import Cadence.Number.Fractions
import Cadence.Number.Notation

/-!
# Ratios of 64-bit counts

Non-negative fractions whose two parts fit in 64 bits. An operation whose result does not fit in lowest terms
has no answer, so every ratio that does come out is exact.
-/

namespace Cadence.Number

/-- A non-negative fraction whose parts fit in 64 bits. -/
structure Ratio where
  /-- The numerator. -/
  num : Nat
  /-- The denominator. -/
  den : Nat
  /-- There is a denominator. -/
  den_pos : 0 < den
  /-- The numerator fits. -/
  num_le : num ≤ countLimit
  /-- The denominator fits. -/
  den_le : den ≤ countLimit
deriving Repr, DecidableEq

namespace Ratio

/-- A count as a ratio. -/
def ofCount (n : Nat) (h : n ≤ countLimit) : Ratio := ⟨n, 1, Nat.one_pos, h, by decide⟩

/-- The fraction in lowest terms, if both parts then fit in 64 bits. -/
def reduced? (num den : Nat) : Option Ratio :=
  let common := Nat.gcd num den
  if h : 0 < den / common ∧ num / common ≤ countLimit ∧ den / common ≤ countLimit then
    some ⟨num / common, den / common, h.1, h.2.1, h.2.2⟩
  else none

/-- The quotient of two ratios; there is none by zero. -/
def div? (a b : Ratio) : Option Ratio := reduced? (a.num * b.den) (a.den * b.num)

/-- The sum of two ratios. -/
def add? (a b : Ratio) : Option Ratio := reduced? (a.num * b.den + b.num * a.den) (a.den * b.den)

/-- The product of two ratios. -/
def mul? (a b : Ratio) : Option Ratio := reduced? (a.num * b.num) (a.den * b.den)

/-- The greatest whole number not above a ratio. -/
def floor (a : Ratio) : Ratio := ofCount (a.num / a.den) (Nat.le_trans (Nat.div_le_self _ _) a.num_le)

/-- The quotient of the two parts, each first rounded to binary64. -/
def toFloat (a : Ratio) : Float := (UInt64.ofNat a.num).toFloat / (UInt64.ofNat a.den).toFloat

/-- The power `10 ^ n`, by repeated squaring in binary64: exact up to `10 ^ 22`, and beyond that
with one rounding for each product. The fuel bounds the number of binary digits of `n`. -/
def tenPower (fuel : Nat) (base accumulated : Float) (n : Nat) : Float :=
  match fuel with
  | 0 => accumulated
  | fuel + 1 =>
    let accumulated := if n % 2 = 1 then accumulated * base else accumulated
    if n / 2 = 0 then accumulated else tenPower fuel (base * base) accumulated (n / 2)

/-- A number counts as whole when it exceeds its floor by less than `2 ^ -52`. -/
def nearlyWhole (y : Float) : Bool :=
  (Number.floor y - y).abs < 2.220446049250313e-16

/-- Shifts the decimal point of `x` right until nothing is left after it, and answers the shifted
number with the number of places. There is no answer once the shifted number is infinite, which
happens before the fuel of 400 places runs out. -/
def shiftPoint? (x : Float) (fuel places : Nat) : Option (Float × Nat) :=
  let y := if places = 0 then x else x * tenPower 64 10.0 1.0 places
  if y.isInf then none
  else if nearlyWhole y then some (y, places)
  else match fuel with
    | 0 => none
    | fuel + 1 => shiftPoint? x fuel (places + 1)

/-- The whole part of a number, if it fits in 64 bits. -/
def wholePart? (x : Float) : Option Nat :=
  match magnitude? x with
  | some m => if m.truncate.1 ≤ countLimit then some m.truncate.1 else none
  | none => none

/-- The ratio that the shortest decimal of `x` denotes: its written digits over a power of ten,
both of which have to fit in 64 bits. -/
def ofWritten? (x : Float) : Option Ratio :=
  let written := (text x.abs).toList
  let whole := written.takeWhile (· ≠ '.')
  let places := (written.dropWhile (· ≠ '.')).drop 1
  match (String.ofList (whole ++ places)).toNat? with
  | some digits =>
    if countLimit < digits ∨ countLimit < Nat.pow 10 places.length then none
    else reduced? digits (Nat.pow 10 places.length)
  | none => none

/-- The ratio that a non-negative finite number stands for. Shifting the decimal point in binary64
finds it where the shifted number and the power of ten fit in 64 bits, its written form
otherwise. -/
def ofFloat? (x : Float) : Option Ratio :=
  let shifted := do
    let (y, places) ← shiftPoint? x 400 0
    let num ← wholePart? y
    let den ← wholePart? (tenPower 64 10.0 1.0 places)
    pure (num, den)
  match shifted with
  | some (num, den) => reduced? num den
  | none => ofWritten? x

end Ratio

/-- Ratios as fractions. What no ratio stands for has no answer. -/
abbrev Fractions.ratios : Fractions where
  Carrier := Option Ratio
  ofFloat := Ratio.ofFloat?
  one := some (.ofCount 1 (by decide))
  div? a b := do pure (some (← (← a).div? (← b)))
  add? a b := do pure (some (← (← a).add? (← b)))
  mul? a b := do pure (some (← (← a).mul? (← b)))
  floor a := a.map Ratio.floor
  toFloat? a := a.map Ratio.toFloat

end Cadence.Number
