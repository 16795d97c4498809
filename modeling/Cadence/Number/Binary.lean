/-!
# Binary64 numbers as exact dyadics

Every finite `Float` is a sign and a whole number times a power of two. This module takes a
`Float` apart into those parts, puts parts together again, and defines on them the operations
that the timeline needs and that are exact or round once: whole part, remainder, saturating
conversion to a microsecond count, and the total order of bit patterns.
-/

namespace Cadence.Number

/-- The magnitude of a finite number: `digits * 2 ^ exponent`. -/
structure Magnitude where
  /-- The whole factor. -/
  digits : Nat
  /-- The power of two it is scaled by. -/
  exponent : Int
deriving Repr, DecidableEq, Inhabited

/-- The exact magnitude of a number, absent for an infinity and for an undefined number. -/
def magnitude? (x : Float) : Option Magnitude :=
  match x.toModel.unpack with
  | .notANumber => none
  | .infinity _ => none
  | .zero _ => some ⟨0, 0⟩
  | .finite _ digits exponent _ => some ⟨digits, exponent⟩

/-- Whether the sign bit is set. It is set on negative zero. -/
def isNegative (x : Float) : Bool :=
  Nat.pow 2 63 ≤ x.toBits.toNat

/-- The number nearest to `digits * 2 ^ exponent` under the given sign, ties to the even
neighbour. It is exact whenever the product is a binary64 number. -/
def ofParts (negative : Bool) (digits : Nat) (exponent : Int) : Float :=
  let sign : Float.Model.UnpackedFloat.Sign := if negative then .negative else .positive
  if digits = 0 then Float.ofModel (.pack (.zero sign))
  else Float.ofModel (.pack (.round .binary64 sign digits exponent))

/-- The whole factor that `m` has on the grid of multiples of `2 ^ e`, for `e` not above its own
exponent. -/
def Magnitude.onGrid (m : Magnitude) (e : Int) : Nat :=
  m.digits * Nat.pow 2 (m.exponent - e).toNat

/-- The whole part of a magnitude, and whether anything was cut off. -/
def Magnitude.truncate (m : Magnitude) : Nat × Bool :=
  if 0 ≤ m.exponent then (m.digits * Nat.pow 2 m.exponent.toNat, false)
  else
    let unit := Nat.pow 2 (-m.exponent).toNat
    (m.digits / unit, m.digits % unit ≠ 0)

/-- The magnitude rounded to a whole number, halves upwards. -/
def Magnitude.roundHalfUp (m : Magnitude) : Nat :=
  if 0 ≤ m.exponent then m.digits * Nat.pow 2 m.exponent.toNat
  else
    let unit := Nat.pow 2 (-m.exponent).toNat
    (2 * m.digits + unit) / (2 * unit)

/-- The greatest whole number not above `x`. Infinities, undefined numbers and zeros stay as they
are. -/
def floor (x : Float) : Float :=
  match magnitude? x with
  | none => x
  | some m =>
    if m.digits = 0 ∨ 0 ≤ m.exponent then x
    else
      let (whole, cut) := m.truncate
      if isNegative x then ofParts true (if cut then whole + 1 else whole) 0
      else ofParts false whole 0

/-- The remainder of dividing the magnitude of `x` by that of `y`, with the sign of `x`. It is
exact. An undefined number answers an infinite `x` and a zero `y`. -/
def truncatedRemainder (x y : Float) : Float :=
  match magnitude? x, magnitude? y with
  | some m, some d =>
    if d.digits = 0 then 0.0 / 0.0
    else
      let e := min m.exponent d.exponent
      ofParts (isNegative x) (m.onGrid e % d.onGrid e) e
  | some _, none => if y.isNaN then y else x
  | none, _ => 0.0 / 0.0

/-- The position of `x` within its period `y`: the remainder, with one period added when it is
below zero. The addition rounds, so an `x` just below zero can come out as `y` itself. -/
def cycleRemainder (x y : Float) : Float :=
  let r := truncatedRemainder x y
  if r < 0.0 then r + y.abs else r

/-- The largest 64-bit count. -/
def countLimit : Nat := UInt64.size - 1

/-- The count nearest to `x`, halves upwards, clamped to what 64 bits hold. Negative and undefined
numbers give zero. -/
def roundToCount (x : Float) : UInt64 :=
  match magnitude? x with
  | some m => if isNegative x then 0 else UInt64.ofNat (min m.roundHalfUp countLimit)
  | none => if 0.0 < x then UInt64.ofNat countLimit else 0

/-- The whole part of `x` as a count below `limit`, clamped at both ends. Undefined numbers give
zero. -/
def wholeBelow (limit : Nat) (x : Float) : Nat :=
  match magnitude? x with
  | some m => if isNegative x then 0 else min m.truncate.1 (limit - 1)
  | none => if 0.0 < x then limit - 1 else 0

/-- The larger of two numbers; a defined one wins over an undefined one. -/
def larger (x y : Float) : Float :=
  if x.isNaN then y else if x < y then y else x

/-- The smaller of two numbers; a defined one wins over an undefined one. -/
def smaller (x y : Float) : Float :=
  if x.isNaN then y else if y < x then y else x

/-- Where a bit pattern stands in the total order of binary64 patterns: negative ones first, by
falling magnitude, then positive ones by rising magnitude. Undefined patterns lie beyond the
infinities, so the order is total, and it tells `-0.0` from `0.0`. -/
def patternRank (bits : UInt64) : Nat :=
  if bits.toNat < Nat.pow 2 63 then bits.toNat + Nat.pow 2 63 else countLimit - bits.toNat

end Cadence.Number
