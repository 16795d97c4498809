import Mathlib
import Cadence.Number.Decimal

/-!
# The reals behind binary64 numbers

What a binary64 number stands for, and which number stands for a real. A number has a place among the
reals and the two infinities, and a real is rounded to fifty-three bits, to nearest and halves to the even
neighbour. Everything here is about exact reals; that the operations on numbers keep to it is proved
elsewhere.

- `place` and `value`: where a number stands;
- `nearest` and `rounded`: where the number stands that a real is rounded to;
- `InRange`: whether that number is finite;
- `Roundable`: whether it is off by no more than `roundoff`, relative to the real;
- `Truncates`: what is left of a real while it is being rounded.
-/

namespace Cadence.Number

open Float.Model Float.Model.UnpackedFloat

/-! ## What a number stands for -/

/-- The place of an unpacked number. An undefined one is placed at zero. -/
noncomputable def placeOf : UnpackedFloat → EReal
  | .infinity .positive => ⊤
  | .infinity .negative => ⊥
  | .finite s m e _ => (((s.apply m : ℤ) : ℝ) * (2 : ℝ) ^ e : ℝ)
  | _ => 0

/-- The place of a number among the reals and the infinities. -/
noncomputable def place (x : Float) : EReal := placeOf x.toModel.unpack

/-- The value of an unpacked finite number, zero for any other. -/
noncomputable def valueOf : UnpackedFloat → ℝ
  | .finite s m e _ => ((s.apply m : ℤ) : ℝ) * (2 : ℝ) ^ e
  | _ => 0

/-- The value of a finite number, zero for any other. -/
noncomputable def value (x : Float) : ℝ := valueOf x.toModel.unpack

/-- The size of a finite number with the given fields. -/
noncomputable def sizeOfFields (exponent fraction : ℕ) : ℝ :=
  if exponent = 0 then fraction * (2 : ℝ) ^ (-1074 : ℤ)
  else ((2 ^ 52 + fraction : ℕ) : ℝ) * (2 : ℝ) ^ ((exponent : ℤ) - 1075)

/-- The real that a magnitude stands for. -/
noncomputable def Magnitude.real (m : Magnitude) : ℝ := m.digits * (2 : ℝ) ^ m.exponent

/-- The real that a decimal stands for. -/
noncomputable def Decimal.real (d : Decimal) : ℝ := d.digits * (10 : ℝ) ^ d.exponent

/-! ## Rounding to a whole number -/

/-- The whole number nearest to a real, halves to the even neighbour. -/
noncomputable def nearestEven (x : ℝ) : ℤ :=
  if Int.fract x < 1 / 2 then ⌊x⌋
  else if Int.fract x = 1 / 2 then ⌊x⌋ + ⌊x⌋ % 2
  else ⌊x⌋ + 1

/-- What the two residual bits say about the part that was cut off. -/
def Residue : Bool → Bool → ℝ → Prop
  | false, false, r => r = 0
  | false, true, r => 0 < r ∧ r < 1 / 2
  | true, false, r => r = 1 / 2
  | true, true, r => 1 / 2 < r ∧ r < 1

/-- An extended mantissa holds what rounding needs to know of a real. -/
def Truncates (em : ExtendedMantissa) (x : ℝ) : Prop :=
  Residue em.roundBit em.stickyBit (x - em.mantissa)

/-! ## Rounding to a number -/

/-- The exponent of the last bit that a binary64 number of this size keeps. -/
noncomputable def gridExponent (q : ℝ) : ℤ := max (Int.log 2 q - 52) (-1074)

/-- The nearest multiple of the last bit that is kept. -/
noncomputable def nearest (q : ℝ) : ℝ :=
  nearestEven (q / (2 : ℝ) ^ gridExponent q) * (2 : ℝ) ^ gridExponent q

/-- Rounding under either sign. -/
noncomputable def nearestSigned (q : ℝ) : ℝ := if q < 0 then -nearest (-q) else nearest q

/-- The first power of two beyond the largest number. -/
noncomputable def overflow : ℝ := (2 : ℝ) ^ (1024 : ℤ)

/-- The middle between the largest number and the first power of two beyond it. -/
noncomputable def overflowBound : ℝ := overflow - (2 : ℝ) ^ (970 : ℤ)

/-- An exact result is in range if its size is below that middle, so that it is not rounded up to the power
of two. -/
def InRange (q : ℝ) : Prop := |q| < overflowBound

/-- Numbers beyond the largest one become infinite. -/
noncomputable def clip (v : ℝ) : EReal :=
  if v ≤ -overflow then ⊥ else if overflow ≤ v then ⊤ else v

/-- The place of the binary64 number that an exact result is rounded to. -/
noncomputable def rounded (q : ℝ) : EReal := clip (nearestSigned q)

/-! ## Rounding errors -/

/-- A whole multiple of a power of two. -/
def OnGrid (e : ℤ) (q : ℝ) : Prop := ∃ n : ℤ, q = n * (2 : ℝ) ^ e

/-- The error of a rounding, relative to the exact result. -/
noncomputable def roundoff : ℝ := (2 : ℝ) ^ (-53 : ℤ)

/-- A whole multiple of the smallest number. -/
def OnLeastGrid (q : ℝ) : Prop := ∃ n : ℤ, q = n * (2 : ℝ) ^ (-1074 : ℤ)

/-- A real that is not between two of the smallest numbers, so that the error of rounding it is relative. -/
def Roundable (q : ℝ) : Prop := OnLeastGrid q ∨ (2 : ℝ) ^ (-1022 : ℤ) ≤ |q|

end Cadence.Number
