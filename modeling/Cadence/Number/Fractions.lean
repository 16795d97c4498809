/-!
# Fractions

What is asked of fractions to find a line of a grid with them. Numbers are taken for fractions, and a fraction
is made into a number again. What fractions are is left open, and an operation whose result would be too large
for them has no answer.
-/

namespace Cadence.Number

/-- Arithmetic of fractions. -/
structure Fractions where
  /-- The fractions. -/
  Carrier : Type
  /-- What a number is taken for. -/
  ofFloat : Float → Carrier
  /-- One. -/
  one : Carrier
  /-- The quotient of two fractions. -/
  div? : Carrier → Carrier → Option Carrier
  /-- The sum of two fractions. -/
  add? : Carrier → Carrier → Option Carrier
  /-- The product of two fractions. -/
  mul? : Carrier → Carrier → Option Carrier
  /-- The greatest whole number not above a fraction. -/
  floor : Carrier → Carrier
  /-- The number that a fraction is made into. -/
  toFloat? : Carrier → Option Float

end Cadence.Number
