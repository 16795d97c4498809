import Cadence.Number.Binary

/-!
# Systems of numbers for the timeline

The formulas of the timeline and of its corrections are written once, for any system of numbers
with the operations below. The clock runs them on binary64 numbers; reading them with exact
rationals gives the ideal that the running clock approximates.
-/

namespace Cadence.Number

/-- The operations that the formulas of the timeline use. -/
class Measure (α : Type) extends Add α, Sub α, Mul α, Div α, Neg α where
  /-- The number of a count of microseconds. -/
  ofCount : UInt64 → α
  /-- A small whole number. -/
  ofNat : Nat → α
  /-- The size of a number without its sign. -/
  abs : α → α
  /-- The position of a number within its period. -/
  cycle : α → α → α
  /-- The first number lies below the second. -/
  below : α → α → Bool
  /-- The first number lies below the second or equals it. -/
  atMost : α → α → Bool

instance : Measure Float where
  ofCount := UInt64.toFloat
  ofNat := Float.ofNat
  abs := Float.abs
  cycle := cycleRemainder
  below x y := x < y
  atMost x y := x ≤ y

end Cadence.Number
