import Cadence.Fault

/-!
# Meters

A time signature. Both of its numbers are positive, which the type records, so every meter has a
bar of positive length.
-/

namespace Cadence

/-- A time signature such as 7/8. -/
structure Meter where
  /-- The number of notes in a bar. -/
  numerator : UInt32
  /-- The note that is counted, as a fraction of a whole note. -/
  denominator : UInt32
  /-- A bar holds at least one note. -/
  numerator_ne_zero : numerator ≠ 0
  /-- The counted note is a fraction of a whole one. -/
  denominator_ne_zero : denominator ≠ 0
deriving DecidableEq, Repr

namespace Meter

/-- Four quarter notes. -/
def common : Meter := ⟨4, 4, by decide, by decide⟩

instance : Inhabited Meter := ⟨common⟩

/-- The meter with the given numbers, refused if one of them is zero. -/
def make (numerator denominator : UInt32) : Except Fault Meter :=
  if h : numerator ≠ 0 ∧ denominator ≠ 0 then
    .ok ⟨numerator, denominator, h.1, h.2⟩
  else .error (.invalidMeter numerator denominator)

/-- The meter as it is written. -/
def text (m : Meter) : String := s!"{m.numerator}/{m.denominator}"

/-- The length of a bar in beats, a beat being a quarter note: 6/8 is 3 beats, 7/8 is 3.5. -/
def barLength (m : Meter) : Float := m.numerator.toFloat / m.denominator.toFloat * 4.0

end Meter

end Cadence
