import Cadence.Number.Binary
import Cadence.Number.Ratio

/-!
# The grid of a period

The first multiple of a period strictly after a beat. It is computed with exact fractions where they
are not too large, so that a beat on a grid line moves on to the next one, and with binary64
arithmetic and a tolerance otherwise.
-/

namespace Cadence.Grid

open Number (Fractions)

/-- The distance, relative to the beat, under which a grid line counts as already reached. -/
def tolerance : Float := 1e-9

/-- The first multiple of the period after the beat as a fraction. -/
def lineAfter? (F : Fractions) (beat period : F.Carrier) : Option F.Carrier := do
  let steps ← F.add? (F.floor (← F.div? beat period)) F.one
  F.mul? steps period

/-- The first multiple of the period after the beat by way of fractions. There is no answer for a
negative beat, where a fraction is too large, and where the answer does not come out after the
beat. -/
def exactAfter? (F : Fractions) (beat period : Float) : Option Float := do
  if beat < 0.0 then none
  else
    let target ← F.toFloat? (← lineAfter? F (F.ofFloat beat) (F.ofFloat period))
    if target.isFinite && beat < target then some target else none

/-- The first multiple of the period after the beat in binary64, one further if the beat is all
but on it. -/
def roundedAfter (beat period : Float) : Float :=
  let target := (Number.floor (beat / period) + 1.0) * period
  if target - beat ≤ tolerance * Number.larger beat.abs 1.0 then target + period else target

/-- The first multiple of the period strictly after the beat, moved by the offset. A period that
is no finite number above zero has no grid: the beat itself is then moved. -/
def multipleAfter (F : Fractions) (beat period offset : Float) : Float :=
  if 0.0 < period && period.isFinite && beat.isFinite then
    (exactAfter? F beat period).getD (roundedAfter beat period) + offset
  else beat + offset

/-- That multiple, by way of ratios. -/
def next (beat period offset : Float) : Float := multipleAfter .ratios beat period offset

end Cadence.Grid
