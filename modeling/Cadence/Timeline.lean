import Cadence.Number.Measure

/-!
# The beat timeline

The timeline is piecewise linear. Every tempo change starts a new segment, anchored at the beat
reached under the previous tempo, so the position never jumps when the tempo changes. The position
is written for any system of numbers; dates are counted in whole microseconds, so the way back
rounds.
-/

namespace Cadence

open Number

/-- The current segment of the timeline. -/
structure Timeline (α : Type) where
  /-- The tempo in beats per minute. -/
  bpm : α
  /-- The date at which the segment is anchored. -/
  startedAt : UInt64
  /-- The beat reached at that date. -/
  origin : α
deriving Repr

namespace Timeline

variable {α : Type} [Measure α]

/-- Microseconds in a minute. -/
def microsPerMinute : α := Measure.ofNat 60000000

/-- The beats that pass in a number of microseconds at a tempo. -/
def beatsIn (micros bpm : α) : α := micros * bpm / microsPerMinute

/-- The beat at a date. -/
def beatAt (t : Timeline α) (date : UInt64) : α :=
  t.origin + beatsIn (Measure.ofCount date - Measure.ofCount t.startedAt) t.bpm

/-- Starts a new segment at a date, with the beat reached there and another tempo. -/
def changeTempo (t : Timeline α) (date : UInt64) (bpm : α) : Timeline α :=
  { bpm, startedAt := date, origin := t.beatAt date }

/-- Starts a new segment at a date, with another beat and the same tempo. -/
def jump (t : Timeline α) (date : UInt64) (beat : α) : Timeline α :=
  { t with startedAt := date, origin := beat }

/-- Moves the whole timeline by a number of beats. -/
def shift (t : Timeline α) (beats : α) : Timeline α := { t with origin := t.origin + beats }

/-- The date at which a beat is reached under the current tempo, to the nearest microsecond and
clamped to what a date can be. -/
def dateAt (t : Timeline Float) (beat : Float) : UInt64 :=
  roundToCount (larger (t.startedAt.toFloat + (beat - t.origin) * microsPerMinute / t.bpm) 0.0)

/-- Starts a new segment where a beat falls on the current one. -/
def changeTempoAt (t : Timeline Float) (beat bpm : Float) : Timeline Float :=
  { bpm, startedAt := t.dateAt beat, origin := beat }

end Timeline

end Cadence
