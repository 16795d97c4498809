import Cadence.Grid
import Cadence.Meter
import Cadence.Timeline
import Cadence.WallTime

/-!
# The playhead

Wall-clock time, the timeline it is read on and the meter that divides it into bars. A refused
change leaves the playhead as it was.
-/

namespace Cadence

/-- Where the clock stands. -/
structure Playhead where
  /-- The current date. -/
  time : WallTime
  /-- The current segment of the timeline. -/
  timeline : Timeline Float
  /-- The meter in force. -/
  meter : Meter

namespace Playhead

/-- A playhead that reads `beat` at the given date. -/
def start (time : WallTime) (bpm : Float) (meter : Meter) (beat : Float) :
    Except Fault Playhead := do
  let bpm ← checkTempo bpm
  let origin ← checkBeat beat
  pure { time, meter, timeline := { bpm, origin, startedAt := time.micros } }

/-- The current beat. -/
def now (p : Playhead) : Float := p.timeline.beatAt p.time.micros

/-- The tempo in force. -/
def bpm (p : Playhead) : Float := p.timeline.bpm

/-- The date at which a beat is reached under the current tempo. -/
def dateAtBeat (p : Playhead) (beat : Float) : UInt64 := p.timeline.dateAt beat

/-- Microseconds from now until a beat, zero if it is past. -/
def microsUntil (p : Playhead) (beat : Float) : UInt64 :=
  countLeft (p.dateAtBeat beat) p.time.micros

/-- Changes the tempo now, and answers the beat at which that happened. -/
def setBpm (p : Playhead) (bpm : Float) : Except Fault (Float × Playhead) := do
  let bpm ← checkTempo bpm
  pure (p.now, { p with timeline := p.timeline.changeTempo p.time.micros bpm })

/-- Changes the tempo as if that had happened exactly at `beat`. -/
def setBpmAt (p : Playhead) (beat bpm : Float) : Except Fault Playhead := do
  let bpm ← checkTempo bpm
  let beat ← checkBeat beat
  pure { p with timeline := p.timeline.changeTempoAt beat bpm }

/-- Changes the meter. -/
def setMeter (p : Playhead) (meter : Meter) : Playhead := { p with meter }

/-- Jumps so that the playhead reads `beat` now. -/
def setTime (p : Playhead) (beat : Float) : Except Fault Playhead := do
  let beat ← checkBeat beat
  pure { p with timeline := p.timeline.jump p.time.micros beat }

/-- Moves the timeline by a number of beats. A number that is not finite changes nothing. -/
def shift (p : Playhead) (beats : Float) : Playhead :=
  if beats.isFinite then { p with timeline := p.timeline.shift beats } else p

/-- The length of a bar in beats. -/
def barLength (p : Playhead) : Float := p.meter.barLength

/-- The number of beats in a number of bars. -/
def bars (p : Playhead) (count : Float) : Float := p.barLength * count

/-- The next beat that lies `offset` after a multiple of `period`. -/
def nextMultiple (p : Playhead) (F : Number.Fractions) (period offset : Float) : Float :=
  Grid.multipleAfter F p.now period offset

/-- The beat at which the next bar starts. -/
def nextBar (p : Playhead) (F : Number.Fractions) : Float := p.nextMultiple F p.barLength 0.0

/-- The length of a number of beats in seconds. -/
def beatsToSeconds (p : Playhead) (beats : Float) : Float := beats * 60.0 / p.bpm

/-- The number of beats in a number of seconds. -/
def secondsToBeats (p : Playhead) (seconds : Float) : Float := seconds * p.bpm / 60.0

/-- The length of a number of beats in microseconds, to the nearest one. -/
def beatsToMicros (p : Playhead) (beats : Float) : UInt64 :=
  Number.roundToCount (Number.larger (beats * Timeline.microsPerMinute / p.bpm) 0.0)

/-- The number of beats in a number of microseconds. -/
def microsToBeats (p : Playhead) (micros : UInt64) : Float :=
  Timeline.beatsIn micros.toFloat p.bpm

/-- Moves wall-clock time. -/
def moveTime (p : Playhead) (move : WallTime → WallTime) : Playhead := { p with time := move p.time }

end Playhead

end Cadence
