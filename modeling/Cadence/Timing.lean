import Cadence.Playhead

/-!
# Spans and timings

The two ways in which a caller says when: a span of time, beats or bars, and a timing relative to
the playhead.
-/

namespace Cadence

/-- A length of time. -/
inductive Span where
  /-- Wall-clock microseconds, converted with the current tempo. -/
  | micros (count : UInt64)
  /-- Beats. -/
  | beats (count : Float)
  /-- Bars of the current meter. -/
  | bars (count : Float)
deriving Repr, DecidableEq

/-- The length of a span in beats. -/
def Span.toBeats (p : Playhead) : Span → Float
  | .micros count => p.microsToBeats count
  | .beats count => count
  | .bars count => p.bars count

/-- The length of a span in microseconds. -/
def Span.toMicros (p : Playhead) : Span → UInt64
  | .micros count => count
  | .beats count => p.beatsToMicros count
  | .bars count => p.beatsToMicros (p.bars count)

/-- When a scheduled action should fire. -/
inductive Timing where
  /-- On the next tick. -/
  | immediate
  /-- When the playhead reaches or passes this beat. -/
  | atBeat (beat : Float)
  /-- This many beats from now. -/
  | afterBeats (beats : Float)
  /-- At the next whole beat. -/
  | atNextBeat
  /-- At the next bar line. -/
  | atNextBar
  /-- At the next multiple of this many beats. -/
  | atNextModulo (beats : Float)
deriving Repr, DecidableEq

instance : Inhabited Timing := ⟨.atNextBar⟩

/-- The beat at which an action with this timing is due. -/
def Timing.targetBeat (F : Number.Fractions) (p : Playhead) : Timing → Float
  | .immediate => p.now
  | .atBeat beat => beat
  | .afterBeats beats => p.now + beats
  | .atNextBeat => Grid.multipleAfter F p.now 1.0 0.0
  | .atNextBar => p.nextBar F
  | .atNextModulo beats => Grid.multipleAfter F p.now beats 0.0

/-- Microseconds left before an action with this timing is due. -/
def Timing.remaining (F : Number.Fractions) (p : Playhead) (timing : Timing) : UInt64 :=
  p.microsUntil (timing.targetBeat F p)

end Cadence
