import Cadence.Number.Measure

/-!
# Corrections

How a clock moves towards a session. The phase error is the short way round from the local phase
to the target phase. Small errors are left alone, just after a bar line the whole error is
corrected, and elsewhere a limited fraction of it. The formulas hold in any system of numbers.
-/

namespace Cadence

open Number

/-- What one reconciliation changes on the local clock. -/
structure Correction (α : Type) where
  /-- The tempo to adopt, if the session has drifted away from the local one. -/
  tempo : Option α
  /-- Beats to add to the local timeline. -/
  nudge : α
  /-- The signed distance from the local phase to the target phase. -/
  phaseError : α
deriving Repr, DecidableEq

/-- The rules that corrections follow. -/
structure CorrectionRules (α : Type) where
  /-- The tempo difference that is left alone. -/
  tempoEpsilon : α
  /-- The phase error that is left alone. -/
  phaseTolerance : α
  /-- The fraction of the phase error corrected in the middle of a bar. -/
  gain : α
  /-- The largest correction in the middle of a bar. -/
  limit : α
  /-- Correct the whole error just after a bar line. -/
  snap : Bool
deriving Repr, DecidableEq

/-- The remote state that a correction works towards. -/
structure CorrectionTarget (α : Type) where
  /-- The tempo of the session. -/
  tempo : α
  /-- The phase of the session. -/
  phase : α
  /-- Beats added to that phase. -/
  offset : α
  /-- Beats over which the phase is aligned. -/
  quantum : α
deriving Repr, DecidableEq

variable {α : Type} [Measure α]

/-- The signed short way round from the phase of the local beat to the target phase. -/
def phaseDistance (localBeat remotePhase offset quantum : α) : α :=
  let target := Measure.cycle (remotePhase + offset) quantum
  let position := Measure.cycle localBeat quantum
  let half := quantum / Measure.ofNat 2
  Measure.cycle (target - position + half) quantum - half

/-- The window after a bar line in which the whole error may be corrected. -/
def barStartWindow : α := Measure.ofNat 1 / Measure.ofNat 20

/-- A number brought between two bounds. There is none if the bounds are out of order. -/
def clamp? (x low high : α) : Option α :=
  if Measure.atMost low high then
    some (if Measure.below x low then low else if Measure.below high x then high else x)
  else none

namespace Correction

/-- The beats to add for a given phase error. There is no answer when a limited correction is
called for and the limit is not a bound. -/
def nudge? (rules : CorrectionRules α) (localBeat error quantum : α) : Option α :=
  if Measure.atMost (Measure.abs error) rules.phaseTolerance then some (Measure.ofNat 0)
  else if rules.snap && Measure.below (Measure.cycle localBeat quantum) barStartWindow then
    some error
  else clamp? (error * rules.gain) (-rules.limit) rules.limit

/-- How the local clock should follow the session, if the rules have an answer. -/
def plan? (rules : CorrectionRules α) (localBpm localBeat : α) (target : CorrectionTarget α) :
    Option (Correction α) :=
  let drift := Measure.abs (target.tempo - localBpm)
  let error := phaseDistance localBeat target.phase target.offset target.quantum
  (nudge? rules localBeat error target.quantum).map fun nudge =>
    { tempo := if Measure.below rules.tempoEpsilon drift then some target.tempo else none
      nudge
      phaseError := error }

/-- Nothing is to be added to the timeline. -/
def isStill (c : Correction α) : Bool :=
  Measure.atMost c.nudge (Measure.ofNat 0) && Measure.atMost (Measure.ofNat 0) c.nudge

/-- The correction changes nothing. -/
def isNoop (c : Correction α) : Bool := c.tempo.isNone && c.isStill

end Correction

end Cadence
