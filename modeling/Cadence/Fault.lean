import Cadence.Number.Notation
import Cadence.Point.Id

/-!
# Faults

Everything that an operation of the clock can refuse, by cause. The wording stands in one place,
`Fault.message`, and so does the name of each cause, `Fault.name`.
-/

namespace Cadence

/-- Why an operation was refused, or why an action failed. -/
inductive Fault where
  /-- The tempo is not a finite number above zero. -/
  | invalidTempo (bpm : Float)
  /-- One of the two numbers of the meter is zero. -/
  | invalidMeter (numerator denominator : UInt32)
  /-- The beat is not finite. -/
  | invalidBeat (beat : Float)
  /-- The period is not a finite number above zero. -/
  | invalidPeriod (beats : Float)
  /-- The tempo session cannot be joined. -/
  | syncUnavailable (reason : String)
  /-- An action returned an error or broke off. -/
  | actionFailed (label : String) (beat : Float) (reason : String)
  /-- The point has a beat and takes no other. -/
  | pointAlreadyBound (point : PointId) (beat : Float)
  /-- The driver loop cannot be started. -/
  | driverUnavailable (reason : String)
deriving Repr, DecidableEq

/-- The name of a fault, without what it is about. -/
def Fault.name : Fault → String
  | .invalidTempo _ => "InvalidTempo"
  | .invalidMeter _ _ => "InvalidMeter"
  | .invalidBeat _ => "InvalidBeat"
  | .invalidPeriod _ => "InvalidPeriod"
  | .syncUnavailable _ => "SyncUnavailable"
  | .actionFailed _ _ _ => "ActionFailed"
  | .pointAlreadyBound _ _ => "PointAlreadyBound"
  | .driverUnavailable _ => "DriverUnavailable"

/-- The wording of a fault. -/
def Fault.message : Fault → String
  | .invalidTempo bpm =>
    s!"Invalid tempo {Number.text bpm}: bpm must be a finite number above zero"
  | .invalidMeter numerator denominator => s!"Invalid meter {numerator}/{denominator}"
  | .invalidBeat beat => s!"Invalid beat {Number.text beat}"
  | .invalidPeriod beats =>
    s!"Invalid period {Number.text beats}: must be a finite number of beats above zero"
  | .syncUnavailable reason => s!"Tempo sync unavailable: {reason}"
  | .actionFailed label beat reason =>
    s!"Action '{label}' failed at beat {Number.fixed 3 beat}: {reason}"
  | .pointAlreadyBound point beat =>
    s!"{point.text} was already bound to beat {Number.text beat}"
  | .driverUnavailable reason => s!"Driver loop unavailable: {reason}"

/-- A finite number above zero. -/
def isPositive (x : Float) : Bool := x.isFinite && 0.0 < x

/-- Accepts a beat that is finite. -/
def checkBeat (beat : Float) : Except Fault Float :=
  if beat.isFinite then .ok beat else .error (.invalidBeat beat)

/-- Accepts a period that is finite and above zero. -/
def checkPeriod (period : Float) : Except Fault Float :=
  if isPositive period then .ok period else .error (.invalidPeriod period)

/-- Accepts a tempo that is finite and above zero. -/
def checkTempo (bpm : Float) : Except Fault Float :=
  if isPositive bpm then .ok bpm else .error (.invalidTempo bpm)

end Cadence
