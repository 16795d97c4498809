import Cadence.Config.Basic
import Cadence.Fault

/-!
# Validation

Values out of range are brought back to something usable instead of being refused. Every section
answers its repaired value together with the warnings that the repair gives rise to.
-/

namespace Cadence

/-- A value with the warnings that came up on the way to it. -/
structure Repaired (α : Type) where
  /-- The usable value. -/
  value : α
  /-- What had to be replaced and is worth a warning. -/
  warnings : List String
deriving DecidableEq, Repr

/-- Keeps a value that is in range, and takes the fallback with a warning otherwise. -/
def Repaired.check {α : Type} (valid : Bool) (value fallback : α) (warning : String) :
    Repaired α :=
  if valid then ⟨value, []⟩ else ⟨fallback, [warning]⟩

/-- Keeps a value that is in range, and quietly takes the fallback otherwise. -/
def keepOr {α : Type} (valid : Bool) (value fallback : α) : α := if valid then value else fallback

/-- A finite number that is not negative. -/
def isNonNegative (x : Float) : Bool := x.isFinite && 0.0 ≤ x

/-- The warning that a setting was replaced by its default. -/
def replacedBy (name value fallback : String) : String :=
  s!"Invalid {name}: {value}. Using default: {fallback}"

/-- The tempo must lie between 1 and 999, and the first beat must be finite. -/
def ClockSettings.validate (s : ClockSettings) : Repaired ClockSettings :=
  let fallback : ClockSettings := {}
  let tempo := Repaired.check (s.tempo.isFinite && 1.0 ≤ s.tempo && s.tempo ≤ 999.0)
    s.tempo fallback.tempo
    (replacedBy "tempo" (Number.text s.tempo) (Number.text fallback.tempo))
  let startBeat := Repaired.check s.startBeat.isFinite s.startBeat fallback.startBeat
    (replacedBy "start_beat" (Number.text s.startBeat) "0")
  ⟨{ s with tempo := tempo.value, startBeat := startBeat.value },
    tempo.warnings ++ startBeat.warnings⟩

/-- The tick interval must lie between one microsecond and a tenth of a second, and the active
wait is cut down to it. -/
def DriverSettings.validate (s : DriverSettings) : Repaired DriverSettings :=
  let fallback : DriverSettings := {}
  let tick := Repaired.check (0 < s.tickIntervalMicros && s.tickIntervalMicros ≤ 100000)
    s.tickIntervalMicros fallback.tickIntervalMicros
    (replacedBy "tick_interval_micros" (toString s.tickIntervalMicros)
      (toString fallback.tickIntervalMicros))
  ⟨{ s with
      tickIntervalMicros := tick.value
      activeWaitMicros := min s.activeWaitMicros tick.value },
    tick.warnings⟩

/-- Offsets must be finite, intervals and corrections positive, and tolerances not negative. The
gain is cut down to 1. -/
def SyncSettings.validate (s : SyncSettings) : Repaired SyncSettings :=
  let fallback : SyncSettings := {}
  let phaseOffset := Repaired.check s.phaseOffset.isFinite s.phaseOffset fallback.phaseOffset
    (replacedBy "phase_offset" (Number.text s.phaseOffset) (Number.text fallback.phaseOffset))
  let resyncInterval := Repaired.check (isPositive s.resyncInterval)
    s.resyncInterval fallback.resyncInterval
    (replacedBy "resync_interval" (Number.text s.resyncInterval)
      (Number.text fallback.resyncInterval))
  let quantum : Repaired (Option Float) := match s.quantum with
    | none => ⟨none, []⟩
    | some quantum => Repaired.check (isPositive quantum) (some quantum) none
        s!"Invalid quantum: {Number.text quantum}. Using the bar length instead"
  let gain := Repaired.check (isPositive s.correctionGain)
    s.correctionGain fallback.correctionGain
    s!"Invalid correction_gain: {Number.text s.correctionGain}. Using default"
  let largest := Repaired.check (isPositive s.maxCorrection)
    s.maxCorrection fallback.maxCorrection
    s!"Invalid max_correction: {Number.text s.maxCorrection}. Using default"
  ⟨{ s with
      phaseOffset := phaseOffset.value
      resyncInterval := resyncInterval.value
      quantum := quantum.value
      tempoEpsilon := keepOr (isNonNegative s.tempoEpsilon) s.tempoEpsilon fallback.tempoEpsilon
      phaseTolerance :=
        keepOr (isNonNegative s.phaseTolerance) s.phaseTolerance fallback.phaseTolerance
      correctionGain := Number.smaller gain.value 1.0
      maxCorrection := largest.value
      failureWarnThreshold := if s.failureWarnThreshold = 0 then 1 else s.failureWarnThreshold },
    phaseOffset.warnings ++ resyncInterval.warnings ++ quantum.warnings ++ gain.warnings
      ++ largest.warnings⟩

/-- Repairs every section but the log's, which has no value out of range. -/
def Config.validate (c : Config) : Repaired Config :=
  let clock := c.clock.validate
  let driver := c.driver.validate
  let sync := c.sync.validate
  ⟨{ c with clock := clock.value, driver := driver.value, sync := sync.value },
    clock.warnings ++ driver.warnings ++ sync.warnings⟩

/-- The warnings of a repair as log messages. -/
def Repaired.messages {α : Type} (r : Repaired α) : List Log.Message :=
  r.warnings.map (Log.say .warn)

end Cadence
