import Cadence.Log.Message
import Cadence.Meter

/-!
# Configurations

What can be set before a clock is created, in four sections, with the value that each setting has
when nobody says otherwise. A section that a document leaves out as a whole has these values; for a setting
that a section leaves out the value is named once more.
-/

namespace Cadence

/-- Where log messages go, as far as a configuration can choose. -/
inductive Log.Mode where
  /-- To the terminal. -/
  | standalone
  /-- To the rotating log file. -/
  | file
  /-- To the log file and the terminal. -/
  | full
  /-- Nowhere. -/
  | silent
deriving Repr, DecidableEq, Inhabited

/-- All modes. -/
def Log.Mode.all : List Log.Mode := [.standalone, .file, .full, .silent]

/-- The name of a mode in configuration files. -/
def Log.Mode.name : Log.Mode → String
  | .standalone => "standalone"
  | .file => "file"
  | .full => "full"
  | .silent => "silent"

/-- The mode of a given name. -/
def Log.Mode.ofName? (name : String) : Option Log.Mode := Log.Mode.all.find? (·.name = name)

/-- The mode writes to the log file. -/
def Log.Mode.usesFile : Log.Mode → Bool
  | .file | .full => true
  | .standalone | .silent => false

/-- The tempo of a new clock. -/
def ClockSettings.defaultTempo : Float := 120.0

/-- How the timeline starts. -/
structure ClockSettings where
  /-- The tempo in beats per minute. -/
  tempo : Float := ClockSettings.defaultTempo
  /-- The meter. -/
  meter : Meter := Meter.common
  /-- The beat that the timeline reads at first. -/
  startBeat : Float := 0.0
deriving DecidableEq, Repr

/-- What is taken for each setting of the timeline that a document leaves out. -/
def ClockSettings.omitted : ClockSettings where
  tempo := defaultTempo
  meter := Meter.common
  startBeat := 0.0

namespace DriverSettings

/-- The longest sleep between two ticks. -/
def defaultTickIntervalMicros : UInt64 := 2000

/-- How close a deadline has to be for the loop to spin. -/
def defaultActiveWaitMicros : UInt64 := 300

/-- A raised thread priority is asked for. -/
def defaultRealtimePriority : Bool := true

end DriverSettings

/-- How the driver loop waits. -/
structure DriverSettings where
  /-- The longest that the loop sleeps between two ticks. -/
  tickIntervalMicros : UInt64 := DriverSettings.defaultTickIntervalMicros
  /-- The loop spins instead of sleeping when the next deadline is this close. -/
  activeWaitMicros : UInt64 := DriverSettings.defaultActiveWaitMicros
  /-- Whether to ask for a raised thread priority. -/
  realtimePriority : Bool := DriverSettings.defaultRealtimePriority
deriving DecidableEq, Repr

/-- What is taken for each setting of the driver loop that a document leaves out. -/
def DriverSettings.omitted : DriverSettings where
  tickIntervalMicros := defaultTickIntervalMicros
  activeWaitMicros := defaultActiveWaitMicros
  realtimePriority := defaultRealtimePriority

namespace SyncSettings

/-- The offset to the phase of the session. -/
def defaultPhaseOffset : Float := 0.5

/-- The beats between two reconciliations. -/
def defaultResyncInterval : Float := 1.0

/-- How far tempos may differ. -/
def defaultTempoEpsilon : Float := 0.01

/-- How far phases may differ. -/
def defaultPhaseTolerance : Float := 0.02

/-- How much of an error is corrected in the middle of a bar. -/
def defaultCorrectionGain : Float := 0.25

/-- The largest correction in the middle of a bar. -/
def defaultMaxCorrection : Float := 0.25

/-- The whole error is corrected just after a bar line. -/
def defaultSnapAtBarStart : Bool := true

/-- The failures between two warnings. -/
def defaultFailureWarnThreshold : UInt32 := 8

end SyncSettings

/-- How the clock follows a tempo session. -/
structure SyncSettings where
  /-- Follow the session as soon as the clock starts. -/
  enabled : Bool := false
  /-- Beats added to the phase of the session. -/
  phaseOffset : Float := SyncSettings.defaultPhaseOffset
  /-- Beats between two reconciliations. -/
  resyncInterval : Float := SyncSettings.defaultResyncInterval
  /-- Beats over which the phase is aligned; a bar of the current meter if absent. -/
  quantum : Option Float := none
  /-- The tempo difference that is left alone. -/
  tempoEpsilon : Float := SyncSettings.defaultTempoEpsilon
  /-- The phase error that is left alone. -/
  phaseTolerance : Float := SyncSettings.defaultPhaseTolerance
  /-- The fraction of the phase error that one reconciliation corrects in the middle of a bar. -/
  correctionGain : Float := SyncSettings.defaultCorrectionGain
  /-- The largest correction in the middle of a bar, in beats. -/
  maxCorrection : Float := SyncSettings.defaultMaxCorrection
  /-- Correct the whole error at once just after a bar line. -/
  snapAtBarStart : Bool := SyncSettings.defaultSnapAtBarStart
  /-- Consecutive failed reconciliations between two warnings. -/
  failureWarnThreshold : UInt32 := SyncSettings.defaultFailureWarnThreshold
deriving DecidableEq, Repr

/-- What is taken for each setting of the follower that a document leaves out. -/
def SyncSettings.omitted : SyncSettings where
  enabled := false
  phaseOffset := defaultPhaseOffset
  resyncInterval := defaultResyncInterval
  quantum := none
  tempoEpsilon := defaultTempoEpsilon
  phaseTolerance := defaultPhaseTolerance
  correctionGain := defaultCorrectionGain
  maxCorrection := defaultMaxCorrection
  snapAtBarStart := defaultSnapAtBarStart
  failureWarnThreshold := defaultFailureWarnThreshold

/-- Messages go to the terminal. -/
def LoggingSettings.defaultMode : Log.Mode := .standalone

/-- Messages are logged from there on. -/
def LoggingSettings.defaultMinSeverity : Log.Severity := .info

/-- Where log messages go and which of them. -/
structure LoggingSettings where
  /-- Where messages go. -/
  mode : Log.Mode := LoggingSettings.defaultMode
  /-- The least severity that is logged. -/
  minSeverity : Log.Severity := LoggingSettings.defaultMinSeverity
deriving DecidableEq, Repr

/-- What is taken for each setting of the log that a document leaves out. -/
def LoggingSettings.omitted : LoggingSettings where
  mode := defaultMode
  minSeverity := defaultMinSeverity

/-- A whole configuration. -/
structure Config where
  /-- The start of the timeline. -/
  clock : ClockSettings := {}
  /-- The driver loop. -/
  driver : DriverSettings := {}
  /-- Following a session. -/
  sync : SyncSettings := {}
  /-- The log. -/
  logging : LoggingSettings := {}
deriving DecidableEq, Repr

instance : Inhabited Config := ⟨{}⟩

end Cadence
