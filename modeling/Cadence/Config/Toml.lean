import Cadence.Config.Basic
import Cadence.Toml.Format

/-!
# Configurations as TOML documents

A configuration has one section for each of its parts. Settings and sections that are left out have
their defaults, and names that mean nothing are passed over. What has a wrong type is refused.
-/

namespace Cadence

namespace Toml

/-- A number. Whole numbers need no point. -/
def float? : Value → Option Float
  | .float x => some x
  | .integer n =>
    let x := Number.ofDecimal ⟨n.natAbs, 0⟩
    some (if n < 0 then -x else x)
  | _ => none

/-- A count not above a limit. -/
def count? (limit : Nat) : Value → Option Nat
  | .integer n => if 0 ≤ n ∧ n ≤ limit then some n.toNat else none
  | _ => none

/-- A 64-bit count. -/
def uint64? (v : Value) : Option UInt64 := (count? Number.countLimit v).map UInt64.ofNat

/-- A 32-bit count. -/
def uint32? (v : Value) : Option UInt32 := (count? (UInt32.size - 1) v).map UInt32.ofNat

/-- A truth value. -/
def bool? : Value → Option Bool
  | .bool value => some value
  | _ => none

/-- A meter: its two numbers. What follows them in the list is passed over. -/
def meter? : Value → Option Meter
  | .array (n :: d :: _) => do (Meter.make (← uint32? n) (← uint32? d)).toOption
  | _ => none

/-- The value holds nothing. -/
def isEmpty : Value → Bool
  | .array items => items.isEmpty
  | .table entries => entries.isEmpty
  | _ => false

/-- A choice by name. A table with the name as its only key will do, if nothing is assigned to it
but an empty list or table. -/
def choice? {α : Type} (ofName? : String → Option α) : Value → Option α
  | .text name => ofName? name
  | .table [(name, content)] => if isEmpty content then ofName? name else none
  | _ => none

/-- What the fields of a record are looked up in. A list gives the fields in order, and a date has
none of them. -/
def record? (names : List String) : Value → Option (List (String × Value))
  | .table entries => some entries
  | .array items => some (names.zip items)
  | .date => some []
  | _ => none

/-- A setting, with its default if it is left out. -/
def setting? {α : Type} (entries : List (String × Value)) (name : String) (fallback : α)
    (read : Value → Option α) : Option α :=
  match entries.lookup name with
  | none => some fallback
  | some value => read value

end Toml

open Toml (setting? record?)

/-- The section of the timeline. -/
def ClockSettings.section (s : ClockSettings) : Toml.Section where
  name := "clock"
  entries :=
    [("tempo", .float s.tempo),
      ("meter", .array [.integer s.meter.numerator.toNat, .integer s.meter.denominator.toNat]),
      ("start_beat", .float s.startBeat)]

/-- Reads the settings of the timeline. -/
def ClockSettings.ofToml? (v : Toml.Value) : Option ClockSettings := do
  let fallback : ClockSettings := .omitted
  let entries ← record? ["tempo", "meter", "start_beat"] v
  let tempo ← setting? entries "tempo" fallback.tempo Toml.float?
  let meter ← setting? entries "meter" fallback.meter Toml.meter?
  let startBeat ← setting? entries "start_beat" fallback.startBeat Toml.float?
  pure { tempo, meter, startBeat }

/-- The section of the driver loop. -/
def DriverSettings.section (s : DriverSettings) : Toml.Section where
  name := "driver"
  entries :=
    [("tick_interval_micros", .integer s.tickIntervalMicros.toNat),
      ("active_wait_micros", .integer s.activeWaitMicros.toNat),
      ("realtime_priority", .bool s.realtimePriority)]

/-- Reads the settings of the driver loop. -/
def DriverSettings.ofToml? (v : Toml.Value) : Option DriverSettings := do
  let fallback : DriverSettings := .omitted
  let entries ← record? ["tick_interval_micros", "active_wait_micros", "realtime_priority"] v
  let tickIntervalMicros ←
    setting? entries "tick_interval_micros" fallback.tickIntervalMicros Toml.uint64?
  let activeWaitMicros ←
    setting? entries "active_wait_micros" fallback.activeWaitMicros Toml.uint64?
  let realtimePriority ← setting? entries "realtime_priority" fallback.realtimePriority Toml.bool?
  pure { tickIntervalMicros, activeWaitMicros, realtimePriority }

/-- The section of the follower. The quantum is only there if it was set. -/
def SyncSettings.section (s : SyncSettings) : Toml.Section where
  name := "sync"
  entries :=
    [("enabled", .bool s.enabled), ("phase_offset", .float s.phaseOffset),
      ("resync_interval", .float s.resyncInterval)]
    ++ s.quantum.toList.map (fun quantum => ("quantum", .float quantum))
    ++ [("tempo_epsilon", .float s.tempoEpsilon), ("phase_tolerance", .float s.phaseTolerance),
      ("correction_gain", .float s.correctionGain), ("max_correction", .float s.maxCorrection),
      ("snap_at_bar_start", .bool s.snapAtBarStart),
      ("failure_warn_threshold", .integer s.failureWarnThreshold.toNat)]

/-- Reads the settings of the follower. -/
def SyncSettings.ofToml? (v : Toml.Value) : Option SyncSettings := do
  let fallback : SyncSettings := .omitted
  let entries ← record?
    ["enabled", "phase_offset", "resync_interval", "quantum", "tempo_epsilon", "phase_tolerance",
      "correction_gain", "max_correction", "snap_at_bar_start", "failure_warn_threshold"] v
  let enabled ← setting? entries "enabled" fallback.enabled Toml.bool?
  let phaseOffset ← setting? entries "phase_offset" fallback.phaseOffset Toml.float?
  let resyncInterval ← setting? entries "resync_interval" fallback.resyncInterval Toml.float?
  let quantum ← setting? entries "quantum" fallback.quantum fun v => (Toml.float? v).map some
  let tempoEpsilon ← setting? entries "tempo_epsilon" fallback.tempoEpsilon Toml.float?
  let phaseTolerance ← setting? entries "phase_tolerance" fallback.phaseTolerance Toml.float?
  let correctionGain ← setting? entries "correction_gain" fallback.correctionGain Toml.float?
  let maxCorrection ← setting? entries "max_correction" fallback.maxCorrection Toml.float?
  let snapAtBarStart ← setting? entries "snap_at_bar_start" fallback.snapAtBarStart Toml.bool?
  let failureWarnThreshold ←
    setting? entries "failure_warn_threshold" fallback.failureWarnThreshold Toml.uint32?
  pure { enabled, phaseOffset, resyncInterval, quantum, tempoEpsilon, phaseTolerance,
         correctionGain, maxCorrection, snapAtBarStart, failureWarnThreshold }

/-- The section of the log. -/
def LoggingSettings.section (s : LoggingSettings) : Toml.Section where
  name := "logging"
  entries := [("mode", .text s.mode.name), ("min_severity", .text s.minSeverity.name)]

/-- Reads the settings of the log. -/
def LoggingSettings.ofToml? (v : Toml.Value) : Option LoggingSettings := do
  let fallback : LoggingSettings := .omitted
  let entries ← record? ["mode", "min_severity"] v
  let mode ← setting? entries "mode" fallback.mode (Toml.choice? Log.Mode.ofName?)
  let minSeverity ←
    setting? entries "min_severity" fallback.minSeverity (Toml.choice? Log.Severity.ofName?)
  pure { mode, minSeverity }

namespace Config

/-- The sections of a configuration. -/
def sections (c : Config) : List Toml.Section :=
  [c.clock.section, c.driver.section, c.sync.section, c.logging.section]

/-- The text of a configuration, unless it holds an integer that cannot be written. -/
def textIn? (T : Toml.Format) (c : Config) : Option String := T.print? c.sections

/-- That text as this library writes it. -/
def toText? (c : Config) : Option String := c.textIn? .byLine

/-- Reads a configuration from the entries of a document. -/
def ofToml? (entries : List (String × Toml.Value)) : Option Config := do
  let clock ← setting? entries "clock" {} ClockSettings.ofToml?
  let driver ← setting? entries "driver" {} DriverSettings.ofToml?
  let sync ← setting? entries "sync" {} SyncSettings.ofToml?
  let logging ← setting? entries "logging" {} LoggingSettings.ofToml?
  pure { clock, driver, sync, logging }

/-- Reads a configuration from the text of a document. -/
def readIn? (T : Toml.Format) (text : String) : Option Config := do ofToml? (← T.parse? text)

/-- Reads it as this library reads documents. -/
def ofText? (text : String) : Option Config := readIn? .byLine text

end Config

end Cadence
