import Cadence.Json.Format
import Cadence.Point.Basic
import Cadence.Sync.Follower
import Cadence.Timing

/-!
# JSON forms

The JSON form of every value that the clock exchanges: meters, spans, timings, kinds of points,
severities, messages, notices, snapshots, the state of the follower, and configurations.
-/

namespace Cadence

open Json

/-- A meter is the pair of its numbers. -/
instance : Codec Meter where
  encode m := .array [ofNat m.numerator.toNat, ofNat m.denominator.toNat]
  decode?
    | .array [numerator, denominator] => do
      let numerator ← uint32? numerator
      let denominator ← uint32? denominator
      (Meter.make numerator denominator).toOption
    | _ => none

/-- A span is a choice of its unit. -/
instance : Codec Span where
  encode
    | .micros count => case "micros" (ofNat count.toNat)
    | .beats count => case "beats" (ofFloat count)
    | .bars count => case "bars" (ofFloat count)
  decode? v := do
    match ← case? v with
    | ("micros", content) => content? (fun v => (uint64? v).map .micros) content
    | ("beats", content) => content? (fun v => (float? v).map .beats) content
    | ("bars", content) => content? (fun v => (float? v).map .bars) content
    | _ => none

/-- A timing is a choice. -/
instance : Codec Timing where
  encode
    | .immediate => ofText "Immediate"
    | .atBeat beat => case "AtBeat" (ofFloat beat)
    | .afterBeats beats => case "AfterBeats" (ofFloat beats)
    | .atNextBeat => ofText "AtNextBeat"
    | .atNextBar => ofText "AtNextBar"
    | .atNextModulo beats => case "AtNextModulo" (ofFloat beats)
  decode? v := do
    match ← case? v with
    | ("Immediate", content) => bare? .immediate content
    | ("AtBeat", content) => content? (fun v => (float? v).map .atBeat) content
    | ("AfterBeats", content) => content? (fun v => (float? v).map .afterBeats) content
    | ("AtNextBeat", content) => bare? .atNextBeat content
    | ("AtNextBar", content) => bare? .atNextBar content
    | ("AtNextModulo", content) => content? (fun v => (float? v).map .atNextModulo) content
    | _ => none

/-- A kind of point is a choice. -/
instance : Codec PointKind where
  encode
    | .oneShot => ofText "OneShot"
    | .persistent => ofText "Persistent"
    | .recurring period => case "Recurring" (ofFields [("period", ofFloat period)])
    | .derived => ofText "Derived"
  decode? v := do
    match ← case? v with
    | ("OneShot", content) => bare? .oneShot content
    | ("Persistent", content) => bare? .persistent content
    | ("Recurring", content) => content? (fun v => do
        let fields ← Fields.of? ["period"] v
        pure (.recurring (← fields.required? "period" float?))) content
    | ("Derived", content) => bare? .derived content
    | _ => none

/-- A severity is its name. -/
instance : Codec Log.Severity where
  encode severity := ofText severity.name
  decode? v := do
    let (name, content) ← case? v
    bare? (← Log.Severity.ofName? name) content

/-- A mode of logging is its name. -/
instance : Codec Log.Mode where
  encode mode := ofText mode.name
  decode? v := do
    let (name, content) ← case? v
    bare? (← Log.Mode.ofName? name) content

/-- An optional number is `null` if it is absent. -/
def Json.ofFloat? : Option Float → Value
  | none => .null
  | some x => ofFloat x

/-- A log message is a record. -/
instance : Codec Log.Message where
  encode m := ofFields
    [("level", Codec.encode m.level), ("beat", Json.ofFloat? m.beat), ("msg", ofText m.text)]
  decode? v := do
    let fields ← Fields.of? ["level", "beat", "msg"] v
    let level ← fields.required? "level" Codec.decode?
    let beat ← fields.optional? "beat" float?
    let text ← fields.required? "msg" text?
    pure { level, beat, text }

/-- A notice is a choice. -/
instance : Codec Notice where
  encode
    | .tempoChanged bpm atBeat =>
      case "TempoChanged" (ofFields [("bpm", ofFloat bpm), ("at_beat", ofFloat atBeat)])
    | .meterChanged meter => case "MeterChanged" (Codec.encode meter)
    | .timeSet beat => case "TimeSet" (ofFloat beat)
    | .syncEnabled peers => case "SyncEnabled" (ofFields [("peers", ofNat peers.toNat)])
    | .syncDisabled => ofText "SyncDisabled"
    | .actionFailed label beat reason =>
      case "ActionFailed" (ofFields
        [("label", ofText label), ("beat", ofFloat beat), ("reason", ofText reason)])
    | .cleared => ofText "Cleared"
  decode? v := do
    match ← case? v with
    | ("TempoChanged", content) => content? (fun v => do
        let fields ← Fields.of? ["bpm", "at_beat"] v
        let bpm ← fields.required? "bpm" float?
        let atBeat ← fields.required? "at_beat" float?
        pure (.tempoChanged bpm atBeat)) content
    | ("MeterChanged", content) => content? (fun v => (Codec.decode? v).map .meterChanged) content
    | ("TimeSet", content) => content? (fun v => (float? v).map .timeSet) content
    | ("SyncEnabled", content) => content? (fun v => do
        let fields ← Fields.of? ["peers"] v
        pure (.syncEnabled (← fields.required? "peers" uint64?))) content
    | ("SyncDisabled", content) => bare? .syncDisabled content
    | ("ActionFailed", content) => content? (fun v => do
        let fields ← Fields.of? ["label", "beat", "reason"] v
        let label ← fields.required? "label" text?
        let beat ← fields.required? "beat" float?
        let reason ← fields.required? "reason" text?
        pure (.actionFailed label beat reason)) content
    | ("Cleared", content) => bare? .cleared content
    | _ => none

/-- A snapshot is a record. -/
instance : Codec Snapshot where
  encode s := ofFields
    [("tempo", ofFloat s.tempo), ("beat", ofFloat s.beat), ("phase", ofFloat s.phase),
      ("peers", ofNat s.peers.toNat)]
  decode? v := do
    let fields ← Fields.of? ["tempo", "beat", "phase", "peers"] v
    let tempo ← fields.required? "tempo" float?
    let beat ← fields.required? "beat" float?
    let phase ← fields.required? "phase" float?
    let peers ← fields.required? "peers" uint64?
    pure { tempo, beat, phase, peers }

/-- The state of the follower is a record. -/
instance : Codec SyncStatus where
  encode s := ofFields
    [("enabled", .bool s.enabled), ("tempo", ofFloat s.tempo), ("beat", ofFloat s.beat),
      ("phase", ofFloat s.phase), ("quantum", ofFloat s.quantum),
      ("peer_count", ofNat s.peerCount.toNat), ("phase_offset", ofFloat s.phaseOffset),
      ("resync_interval", ofFloat s.resyncInterval),
      ("consecutive_failures", ofNat s.consecutiveFailures.toNat)]
  decode? v := do
    let fields ← Fields.of?
      ["enabled", "tempo", "beat", "phase", "quantum", "peer_count", "phase_offset",
        "resync_interval", "consecutive_failures"] v
    let enabled ← fields.required? "enabled" bool?
    let tempo ← fields.required? "tempo" float?
    let beat ← fields.required? "beat" float?
    let phase ← fields.required? "phase" float?
    let quantum ← fields.required? "quantum" float?
    let peerCount ← fields.required? "peer_count" uint64?
    let phaseOffset ← fields.required? "phase_offset" float?
    let resyncInterval ← fields.required? "resync_interval" float?
    let consecutiveFailures ← fields.required? "consecutive_failures" uint32?
    pure { enabled, tempo, beat, phase, quantum, peerCount, phaseOffset, resyncInterval,
           consecutiveFailures }

/-- The settings of the timeline are a record, every field of which may be left out. -/
instance : Codec ClockSettings where
  encode s := ofFields
    [("tempo", ofFloat s.tempo), ("meter", Codec.encode s.meter),
      ("start_beat", ofFloat s.startBeat)]
  decode? v := do
    let fallback : ClockSettings := .omitted
    let fields ← Fields.of? ["tempo", "meter", "start_beat"] v
    let tempo ← fields.withDefault? "tempo" fallback.tempo float?
    let meter ← fields.withDefault? "meter" fallback.meter Codec.decode?
    let startBeat ← fields.withDefault? "start_beat" fallback.startBeat float?
    pure { tempo, meter, startBeat }

/-- The settings of the driver loop are a record, every field of which may be left out. -/
instance : Codec DriverSettings where
  encode s := ofFields
    [("tick_interval_micros", ofNat s.tickIntervalMicros.toNat),
      ("active_wait_micros", ofNat s.activeWaitMicros.toNat),
      ("realtime_priority", .bool s.realtimePriority)]
  decode? v := do
    let fallback : DriverSettings := .omitted
    let fields ← Fields.of?
      ["tick_interval_micros", "active_wait_micros", "realtime_priority"] v
    let tickIntervalMicros ←
      fields.withDefault? "tick_interval_micros" fallback.tickIntervalMicros uint64?
    let activeWaitMicros ←
      fields.withDefault? "active_wait_micros" fallback.activeWaitMicros uint64?
    let realtimePriority ←
      fields.withDefault? "realtime_priority" fallback.realtimePriority bool?
    pure { tickIntervalMicros, activeWaitMicros, realtimePriority }

/-- The settings of the follower are a record, every field of which may be left out. The quantum is
only written if there is one. -/
instance : Codec SyncSettings where
  encode s := ofFields <|
    [("enabled", .bool s.enabled), ("phase_offset", ofFloat s.phaseOffset),
      ("resync_interval", ofFloat s.resyncInterval)]
    ++ s.quantum.toList.map (fun quantum => ("quantum", ofFloat quantum))
    ++ [("tempo_epsilon", ofFloat s.tempoEpsilon), ("phase_tolerance", ofFloat s.phaseTolerance),
      ("correction_gain", ofFloat s.correctionGain), ("max_correction", ofFloat s.maxCorrection),
      ("snap_at_bar_start", .bool s.snapAtBarStart),
      ("failure_warn_threshold", ofNat s.failureWarnThreshold.toNat)]
  decode? v := do
    let fallback : SyncSettings := .omitted
    let fields ← Fields.of?
      ["enabled", "phase_offset", "resync_interval", "quantum", "tempo_epsilon",
        "phase_tolerance", "correction_gain", "max_correction", "snap_at_bar_start",
        "failure_warn_threshold"] v
    let enabled ← fields.withDefault? "enabled" fallback.enabled bool?
    let phaseOffset ← fields.withDefault? "phase_offset" fallback.phaseOffset float?
    let resyncInterval ← fields.withDefault? "resync_interval" fallback.resyncInterval float?
    let quantum ← fields.withDefault? "quantum" fallback.quantum (nullable? float?)
    let tempoEpsilon ← fields.withDefault? "tempo_epsilon" fallback.tempoEpsilon float?
    let phaseTolerance ← fields.withDefault? "phase_tolerance" fallback.phaseTolerance float?
    let correctionGain ← fields.withDefault? "correction_gain" fallback.correctionGain float?
    let maxCorrection ← fields.withDefault? "max_correction" fallback.maxCorrection float?
    let snapAtBarStart ← fields.withDefault? "snap_at_bar_start" fallback.snapAtBarStart bool?
    let failureWarnThreshold ←
      fields.withDefault? "failure_warn_threshold" fallback.failureWarnThreshold uint32?
    pure { enabled, phaseOffset, resyncInterval, quantum, tempoEpsilon, phaseTolerance,
           correctionGain, maxCorrection, snapAtBarStart, failureWarnThreshold }

/-- The settings of the log are a record, every field of which may be left out. -/
instance : Codec LoggingSettings where
  encode s := ofFields
    [("mode", Codec.encode s.mode), ("min_severity", Codec.encode s.minSeverity)]
  decode? v := do
    let fallback : LoggingSettings := .omitted
    let fields ← Fields.of? ["mode", "min_severity"] v
    let mode ← fields.withDefault? "mode" fallback.mode Codec.decode?
    let minSeverity ← fields.withDefault? "min_severity" fallback.minSeverity Codec.decode?
    pure { mode, minSeverity }

/-- A configuration is a record of its sections, each of which may be left out. -/
instance : Codec Config where
  encode c := ofFields
    [("clock", Codec.encode c.clock), ("driver", Codec.encode c.driver),
      ("sync", Codec.encode c.sync), ("logging", Codec.encode c.logging)]
  decode? v := do
    let fields ← Fields.of? ["clock", "driver", "sync", "logging"] v
    let clock ← fields.withDefault? "clock" {} Codec.decode?
    let driver ← fields.withDefault? "driver" {} Codec.decode?
    let sync ← fields.withDefault? "sync" {} Codec.decode?
    let logging ← fields.withDefault? "logging" {} Codec.decode?
    pure { clock, driver, sync, logging }

namespace Json

/-- The kinds of documents that can be read and written again. -/
inductive DocumentKind where
  /-- A meter. -/
  | meter
  /-- A span. -/
  | span
  /-- A timing. -/
  | timing
  /-- A kind of point. -/
  | pointKind
  /-- A configuration. -/
  | config
  /-- A notice. -/
  | notice
  /-- A log message. -/
  | message
  /-- A severity. -/
  | severity
  /-- The state of the follower. -/
  | syncStatus
  /-- A snapshot of a session. -/
  | snapshot
deriving Repr, DecidableEq

/-- Reads a document as a value of a type and writes that value again. -/
def reprint? (α : Type) [Codec α] (text : String) : Option String := do
  pure (Format.compact.write (← Format.compact.read? α text))

/-- Reads a document of a kind and writes its value again, in the one form that this library
writes. -/
def normalize? (kind : DocumentKind) (text : String) : Option String :=
  match kind with
  | .meter => reprint? Meter text
  | .span => reprint? Span text
  | .timing => reprint? Timing text
  | .pointKind => reprint? PointKind text
  | .config => reprint? Config text
  | .notice => reprint? Notice text
  | .message => reprint? Log.Message text
  | .severity => reprint? Log.Severity text
  | .syncStatus => reprint? SyncStatus text
  | .snapshot => reprint? Snapshot text

end Json

end Cadence
