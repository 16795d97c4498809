import Cadence.CommandLine.Arguments
import Cadence.Conductor.Tick
import Cadence.Config.Store
import Cadence.Duration
import Cadence.Log.Logger
import Cadence.Log.Rotation

/-!
# Setting the program up

From the arguments to a clock that runs: the configuration is loaded, arguments win over it, and the
clock is made, follows the session if that was asked for, and clicks on every beat if that was asked
for.
-/

namespace Cadence.Program

open CommandLine (Arguments)

/-- The name of the program, which its directory is named after too. -/
def name : String := "tempoclock"

/-- The version of the program. -/
def version : String := "0.1.0"

/-- The one action that the program schedules: the click of the metronome. -/
inductive Click where
  /-- Logs the position within the bar. -/
  | click
deriving Repr, DecidableEq

/-- The clock of the program. No session is available to it. -/
abbrev Clock : Type := Conductor Offline Click

/-- The position within the bar, counted from one in 32 bits. -/
def position (p : Playhead) : UInt32 :=
  UInt32.ofNat (Number.wholeBelow UInt32.size (Number.cycleRemainder p.now p.barLength)) + 1

/-- What a click does. -/
def perform : Performer Offline Click Unit
  | .click, (c, outside) =>
    let said := s!"tick {position c.playhead}/{c.playhead.meter.numerator}"
    (.ok (), (c.say .info said, outside))

/-- Ticks. There are always bounds for a correction, because the configuration was repaired. -/
def tick (c : Clock) : Clock := (Conductor.tick perform (c, ())).2.1

/-- What came of loading the configuration. -/
structure Loaded where
  /-- The configuration, or the text of the fault. -/
  answer : Except String Config
  /-- The files afterwards. -/
  files : Files
  /-- What was logged. -/
  messages : List Log.Message

/-- Lets the arguments win over a configuration. -/
def override (a : Arguments) (c : Config) : Config where
  clock := { c.clock with
    tempo := a.tempo.getD c.clock.tempo
    meter := a.meter.getD c.clock.meter }
  driver := c.driver
  sync := { c.sync with
    phaseOffset := a.phaseOffset.getD c.sync.phaseOffset
    resyncInterval := a.resyncInterval.getD c.sync.resyncInterval
    enabled := c.sync.enabled || a.link }
  logging := c.logging

/-- The directory of the program, in the directory for configurations. -/
def directory (home : String) : String := s!"{home}/{name}"

/-- Loads a configuration from where it is kept, lets the arguments win over it, and repairs it. -/
def loadFrom (a : Arguments) (store : ConfigStore) (files : Files) : Loaded :=
  let outcome := store.load files
  match outcome.answer with
  | .error _ => ⟨.error s!"Could not load {store.path}", outcome.files, outcome.messages⟩
  | .ok config =>
    let repaired := (override a config).validate
    ⟨.ok repaired.value, outcome.files, outcome.messages ++ repaired.messages⟩

/-- Loads the configuration that the arguments name. Without a name it is kept in the directory of
the program, which is made if it is missing. -/
def load (a : Arguments) (home : String) (files : Files) : Loaded :=
  match a.config with
  | some path => loadFrom a ⟨path⟩ files
  | none =>
    match files.makeDirectories (FilePath.ofText (directory home)) with
    | (false, files) => ⟨.error StoreFault.noDirectory.message, files, []⟩
    | (true, files) => loadFrom a ⟨directory home ++ "/config.toml"⟩ files

/-- The directory of the log files. -/
def logDirectory (home : String) : String := directory home ++ "/logs"

/-- The messages before the clock is made. -/
def greeting (home : String) (s : LoggingSettings) : List Log.Message :=
  (if s.mode.usesFile then
    [Log.say .info s!"Logging to {logDirectory home}/{Log.currentName}"] else [])
    ++ [Log.say .info s!"{name} {version}"]

/-- Follows the session, if that was asked for. -/
def follow (enabled : Bool) (c : Clock) : Clock :=
  if enabled then
    match c.enableConfiguredSync with
    | (.ok status, c) => c.say .info s!"Following session at {Number.fixed 2 status.tempo} bpm"
    | (.error fault, c) => c.say .warn s!"{fault.message}. Running on local tempo."
  else c

/-- Lets the metronome click on every beat, if that was asked for. -/
def withMetronome (wanted : Bool) (c : Clock) : Except Fault Clock :=
  if wanted then
    match c.every 1.0 ⟨"metronome", .click⟩ with
    | (.ok _, c) => .ok c
    | (.error fault, _) => .error fault
  else .ok c

/-- The clock of the program, running. -/
def begin (a : Arguments) (config : Config) (time : WallTime) : Except Fault Clock := do
  let c : Clock ← Conductor.create config time {}
  let c ← withMetronome a.metronome (follow config.sync.enabled c)
  pure c.start

/-- How long the program runs and how often it reports, in nanoseconds. -/
structure Course where
  /-- The time between two reports, if there are any. -/
  reportEvery : Option Nat
  /-- The time after which the program stops, if it does. -/
  limit : Option Nat
deriving Repr, DecidableEq

/-- A setting in seconds. -/
def seconds (what : String) (value : Float) : Except String Nat :=
  match Duration.ofSeconds value with
  | .ok d => .ok d.toNanos
  | .error fault => .error (Duration.refusal what value fault)

/-- The course that the arguments ask for. An interval of zero means no reports. -/
def Course.ofArguments (a : Arguments) : Except String Course := do
  let reportEvery ← if a.statusInterval == 0.0 then pure none
    else some <$> seconds "status interval" a.statusInterval
  let limit ← a.duration.mapM (seconds "duration")
  pure ⟨reportEvery, limit⟩

/-- The program goes on after so many nanoseconds. -/
def Course.goesOn (c : Course) (elapsed : Nat) : Bool := c.limit.all (elapsed < ·)

/-- A report is due so many nanoseconds after the last one. -/
def Course.reports (c : Course) (since : Nat) : Bool := c.reportEvery.any (· ≤ since)

/-- How often the program looks whether it is to report or to stop, in nanoseconds. -/
def pollInterval : Nat := 50000000

end Cadence.Program
