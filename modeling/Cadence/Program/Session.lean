import Cadence.Conductor.View
import Cadence.Json.Codec
import Cadence.Program.Setup

/-!
# A session of the program

Everything that the program prints, logs and writes, from its start to its end. The session is worked
out on an ideal machine, where nothing takes time but waiting: every deadline is met, and the program
looks at its course at exact intervals.
-/

namespace Cadence.Program

open CommandLine (Arguments Rejection)

/-- What is left of a session. -/
structure Transcript where
  /-- The code that the program ended with. -/
  exitCode : Nat
  /-- What was printed and logged, in order. -/
  deliveries : List Log.Delivery
  /-- The files afterwards, the log file excepted. -/
  files : Files

/-- A clock with the logger that its messages go to, and what came out of it so far. -/
structure Running where
  /-- The clock. -/
  clock : Clock
  /-- The logger. -/
  logger : Log.Logger
  /-- What came out. -/
  deliveries : List Log.Delivery

namespace Running

/-- Lets the logged messages come out. -/
def flush (r : Running) : Running where
  clock := { r.clock with log := [] }
  logger := r.logger
  deliveries := r.deliveries ++ r.clock.log.flatMap r.logger.deliver

/-- Reports the state of the clock. -/
def report (json : Bool) (r : Running) : Running :=
  let (status, clock) := r.clock.syncStatus
  if json then
    { r with clock, deliveries := r.deliveries ++ [.output (Json.Format.compact.write status)] }
  else { r with clock := clock.say .info (clock.statusLine status) }.flush

/-- Stops following the session and stops the clock. -/
def stop (r : Running) : Running := { r with clock := r.clock.disableSync.2.stop }.flush

/-- Gives the clock up. -/
def close (r : Running) : Running := { r with clock := r.clock.close }.flush

/-- Lets time pass until a date, with a tick at every deadline on the way. A deadline that has passed
already is met a microsecond later. The fuel bounds the number of ticks. -/
def pass (date : UInt64) : Nat → Running → Running
  | 0, r => r
  | fuel + 1, r =>
    let now := r.clock.playhead.time.micros
    let deadline := max r.clock.nextDeadline (now + 1)
    if deadline ≤ date then
      let clock := tick (r.clock.moveTime (·.moveTo deadline))
      pass date fuel { r with clock }.flush
    else { r with clock := r.clock.moveTime (·.moveTo date) }

/-- Follows a course: waits, lets time pass, and reports when that is due. The fuel bounds the number
of waits. -/
def follow (course : Course) (json : Bool) (start : UInt64) :
    Nat → Nat → Nat → Running → Running
  | 0, _, _, r => r
  | fuel + 1, elapsed, lastReport, r =>
    if course.goesOn elapsed then
      let elapsed := elapsed + pollInterval
      let date := start + UInt64.ofNat (elapsed / 1000)
      let r := r.pass date (pollInterval / 1000 + 1)
      if course.reports (elapsed - lastReport) then
        follow course json start fuel elapsed elapsed (r.report json)
      else follow course json start fuel elapsed lastReport r
    else r

end Running

/-- The line on standard error when the program fails. -/
def failureLine (text : String) : Log.Delivery := .errors s!"Error: {text}"

/-- The number of waits in a course that comes to an end. -/
def Course.waits (c : Course) : Nat := (c.limit.getD 0 + pollInterval - 1) / pollInterval

/-- What a running clock does until the program ends. -/
def carryOn (a : Arguments) (r : Running) : Nat × Running :=
  match Course.ofArguments a with
  | .error text =>
    let r := r.close
    (1, { r with deliveries := r.deliveries ++ [failureLine text] })
  | .ok course =>
    let start := r.clock.playhead.time.micros
    (0, (r.follow course a.json start course.waits 0 0).stop.close)

/-- The session after the configuration was loaded. -/
def sessionWith (a : Arguments) (config : Config) (home : String) (before : List Log.Delivery)
    (files : Files) : Transcript :=
  let logger := Log.Logger.standalone.configure config.logging
  let greeted := before ++ (greeting home config.logging).flatMap logger.deliver
  let files := if logger.hasFile then
      (files.makeDirectories (FilePath.ofText (logDirectory home))).2
    else files
  match begin a config ⟨0⟩ with
  | .error fault => ⟨1, greeted ++ [failureLine fault.message], files⟩
  | .ok clock =>
    let (exitCode, r) := carryOn a (Running.flush ⟨clock, logger, greeted⟩)
    ⟨exitCode, r.deliveries, files⟩

/-- The session that some arguments lead to, with the files of a machine and its directory for
configurations. -/
def session (arguments : List String) (home : String) (files : Files) : Transcript :=
  match Arguments.parse arguments with
  | .error rejection => ⟨rejection.exitCode, [], files⟩
  | .ok a =>
    let loaded := load a home files
    let before := loaded.messages.flatMap Log.Logger.standalone.deliver
    match loaded.answer with
    | .error text => ⟨1, before ++ [failureLine text], loaded.files⟩
    | .ok config => sessionWith a config home before loaded.files

end Cadence.Program
