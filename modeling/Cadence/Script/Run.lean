import Cadence.Conductor.View
import Cadence.Json.Codec
import Cadence.Script.Basic

/-!
# Carrying scripts out

What each step does to the clock, and what it is answered. A step that is refused leaves the clock
as it was, and the next one goes on from there.
-/

namespace Cadence.Script

/-- Takes over a clock that answers a reply. -/
def Stage.reply (s : Stage) (c : Conductor Rehearsal Routine) (reply : Reply) : Outcome × Stage :=
  (.ok reply, (c, s.2))

/-- Takes over a clock that answers, or refuses. -/
def Stage.adopt {α : Type} (s : Stage) (read : α → Reply)
    (answer : Except Fault α × Conductor Rehearsal Routine) : Outcome × Stage :=
  match answer with
  | (.ok a, c) => (.ok (read a), (c, s.2))
  | (.error fault, c) => (.error (.fault fault), (c, s.2))

/-- Takes over a clock that created a point, which the script knows from now on. -/
def Stage.adoptPoint (s : Stage) (answer : Except Fault PointId × Conductor Rehearsal Routine) :
    Outcome × Stage :=
  match answer with
  | (.ok id, c) => (.ok (.point id), (c, { s.2 with known := s.2.known ++ [id] }))
  | (.error fault, c) => (.error (.fault fault), (c, s.2))

/-- Goes on only if the script knows a point. -/
def Stage.withPoint (s : Stage) (id : PointId) (next : Outcome × Stage) : Outcome × Stage :=
  if id ∈ s.2.known then next else (.error (.unknownPoint id), s)

/-- Goes on with an action, if there is one. -/
def Stage.withAction (s : Stage) (ref : ActionRef) (next : Action Routine → Outcome × Stage) :
    Outcome × Stage :=
  let routine := match ref with
    | .named name => s.2.routines.lookup name
    | .inline routine => some routine
    | .unclear => none
  match routine with
  | some routine => next ⟨routine.label, routine⟩
  | none => (.error (.unclear none), s)

/-- Queues an action, if there is one. -/
def Stage.submit (s : Stage) (ref : ActionRef)
    (submit : Action Routine → Except Fault EntryId × Conductor Rehearsal Routine) :
    Outcome × Stage :=
  s.withAction ref fun action => s.adopt .entry (submit action)

/-- The points that the script knows. -/
def Stage.views (s : Stage) : List PointView :=
  s.2.known.filterMap fun id =>
    (s.1.points.node? id).map fun node => ⟨id, node, s.1.points.descendants id⟩

/-- Answers a question. -/
def Stage.answer (s : Stage) : Question → Outcome
  | .date => .ok (.count s.1.playhead.time.micros.toNat)
  | .dateAtBeat beat => .ok (.count (s.1.playhead.dateAtBeat beat).toNat)
  | .microsUntil beat => .ok (.count (s.1.playhead.microsUntil beat).toNat)
  | .beatsToMicros beats => .ok (.count (s.1.playhead.beatsToMicros beats).toNat)
  | .microsToBeats micros => .ok (.number (s.1.playhead.microsToBeats micros))
  | .beatsToSeconds beats => .ok (.number (s.1.playhead.beatsToSeconds beats))
  | .secondsToBeats seconds => .ok (.number (s.1.playhead.secondsToBeats seconds))
  | .barLength => .ok (.number s.1.playhead.barLength)
  | .bars count => .ok (.number (s.1.playhead.bars count))
  | .nextBar => .ok (.numbers [s.1.nextBar, s.1.nextBar])
  | .nextMultiple period offset => .ok (.number (s.1.playhead.nextMultiple .ratios period offset))
  | .meter => .ok (.text s.1.playhead.meter.text)
  | .queue => .ok (.queue s.1.pending s.1.nextDue?)
  | .timing timing =>
    .ok (.timing (timing.targetBeat .ratios s.1.playhead) (timing.remaining .ratios s.1.playhead))
  | .span span => .ok (.span (span.toBeats s.1.playhead) (span.toMicros s.1.playhead))
  | .samePoint a b =>
    if a ∉ s.2.known then .error (.unknownPoint a)
    else if b ∉ s.2.known then .error (.unknownPoint b)
    else .ok (.flag (a = b))
  | .debugPoint id =>
    if id ∈ s.2.known then .ok (.text (s.1.debugPoint id)) else .error (.unknownPoint id)
  | .points => .ok (.points s.views s.1.points.size)

/-- Changes the playhead alone. -/
def changePlayhead (p : Playhead) : PlayheadChange → Except Fault (Reply × Playhead)
  | .bpm bpm => do
    let (beat, p) ← p.setBpm bpm
    pure (.number beat, p)
  | .bpmAt beat bpm => do pure (.done, ← p.setBpmAt beat bpm)
  | .time beat => do pure (.done, ← p.setTime beat)
  | .shift beats => .ok (.done, p.shift beats)
  | .meter numerator denominator => do
    pure (.done, p.setMeter (← Meter.make numerator denominator))

/-- Ticks, unless there are no bounds for a correction. -/
def Stage.tick (perform : Performer Rehearsal Routine Notebook) (s : Stage) :
    Except Trouble TickReport × Stage :=
  match Conductor.tick perform s with
  | (some report, s) => (.ok report, s)
  | (none, s) => (.error .unbounded, s)

/-- Moves time forward to the date of a beat. -/
def Stage.goTo (s : Stage) (beat : Float) : Stage :=
  (s.1.moveTime (·.moveTo (s.1.playhead.dateAtBeat beat)), s.2)

/-- Moves time forward to the date of a beat and ticks. -/
def Stage.goToTick (perform : Performer Rehearsal Routine Notebook) (s : Stage) (beat : Float) :
    Except Trouble TickReport × Stage :=
  (s.goTo beat).tick perform

/-- The largest number of ticks in one run. -/
def maxTicks : Nat := 1000

/-- Ticks at every multiple of a step up to a beat, and there. The fuel is the number of ticks that
are left. -/
def Stage.runFrom (perform : Performer Rehearsal Routine Notebook) (goal step : Float) :
    Nat → Float → Nat × Nat × Nat → Stage → Outcome × Stage
  | 0, _, (ticks, fired, failed), s => (.ok (.ran ticks fired failed), s)
  | fuel + 1, beat, (ticks, fired, failed), s =>
    if beat < goal then
      let next := Number.smaller ((Number.floor (beat / step) + 1.0) * step) goal
      match s.goToTick perform next with
      | (.ok report, s) =>
        Stage.runFrom perform goal step fuel next
          (ticks + 1, fired + report.fired, failed + report.failures.length) s
      | (.error trouble, s) => (.error trouble, s)
    else (.ok (.ran ticks fired failed), s)

/-- Ticks until nothing queued is due, as long as a driver loop is attached. The fuel bounds the number
of ticks. -/
def Stage.settle (perform : Performer Rehearsal Routine Notebook) : Nat → Stage → Stage
  | 0, s => s
  | fuel + 1, s =>
    if s.1.isRunning && s.1.hasDue then
      match s.tick perform with
      | (.ok _, s) => Stage.settle perform fuel s
      | (.error _, s) => s
    else s

/-- Logs the state of the clock, or answers it as a line to be printed. -/
def Stage.report (s : Stage) (json : Bool) : Outcome × Stage :=
  let (status, c) := s.1.syncStatus
  if json then s.reply c (.lines [Json.Format.compact.write status])
  else s.reply (c.say .info (c.statusLine status)) (.lines [])

/-- Creates a point computed from others, all of which the script has to know. -/
def Stage.combine (s : Stage) (d : Derivation) : Outcome × Stage :=
  match d.points.find? (· ∉ s.2.known), d.points with
  | some id, _ => (.error (.unknownPoint id), s)
  | none, [] => (.error .noPoint, s)
  | none, _ =>
    match s.1.derivePoint d with
    | (.ok id, c) => s.adoptPoint (.ok id, c)
    | (.error id, c) => (.error (.unknownPoint id), (c, s.2))

/-- Takes the steps of a script one after another. -/
abbrev Player : Type := List Step → Stage → List Outcome × Stage

/-- Runs a routine: notes that it began, takes its steps, notes what came of them, and ends. -/
def performWith (play : Player) : Performer Rehearsal Routine Notebook
  | .mk label steps ending, s =>
    let note (s : Stage) (happening : Happening) : Stage :=
      (s.1, { s.2 with happenings := s.2.happenings ++ [happening] })
    let s := note s (.began label s.1.now s.1.bpm)
    let s := match steps with
      | none => s
      | some steps =>
        let (outcomes, s) := play steps s
        note s (.finished label outcomes)
    (ending.result, s)

/-- Takes steps while a driver loop is attached, and waits until nothing queued is due. What is
logged meanwhile is not kept. -/
def Stage.drive (play : Player) (s : Stage) (steps : List Step) : Outcome × Stage :=
  let log := s.1.log
  let before := s.1.isRunning
  let c := s.1.start.start
  let between := c.isRunning
  let (outcomes, s) := play steps (c, s.2)
  let s := s.settle (performWith play) maxTicks
  let c := s.1.stop.stop
  (.ok (.driven [before, between, c.isRunning] outcomes), ({ c with log }, s.2))

/-- Takes one step. How the steps within it are taken is given. -/
def Stage.step (play : Player) (s : Stage) (step : Step) : Outcome × Stage :=
  let c := s.1
  let perform := performWith play
  match step with
  | .ask question => (s.answer question, s)
  | .advance micros => s.reply (c.moveTime (·.advanceMicros micros)) .done
  | .advanceBy seconds nanoseconds =>
    s.reply (c.moveTime (·.advance seconds nanoseconds)) .done
  | .moveTo date => s.reply (c.moveTime (·.moveTo date)) .done
  | .goTo beat => (.ok .done, s.goTo beat)
  | .tick =>
    let (answer, s) := s.tick perform
    (answer.map .report, s)
  | .goToTick beat =>
    let (answer, s) := s.goToTick perform beat
    (answer.map .report, s)
  | .run goal step => s.runFrom perform goal step maxTicks c.now (0, 0, 0)
  | .playhead change =>
    match changePlayhead c.playhead change with
    | .ok (reply, playhead) => s.reply { c with playhead } reply
    | .error fault => (.error (.fault fault), s)
  | .setBpm bpm => s.adopt (fun _ => .done) (c.setBpm bpm)
  | .setBpmAtNextBar bpm => s.adopt .number (c.setBpmAtNextBar bpm)
  | .setMeter numerator denominator =>
    match Meter.make numerator denominator with
    | .ok meter => s.reply (c.setMeter meter) .done
    | .error fault => (.error (.fault fault), s)
  | .setTime beat => s.adopt (fun _ => .done) (c.setTime beat)
  | .shift beats => s.adopt (fun _ => .done) (c.shift beats)
  | .scheduleAt beat action => s.submit action (c.scheduleAt beat)
  | .scheduleAfter beats action => s.submit action (c.scheduleAfter beats)
  | .schedule timing action => s.submit action (c.schedule timing)
  | .scheduleIn span action => s.submit action (c.scheduleIn span)
  | .schedulePriority beat action => s.submit action (c.schedulePriority beat)
  | .scheduleOwned beat action owner => s.submit action (c.scheduleOwned beat · owner)
  | .every period action => s.withAction action fun action => s.adoptPoint (c.every period action)
  | .cancel id => s.withPoint id <|
    let (count, c) := c.cancel id
    s.reply c (.count count)
  | .cancelOwners ids =>
    let (count, c) := c.cancelOwners ids
    s.reply c (.count count)
  | .cancelEntry id =>
    let (found, c) := c.cancelEntry id
    s.reply c (.flag found)
  | .clear => s.reply c.clear .done
  | .clearQueue =>
    let (count, c) := c.clearQueue
    s.reply c (.count count)
  | .createPoint kind =>
    let (id, c) := c.createPoint kind
    s.adoptPoint (.ok id, c)
  | .recurringPoint period => s.adoptPoint (c.recurringPoint period)
  | .combine derivation => s.combine derivation
  | .combineForeign id => s.withPoint id (.error (.foreignPoint id ⟨0⟩), s)
  | .bind id beat => s.withPoint id (s.adopt (fun _ => .done) (c.bind id beat))
  | .addAction id action =>
    s.withPoint id (s.withAction action fun action => s.reply (c.addAction id action) .done)
  | .clearPoint id => s.withPoint id <|
    let (count, c) := c.clearPoint id
    s.reply c (.count count)
  | .clearAllPoints => s.reply c.clearAllPoints .done
  | .debugAction action => s.withAction action fun action => (.ok (.text action.debugView), s)
  | .steer steering =>
    let session := c.follower.session.steer steering
    s.reply { c with follower := { c.follower with session } } (.partner session.partner)
  | .enableSync offset interval => s.adopt .status (c.enableSync offset interval)
  | .enableConfiguredSync => s.adopt .status c.enableConfiguredSync
  | .disableSync =>
    let (followed, c) := c.disableSync
    s.reply c (.flag followed)
  | .status =>
    let (status, c) := c.syncStatus
    s.reply c (.status status)
  | .report json => s.report json
  | .drive steps => s.drive play steps
  | .unclear remark => (.error (.unclear remark), s)

/-- Takes steps one after another, and collects what comes of them. -/
def takeEach (step : Stage → Step → Outcome × Stage) (steps : List Step) (s : Stage) :
    List Outcome × Stage :=
  steps.foldl (fun (outcomes, s) next =>
    let (outcome, s) := step s next
    (outcomes ++ [outcome], s)) ([], s)

/-- Takes the steps of a script. The depth bounds how often a routine that is running can tick and
so run another one: beyond it no step is taken any more. -/
def play (depth : Nat) : Player := fun steps s =>
  match depth with
  | 0 => ([], s)
  | depth + 1 => takeEach (Stage.step (play depth)) steps s

/-- How deep routines can run within each other. -/
def maxDepth : Nat := 1000

/-- Takes one step of a script. -/
def Stage.next (s : Stage) (step : Step) : Outcome × Stage := s.step (play maxDepth) step

/-- What a script was told since this was last read. -/
structure Account where
  /-- The routines that ran. -/
  happenings : List Happening
  /-- The notices that were sent. -/
  notices : List Notice
  /-- The messages that were logged. -/
  messages : List Log.Message

/-- Reads what the script was told, and forgets it. -/
def Stage.collect (s : Stage) : Account × Stage :=
  let (notices, audience) := s.1.audience.drain 0
  (⟨s.2.happenings, notices.getD [], s.1.log⟩,
    ({ s.1 with audience, log := [] }, { s.2 with happenings := [] }))

/-- A clock for a script, which listens to its notices. -/
def Stage.start (config : Config) (time : WallTime) (session : Rehearsal)
    (routines : List (String × Routine)) : Except Fault Stage := do
  let c : Conductor Rehearsal Routine ← Conductor.create config time session
  pure ({ c with audience := c.audience.subscribe.2 }, ⟨routines, [], []⟩)

end Cadence.Script
