import Cadence.Conductor.Points
import Cadence.DriverLoop

/-!
# Moving the timeline and following a session

Tempo, meter and position as the whole clock changes them: with a log message, a notice to the
audience, and a word to the session where that concerns it.
-/

namespace Cadence.Conductor

variable {σ β : Type} [Transport σ]

/-- Makes a tempo change known: to the log, to the session while it is followed, and to the
audience. -/
def publishTempo (c : Conductor σ β) (bpm beat : Float) : Conductor σ β :=
  let said := s!"Tempo set to {Number.fixed 2 bpm} bpm at beat {Number.fixed 3 beat}"
  let (follower, outputs) := c.follower.propose bpm
  (({ c.say .info said with follower }).emitAll outputs).announce (.tempoChanged bpm beat)

/-- Changes the tempo now. -/
def setBpm (c : Conductor σ β) (bpm : Float) : Except Fault Unit × Conductor σ β :=
  match c.playhead.setBpm bpm with
  | .error fault => (.error fault, c)
  | .ok (beat, playhead) => (.ok (), { c with playhead }.publishTempo bpm beat)

/-- The beat at which the next bar starts. -/
def nextBar (c : Conductor σ β) : Float := c.playhead.nextBar .ratios

/-- Queues a tempo change at the next bar line, ahead of everything else there, and answers its
beat. -/
def setBpmAtNextBar (c : Conductor σ β) (bpm : Float) : Except Fault Float × Conductor σ β :=
  match checkTempo bpm with
  | .error fault => (.error fault, c)
  | .ok bpm =>
    let beat := c.nextBar
    match c.submit beat true (.tempo beat bpm) none with
    | (.error fault, c) => (.error fault, c)
    | (.ok _, c) => (.ok beat, c)

/-- Carries out a tempo change as of the beat that it was meant for. -/
def changeTempoAt (c : Conductor σ β) (beat bpm : Float) : Except Fault Unit × Conductor σ β :=
  match c.playhead.setBpmAt beat bpm with
  | .error fault => (.error fault, c)
  | .ok playhead => (.ok (), { c with playhead }.publishTempo bpm beat)

/-- Changes the meter. -/
def setMeter (c : Conductor σ β) (meter : Meter) : Conductor σ β :=
  ({ c with playhead := c.playhead.setMeter meter }.say .info s!"Meter set to {meter.text}").announce
    (.meterChanged meter)

/-- Jumps to a beat. What is queued was meant for the old timeline and is dropped. -/
def setTime (c : Conductor σ β) (beat : Float) : Except Fault Unit × Conductor σ β :=
  match c.playhead.setTime beat with
  | .error fault => (.error fault, c)
  | .ok playhead =>
    let c := ({ c with playhead }.clearQueue.2).clearAllPoints
    let c := { c with follower := c.follower.resetSchedule c.playhead }
    (.ok (), (c.say .info s!"Timeline moved to beat {Number.fixed 3 beat}").announce (.timeSet beat))

/-- Moves the timeline by a number of beats. -/
def shift (c : Conductor σ β) (beats : Float) : Except Fault Unit × Conductor σ β :=
  match checkBeat beats with
  | .error fault => (.error fault, c)
  | .ok beats => (.ok (), { c with playhead := c.playhead.shift beats }.wake)

/-- Drops every queued entry and resets every point. Following a session goes on. -/
def clear (c : Conductor σ β) : Conductor σ β :=
  let (dropped, c) := c.clearQueue
  (c.clearAllPoints.say .info s!"Cleared {dropped} queued entries").announce .cleared

/-- Takes over what an operation of the follower leaves behind. -/
def adopt {α : Type} (c : Conductor σ β) (o : Follower.Outcome σ α) : α × Conductor σ β :=
  (o.answer, { c with playhead := o.playhead, follower := o.follower }.emitAll o.outputs)

/-- Starts to follow the session, or changes how it is followed. -/
def enableSync (c : Conductor σ β) (offset interval : Float) :
    Except Fault SyncStatus × Conductor σ β :=
  match c.adopt (c.follower.enable c.playhead offset interval) with
  | (.error fault, c) => (.error fault, c)
  | (.ok status, c) => (.ok status, c.wake)

/-- Starts to follow the session with the configured offset and interval. -/
def enableConfiguredSync (c : Conductor σ β) : Except Fault SyncStatus × Conductor σ β :=
  c.enableSync c.follower.settings.phaseOffset c.follower.settings.resyncInterval

/-- Stops following the session, and answers whether it was followed. -/
def disableSync (c : Conductor σ β) : Bool × Conductor σ β :=
  c.adopt (c.follower.disable c.playhead)

/-- The state of the follower. -/
def syncStatus (c : Conductor σ β) : SyncStatus × Conductor σ β :=
  let (status, follower) := c.follower.status c.playhead
  (status, { c with follower })

/-- Reconciles with the session if that is due. -/
def reconcileIfDue (c : Conductor σ β) : Reconciliation × Conductor σ β :=
  c.adopt (c.follower.reconcileIfDue c.playhead)

/-- The date of the next thing to do, the last date of all if there is none. -/
def nextDeadline (c : Conductor σ β) : UInt64 :=
  [c.nextDue?, c.follower.nextResync?].filterMap id
    |>.map c.playhead.dateAtBeat
    |>.foldl min WallTime.never

/-- Attaches a driver loop, unless one is attached. -/
def start (c : Conductor σ β) : Conductor σ β :=
  if c.isRunning then c
  else
    let said := s!"Clock started at beat {Number.fixed 3 c.now}, {Number.fixed 2 c.bpm} bpm, "
      ++ c.playhead.meter.text
    let log := c.log ++ [DriverLoop.startedMessage c.playhead.time.micros, Log.say .info said]
    { c with driver := some [], log }

/-- Detaches the driver loop and waits for its end. What is queued stays queued. -/
def stop (c : Conductor σ β) : Conductor σ β :=
  if c.isRunning then
    let said := s!"Clock stopped at beat {Number.fixed 3 c.now}"
    let log := c.log ++ [DriverLoop.stoppedMessage, DriverLoop.joinedMessage, Log.say .info said]
    { c with driver := none, log }
  else c

/-- Gives the clock up. -/
def close (c : Conductor σ β) : Conductor σ β :=
  let c := c.stop
  c.say .debug s!"Clock dropped with {c.pending} entries queued"

end Cadence.Conductor
