import Cadence.Conductor.Tick

/-!
# The operations of the clock

Everything that somebody can do to a clock, from outside or from within an action, as one type. A run
of the clock is a sequence of such operations and of the passes of its ticks.
-/

namespace Cadence

/-- An operation of the clock. -/
inductive Operation (σ β : Type) where
  /-- Moves wall-clock time on by microseconds. -/
  | advance (micros : UInt64)
  /-- Moves wall-clock time on by seconds and nanoseconds. -/
  | advanceBy (seconds nanoseconds : Nat)
  /-- Moves wall-clock time forward to a date. -/
  | moveTo (date : UInt64)
  /-- Changes the tempo of the playhead alone. -/
  | playheadBpm (bpm : Float)
  /-- Changes the tempo of the playhead alone, as of a beat. -/
  | playheadBpmAt (beat bpm : Float)
  /-- Moves the playhead alone to a beat. -/
  | playheadTime (beat : Float)
  /-- Moves the playhead alone by beats. -/
  | playheadShift (beats : Float)
  /-- Changes the meter of the playhead alone. -/
  | playheadMeter (meter : Meter)
  /-- Changes the tempo. -/
  | setBpm (bpm : Float)
  /-- Queues a tempo change at the next bar line. -/
  | setBpmAtNextBar (bpm : Float)
  /-- Changes the meter. -/
  | setMeter (meter : Meter)
  /-- Jumps to a beat. -/
  | setTime (beat : Float)
  /-- Moves the timeline. -/
  | shift (beats : Float)
  /-- Queues an action at a beat. -/
  | scheduleAt (beat : Float) (action : Action β)
  /-- Queues an action some beats from now. -/
  | scheduleAfter (beats : Float) (action : Action β)
  /-- Queues an action by its timing. -/
  | schedule (timing : Timing) (action : Action β)
  /-- Queues an action after a span. -/
  | scheduleIn (span : Span) (action : Action β)
  /-- Queues an action ahead of everything at its beat. -/
  | schedulePriority (beat : Float) (action : Action β)
  /-- Queues an action at a beat, possibly on behalf of a point. -/
  | scheduleOwned (beat : Float) (action : Action β) (owner : Option PointId)
  /-- Runs an action every so many beats. -/
  | every (period : Float) (action : Action β)
  /-- Takes the entries of a point off the queue. -/
  | cancel (id : PointId)
  /-- Takes the entries of several points off the queue. -/
  | cancelOwners (ids : List PointId)
  /-- Takes an entry off the queue. -/
  | cancelEntry (id : EntryId)
  /-- Drops every entry. -/
  | clearQueue
  /-- Drops every entry and resets every point. -/
  | clear
  /-- Creates a point that is not derived. -/
  | createPoint (kind : PointKind)
  /-- Creates a point that moves on by a period. -/
  | recurringPoint (period : Float)
  /-- Creates a point computed from others. -/
  | derivePoint (derivation : Derivation)
  /-- Binds a point to a beat. -/
  | bind (id : PointId) (beat : Float)
  /-- Attaches an action to a point. -/
  | addAction (id : PointId) (action : Action β)
  /-- Resets a point and what is derived from it. -/
  | clearPoint (id : PointId)
  /-- Resets every point. -/
  | clearAllPoints
  /-- Starts to follow the session. -/
  | enableSync (offset interval : Float)
  /-- Starts to follow the session as configured. -/
  | enableConfiguredSync
  /-- Stops following the session. -/
  | disableSync
  /-- Asks for the state of the follower. -/
  | syncStatus
  /-- Reconciles with the session if that is due. -/
  | reconcile
  /-- Attaches a driver loop. -/
  | start
  /-- Detaches the driver loop. -/
  | stop
  /-- Gives the clock up. -/
  | close
  /-- What happens around the clock: the session changes, listeners come, read and go, and log
  messages are written or taken away. -/
  | outside (session : σ) (audience : Audience) (log : List Log.Message)

namespace Operation

variable {σ β : Type}

/-- The points that an operation refers to were created. A derivation is the only operation that
needs that: its operands are handles that the clock gave out. -/
def Permitted (op : Operation σ β) (c : Conductor σ β) : Prop :=
  match op with
  | .derivePoint d => ∀ id ∈ d.points, id.index < c.points.size
  | _ => True

/-- The playhead after a change, or as it was if the change is refused. -/
def accepted (c : Conductor σ β) (changed : Except Fault Playhead) : Conductor σ β :=
  match changed with
  | .ok playhead => { c with playhead }
  | .error _ => c

variable [Transport σ]

/-- The clock after an operation. -/
def apply (op : Operation σ β) (c : Conductor σ β) : Conductor σ β :=
  match op with
  | .advance micros => c.moveTime (·.advanceMicros micros)
  | .advanceBy seconds nanoseconds => c.moveTime (·.advance seconds nanoseconds)
  | .moveTo date => c.moveTime (·.moveTo date)
  | .playheadBpm bpm => accepted c ((c.playhead.setBpm bpm).map (·.2))
  | .playheadBpmAt beat bpm => accepted c (c.playhead.setBpmAt beat bpm)
  | .playheadTime beat => accepted c (c.playhead.setTime beat)
  | .playheadShift beats => { c with playhead := c.playhead.shift beats }
  | .playheadMeter meter => { c with playhead := c.playhead.setMeter meter }
  | .setBpm bpm => (c.setBpm bpm).2
  | .setBpmAtNextBar bpm => (c.setBpmAtNextBar bpm).2
  | .setMeter meter => c.setMeter meter
  | .setTime beat => (c.setTime beat).2
  | .shift beats => (c.shift beats).2
  | .scheduleAt beat action => (c.scheduleAt beat action).2
  | .scheduleAfter beats action => (c.scheduleAfter beats action).2
  | .schedule timing action => (c.schedule timing action).2
  | .scheduleIn span action => (c.scheduleIn span action).2
  | .schedulePriority beat action => (c.schedulePriority beat action).2
  | .scheduleOwned beat action owner => (c.scheduleOwned beat action owner).2
  | .every period action => (c.every period action).2
  | .cancel id => (c.cancel id).2
  | .cancelOwners ids => (c.cancelOwners ids).2
  | .cancelEntry id => (c.cancelEntry id).2
  | .clearQueue => c.clearQueue.2
  | .clear => c.clear
  | .createPoint kind => (c.createPoint kind).2
  | .recurringPoint period => (c.recurringPoint period).2
  | .derivePoint d => (c.derivePoint d).2
  | .bind id beat => (c.bind id beat).2
  | .addAction id action => c.addAction id action
  | .clearPoint id => (c.clearPoint id).2
  | .clearAllPoints => c.clearAllPoints
  | .enableSync offset interval => (c.enableSync offset interval).2
  | .enableConfiguredSync => c.enableConfiguredSync.2
  | .disableSync => c.disableSync.2
  | .syncStatus => c.syncStatus.2
  | .reconcile => c.reconcileIfDue.2
  | .start => c.start
  | .stop => c.stop
  | .close => c.close
  | .outside session audience log =>
    { c with follower := { c.follower with session }, audience, log }

end Operation

end Cadence
