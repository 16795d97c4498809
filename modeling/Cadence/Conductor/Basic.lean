import Cadence.Number.Ratio
import Cadence.Point.Resolve
import Cadence.Queue
import Cadence.Sync.Follower
import Cadence.Timing

/-!
# The conductor

The clock as a whole: the playhead, the queue, the points, the follower of a tempo session and the
audience. What an action does is left open: an action is a label and a body of any type, and
running the body is up to whoever ticks the clock.
-/

namespace Cadence

/-- Something to carry out at a beat. -/
structure Action (β : Type) where
  /-- What it is called in logs and notices. -/
  label : String
  /-- What it does. -/
  body : β
deriving Repr

/-- What a queued entry carries out. -/
inductive Task (β : Type) where
  /-- An action. -/
  | act (action : Action β)
  /-- An action of a point, as long as the token is alive. -/
  | actFor (token : Token) (action : Action β)
  /-- The next beat of a recurring point, as long as the token is alive. -/
  | rearm (token : Token) (beat : Float)
  /-- A tempo change at a bar line. -/
  | tempo (beat bpm : Float)
deriving Repr

/-- What a task is called. -/
def Task.label {β : Type} : Task β → String
  | .act action => action.label
  | .actFor _ action => action.label
  | .rearm token _ => s!"rearm {token.point.text}"
  | .tempo _ bpm => s!"tempo {Number.fixed 2 bpm}"

/-- A message to the driver loop. -/
inductive DriverSignal where
  /-- Something was queued ahead of what was due next. -/
  | wake
  /-- The loop is to end. -/
  | shutdown
deriving Repr, DecidableEq

/-- The clock as a whole, over a transport `σ` and bodies of actions `β`. -/
structure Conductor (σ β : Type) where
  /-- Where the clock stands. -/
  playhead : Playhead
  /-- What is to be carried out. -/
  queue : Queue (Task β)
  /-- The points in time. -/
  points : Points (Action β)
  /-- The follower of the tempo session. -/
  follower : Follower σ
  /-- Who listens to notices. -/
  audience : Audience
  /-- Every message logged so far that was not taken away. -/
  log : List Log.Message
  /-- The signals sent to the driver loop, while one is attached. -/
  driver : Option (List DriverSignal)

namespace Conductor

variable {σ β : Type}

/-- A clock that reads the configured beat now. Nobody listens and nothing is queued. -/
def create (config : Config) (time : WallTime) (session : σ) :
    Except Fault (Conductor σ β) := do
  let clock := config.clock
  let playhead ← Playhead.start time clock.tempo clock.meter clock.startBeat
  pure
    { playhead
      queue := .empty
      points := .empty
      follower := ⟨config.sync, session, none⟩
      audience := .empty
      log := []
      driver := none }

/-- Logs a message. -/
def say (c : Conductor σ β) (level : Log.Severity) (text : String) : Conductor σ β :=
  { c with log := c.log ++ [Log.say level text] }

/-- Sends a notice to the audience. -/
def announce (c : Conductor σ β) (notice : Notice) : Conductor σ β :=
  { c with audience := c.audience.send notice }

/-- Says one thing. -/
def emit (c : Conductor σ β) : Output → Conductor σ β
  | .logged message => { c with log := c.log ++ [message] }
  | .announced notice => c.announce notice

/-- Says several things in order. -/
def emitAll (c : Conductor σ β) (outputs : List Output) : Conductor σ β :=
  outputs.foldl emit c

/-- The current beat. -/
def now (c : Conductor σ β) : Float := c.playhead.now

/-- The tempo in force. -/
def bpm (c : Conductor σ β) : Float := c.playhead.bpm

/-- The number of queued entries. -/
def pending (c : Conductor σ β) : Nat := c.queue.size

/-- The beat of the entry that is due next. -/
def nextDue? (c : Conductor σ β) : Option Float := c.queue.nextDue?.map (·.value)

/-- A driver loop is attached. -/
def isRunning (c : Conductor σ β) : Bool := c.driver.isSome

/-- Wakes the driver loop, if one is attached. -/
def wake (c : Conductor σ β) : Conductor σ β :=
  { c with driver := c.driver.map (· ++ [.wake]) }

/-- Moves wall-clock time. -/
def moveTime (c : Conductor σ β) (move : WallTime → WallTime) : Conductor σ β :=
  { c with playhead := c.playhead.moveTime move }

/-! ### Scheduling -/

/-- Queues a task, and wakes the driver loop if it became the one due next. -/
def submit (c : Conductor σ β) (beat : Float) (priority : Bool) (task : Task β)
    (owner : Option PointId) : Except Fault EntryId × Conductor σ β :=
  match checkBeat beat with
  | .error fault => (.error fault, c)
  | .ok beat =>
    let (id, queue) := c.queue.submit (.ofFloat beat) priority task owner
    let queued := { c with queue }
    let leads := queued.nextDue?.any (· == beat)
    (.ok id, if leads then queued.wake else queued)

/-- Queues an action, possibly on behalf of a point. -/
def scheduleOwned (c : Conductor σ β) (beat : Float) (action : Action β)
    (owner : Option PointId) : Except Fault EntryId × Conductor σ β :=
  c.submit beat false (.act action) owner

/-- Queues an action at a beat. -/
def scheduleAt (c : Conductor σ β) (beat : Float) (action : Action β) :
    Except Fault EntryId × Conductor σ β :=
  c.scheduleOwned beat action none

/-- Queues an action ahead of everything else at its beat. -/
def schedulePriority (c : Conductor σ β) (beat : Float) (action : Action β) :
    Except Fault EntryId × Conductor σ β :=
  c.submit beat true (.act action) none

/-- Queues an action a number of beats from now. -/
def scheduleAfter (c : Conductor σ β) (beats : Float) (action : Action β) :
    Except Fault EntryId × Conductor σ β :=
  match checkBeat beats with
  | .error fault => (.error fault, c)
  | .ok beats => c.scheduleAt (c.now + beats) action

/-- Queues an action by its timing. -/
def schedule (c : Conductor σ β) (timing : Timing) (action : Action β) :
    Except Fault EntryId × Conductor σ β :=
  c.scheduleAt (timing.targetBeat .ratios c.playhead) action

/-- Queues an action after a span. -/
def scheduleIn (c : Conductor σ β) (span : Span) (action : Action β) :
    Except Fault EntryId × Conductor σ β :=
  c.scheduleAfter (span.toBeats c.playhead) action

/-- Queues one task of a batch, and adds its name to those of the tasks before it. -/
def queueNext (queued : List EntryId × Queue (Task β)) (entry : Float × Task β × Option PointId) :
    List EntryId × Queue (Task β) :=
  let (id, queue) := queued.2.push (.ofFloat entry.1) entry.2.1 entry.2.2
  (queued.1 ++ [id], queue)

/-- Queues the tasks with a finite beat, possibly on behalf of points, and wakes the driver loop if
there are any. The answer names what was queued. -/
def submitAll (c : Conductor σ β) (batch : List (Float × Task β × Option PointId)) :
    List EntryId × Conductor σ β :=
  let (ids, queue) := (batch.filter (·.1.isFinite)).foldl queueNext ([], c.queue)
  (ids, if ids.isEmpty then c else { c with queue }.wake)

/-- Queues the tasks of points that have a finite beat. -/
def submitBatch (c : Conductor σ β) (batch : List (Float × Task β × PointId)) :
    Conductor σ β :=
  (c.submitAll (batch.map fun entry => (entry.1, entry.2.1, some entry.2.2))).2

/-- Takes the entries of a point off the queue. -/
def cancel (c : Conductor σ β) (owner : PointId) : Nat × Conductor σ β :=
  let (count, queue) := c.queue.cancelOwner owner
  (count, { c with queue })

/-- Takes the entries of several points off the queue. -/
def cancelOwners (c : Conductor σ β) (owners : List PointId) : Nat × Conductor σ β :=
  let (count, queue) := c.queue.cancelOwners owners
  (count, { c with queue })

/-- Takes one entry off the queue, and answers whether it was queued. -/
def cancelEntry (c : Conductor σ β) (id : EntryId) : Bool × Conductor σ β :=
  let (found, queue) := c.queue.remove id
  (found, { c with queue })

/-- Takes everything off the queue. -/
def clearQueue (c : Conductor σ β) : Nat × Conductor σ β :=
  let (count, queue) := c.queue.clear
  (count, { c with queue })

end Conductor

end Cadence
