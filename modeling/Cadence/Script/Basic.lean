import Cadence.Conductor.Tick

/-!
# Scripts

A script is a list of steps for a clock whose time stands still unless a step moves it, together
with what the steps ask and what they are answered. The actions that a script schedules are routines:
they are scripts themselves and can fail in the end. So a script can say everything that a program
can do to a clock, from outside as well as from within an action.
-/

namespace Cadence.Script

/-- A question about the clock. Asking it changes nothing. -/
inductive Question where
  /-- The current date. -/
  | date
  /-- The date at which a beat is reached. -/
  | dateAtBeat (beat : Float)
  /-- The microseconds until a beat. -/
  | microsUntil (beat : Float)
  /-- The length of a number of beats in microseconds. -/
  | beatsToMicros (beats : Float)
  /-- The number of beats in a number of microseconds. -/
  | microsToBeats (micros : UInt64)
  /-- The length of a number of beats in seconds. -/
  | beatsToSeconds (beats : Float)
  /-- The number of beats in a number of seconds. -/
  | secondsToBeats (seconds : Float)
  /-- The length of a bar. -/
  | barLength
  /-- The length of a number of bars. -/
  | bars (count : Float)
  /-- The beat of the next bar line. -/
  | nextBar
  /-- The next beat that lies an offset after a multiple of a period. -/
  | nextMultiple (period offset : Float)
  /-- The meter. -/
  | meter
  /-- The state of the queue. -/
  | queue
  /-- When an action with a timing would be due. -/
  | timing (timing : Timing)
  /-- How long a span is. -/
  | span (span : Span)
  /-- Whether two points are the same. -/
  | samePoint (a b : PointId)
  /-- The debugging view of a point. -/
  | debugPoint (id : PointId)
  /-- Every point that the script knows. -/
  | points
deriving Repr

/-- A change of the playhead alone, of which nobody is told. -/
inductive PlayheadChange where
  /-- Another tempo from now on. -/
  | bpm (bpm : Float)
  /-- Another tempo from a beat on. -/
  | bpmAt (beat bpm : Float)
  /-- A jump to a beat. -/
  | time (beat : Float)
  /-- A move of the timeline. -/
  | shift (beats : Float)
  /-- Another meter. -/
  | meter (numerator denominator : UInt32)
deriving Repr

/-- How a routine ends. -/
inductive Ending where
  /-- It succeeds. -/
  | success
  /-- It breaks off, saying something or not. -/
  | panicked (message : Option String)
  /-- It fails, for reasons given from the outermost context to the cause. -/
  | refused (chain : List String)
deriving Repr

/-- The reason that a routine failed for, if it did. -/
def Ending.result : Ending → Except String Unit
  | .success => .ok ()
  | .panicked none => .error "panicked"
  | .panicked (some message) => .error s!"panicked: {message}"
  | .refused chain => .error (": ".intercalate chain)

mutual

/-- One step of a script. -/
inductive Step where
  /-- Asks a question. -/
  | ask (question : Question)
  /-- Moves time on by microseconds. -/
  | advance (micros : UInt64)
  /-- Moves time on by seconds and nanoseconds. -/
  | advanceBy (seconds nanoseconds : Nat)
  /-- Moves time forward to a date. -/
  | moveTo (date : UInt64)
  /-- Moves time forward to the date of a beat. -/
  | goTo (beat : Float)
  /-- Ticks. -/
  | tick
  /-- Moves time forward to the date of a beat and ticks. -/
  | goToTick (beat : Float)
  /-- Goes on to a beat, ticking at every multiple of a step on the way and at the end. -/
  | run (goal step : Float)
  /-- Changes the playhead alone. -/
  | playhead (change : PlayheadChange)
  /-- Changes the tempo. -/
  | setBpm (bpm : Float)
  /-- Queues a tempo change at the next bar line. -/
  | setBpmAtNextBar (bpm : Float)
  /-- Changes the meter. -/
  | setMeter (numerator denominator : UInt32)
  /-- Jumps to a beat. -/
  | setTime (beat : Float)
  /-- Moves the timeline. -/
  | shift (beats : Float)
  /-- Queues an action at a beat. -/
  | scheduleAt (beat : Float) (action : ActionRef)
  /-- Queues an action some beats from now. -/
  | scheduleAfter (beats : Float) (action : ActionRef)
  /-- Queues an action by its timing. -/
  | schedule (timing : Timing) (action : ActionRef)
  /-- Queues an action after a span. -/
  | scheduleIn (span : Span) (action : ActionRef)
  /-- Queues an action ahead of everything at its beat. -/
  | schedulePriority (beat : Float) (action : ActionRef)
  /-- Queues an action at a beat, possibly on behalf of a point. -/
  | scheduleOwned (beat : Float) (action : ActionRef) (owner : Option PointId)
  /-- Runs an action every so many beats. -/
  | every (period : Float) (action : ActionRef)
  /-- Takes the entries of a point off the queue. -/
  | cancel (id : PointId)
  /-- Takes the entries of several points off the queue. -/
  | cancelOwners (ids : List PointId)
  /-- Takes an entry off the queue. -/
  | cancelEntry (id : EntryId)
  /-- Drops every entry and resets every point. -/
  | clear
  /-- Drops every entry. -/
  | clearQueue
  /-- Creates a point that takes one beat, or one that takes any number of beats. -/
  | createPoint (kind : PointKind)
  /-- Creates a point that moves on by a period. -/
  | recurringPoint (period : Float)
  /-- Creates a point computed from others. -/
  | combine (derivation : Derivation)
  /-- Combines a point with the first point of another clock. -/
  | combineForeign (id : PointId)
  /-- Binds a point to a beat. -/
  | bind (id : PointId) (beat : Float)
  /-- Attaches an action to a point. -/
  | addAction (id : PointId) (action : ActionRef)
  /-- Resets a point and what is derived from it. -/
  | clearPoint (id : PointId)
  /-- Resets every point. -/
  | clearAllPoints
  /-- Asks for the debugging view of an action. -/
  | debugAction (action : ActionRef)
  /-- Changes the partner of the rehearsal. -/
  | steer (steering : Steering)
  /-- Starts to follow the session. -/
  | enableSync (offset interval : Float)
  /-- Starts to follow the session as configured. -/
  | enableConfiguredSync
  /-- Stops following the session. -/
  | disableSync
  /-- Asks for the state of the follower. -/
  | status
  /-- Prints the state of the clock, or logs it. -/
  | report (json : Bool)
  /-- Carries out steps while a driver loop ticks, and waits until nothing queued is due. Nothing is
  logged meanwhile. -/
  | drive (steps : List Step)
  /-- Stands for something that is no step, with a remark on it. -/
  | unclear (remark : Option String)

/-- An action of a script. -/
inductive ActionRef where
  /-- The routine of a given name, which is looked up when the step is carried out. -/
  | named (name : String)
  /-- A routine on the spot. -/
  | inline (routine : Routine)
  /-- Something that is no action. -/
  | unclear

/-- What an action of a script does: it carries out steps, if it has any, and comes to its end. -/
inductive Routine where
  /-- A routine of a label, its steps and its end. -/
  | mk (label : String) (steps : Option (List Step)) (ending : Ending)

end

/-- What a routine is called. -/
def Routine.label : Routine → String
  | .mk label _ _ => label

/-- What a routine is called when nobody says otherwise. -/
def Routine.defaultLabel : String := "action"

/-- A point as a script sees it. -/
structure PointView where
  /-- Its name. -/
  id : PointId
  /-- Its state. -/
  node : PointNode (Action Routine)
  /-- What is derived from it. -/
  descendants : List PointId

/-- Why a step was not carried out. -/
inductive Trouble where
  /-- The clock refused. -/
  | fault (fault : Fault)
  /-- The script knows no such point. -/
  | unknownPoint (id : PointId)
  /-- Two numbers were to be combined. -/
  | noPoint
  /-- A point was to be combined with one of another clock. -/
  | foreignPoint (id other : PointId)
  /-- The settings of the follower gave no bounds for a correction. -/
  | unbounded
  /-- The step or its action is none. -/
  | unclear (remark : Option String)
deriving Repr

/-- What there is to say about a trouble. -/
def Trouble.message? : Trouble → Option String
  | .fault f => some f.message
  | .unknownPoint id => some s!"no point {id.index}"
  | .noPoint => some "combine"
  | .foreignPoint id other =>
    some s!"cannot combine points {id.text} and {other.text} from different clocks"
  | .unbounded => none
  | .unclear remark => remark

/-- The answer to a step. -/
inductive Reply where
  /-- Nothing to say. -/
  | done
  /-- A number. -/
  | number (x : Float)
  /-- Several numbers. -/
  | numbers (xs : List Float)
  /-- A count. -/
  | count (n : Nat)
  /-- Yes or no. -/
  | flag (yes : Bool)
  /-- A text. -/
  | text (text : String)
  /-- A queued entry. -/
  | entry (id : EntryId)
  /-- A point. -/
  | point (id : PointId)
  /-- The report of a tick. -/
  | report (report : TickReport)
  /-- How many ticks there were, and how many entries ran and failed in them. -/
  | ran (ticks fired failed : Nat)
  /-- The state of the follower. -/
  | status (status : SyncStatus)
  /-- The partner. -/
  | partner (partner : Partner)
  /-- The length of the queue and the beat that is due next. -/
  | queue (size : Nat) (next : Option Float)
  /-- The beat an action is due at, and the microseconds until then. -/
  | timing (beat : Float) (remaining : UInt64)
  /-- A span in beats and in microseconds. -/
  | span (beats : Float) (micros : UInt64)
  /-- Points, and how many were ever created. -/
  | points (views : List PointView) (size : Nat)
  /-- Lines that were printed. -/
  | lines (lines : List String)
  /-- Whether a driver loop was attached before, meanwhile and afterwards, and what the steps were
  answered. -/
  | driven (running : List Bool) (outcomes : List (Except Trouble Reply))

/-- What came of a step. -/
abbrev Outcome : Type := Except Trouble Reply

/-- What a script notes about the routines that ran. -/
inductive Happening where
  /-- A routine began, at a beat and a tempo. -/
  | began (label : String) (beat bpm : Float)
  /-- A routine got through its steps. -/
  | finished (label : String) (outcomes : List Outcome)

/-- What a script keeps beside the clock. -/
structure Notebook where
  /-- The named routines. -/
  routines : List (String × Routine)
  /-- The points that steps were answered. -/
  known : List PointId
  /-- What happened since this was last read. -/
  happenings : List Happening

/-- A clock with the notebook of the script that plays on it. -/
abbrev Stage : Type := Conductor Rehearsal Routine × Notebook

end Cadence.Script
