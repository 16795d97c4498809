import Cadence.Conductor.Transport

/-!
# Ticks

One turn of the driver loop. A tick reconciles with the session if that is due, and then runs the
entries that are due, pass after pass: what the actions of one pass queue for a beat already
reached runs in the next pass of the same tick. The number of passes is limited, so a tick ends
whatever the actions do. A failing action is reported and does not stop the tick.

What an action does is given by a performer, which acts on the clock and on the state of the
program around it.
-/

namespace Cadence

/-- What one tick did. -/
structure TickReport where
  /-- The beat that the last pass measured. -/
  beat : Float
  /-- How many entries ran without failing. -/
  fired : Nat
  /-- One fault for each entry that failed, in the order they ran. -/
  failures : List Fault
deriving Repr, DecidableEq

/-- The largest number of passes in one tick. -/
def TickReport.maxPasses : Nat := 32

/-- Runs the body of an action on the clock and on the program around it. The error is the reason
why it failed. -/
def Performer (σ β ω : Type) : Type :=
  β → Conductor σ β × ω → Except String Unit × (Conductor σ β × ω)

namespace Conductor

variable {σ β ω : Type} [Transport σ]

/-- Carries out a task. A task whose token is dead does nothing, successfully. -/
def runTask (perform : Performer σ β ω) (task : Task β) (s : Conductor σ β × ω) :
    Except String Unit × (Conductor σ β × ω) :=
  match task with
  | .act action => perform action.body s
  | .actFor token action => if s.1.points.isLive token then perform action.body s else (.ok (), s)
  | .rearm token beat =>
    if s.1.points.isLive token then (.ok (), (s.1.rearm token beat, s.2)) else (.ok (), s)
  | .tempo beat bpm =>
    match s.1.changeTempoAt beat bpm with
    | (.error fault, c) => (.error fault.message, (c, s.2))
    | (.ok (), c) => (.ok (), (c, s.2))

/-- The fault that a failed entry is reported with. -/
def failureOf (entry : Entry (Task β)) (reason : String) : Fault :=
  .actionFailed entry.task.label entry.dueBeat reason

/-- Makes a failure known, to the audience and to the log. The log also names the owner. -/
def reportFailure (c : Conductor σ β) (entry : Entry (Task β)) (reason : String) :
    Conductor σ β :=
  let owner := match entry.owner with
    | some id => s!" (owned by {id.text})"
    | none => ""
  let c := c.announce (.actionFailed entry.task.label entry.dueBeat reason)
  { c with log := c.log ++
      [⟨.error, some entry.dueBeat, (failureOf entry reason).message ++ owner⟩] }

/-- Runs one entry and adds it to the report. -/
def runEntry (perform : Performer σ β ω) (entry : Entry (Task β))
    (state : TickReport × (Conductor σ β × ω)) : TickReport × (Conductor σ β × ω) :=
  let (report, s) := state
  match runTask perform entry.task s with
  | (.ok (), s) => ({ report with fired := report.fired + 1 }, s)
  | (.error reason, (c, outside)) =>
    ({ report with failures := report.failures ++ [failureOf entry reason] },
      (c.reportFailure entry reason, outside))

/-- Takes the due entries off the queue, at the beat that is measured for this pass. -/
def drain (c : Conductor σ β) : List (Entry (Task β)) × Conductor σ β :=
  let (due, queue) := c.queue.drainDue c.now
  (due, { c with queue })

/-- Runs at most so many passes. A pass that finds nothing due is the last one. -/
def runPasses (perform : Performer σ β ω) :
    Nat → TickReport × (Conductor σ β × ω) → TickReport × (Conductor σ β × ω)
  | 0, state => state
  | passes + 1, (report, (c, outside)) =>
    let report := { report with beat := c.now }
    match c.drain with
    | ([], c) => (report, (c, outside))
    | (due, c) =>
      runPasses perform passes
        (due.foldl (fun state entry => runEntry perform entry state) (report, (c, outside)))

/-- Runs everything that is due. -/
def runDue (perform : Performer σ β ω) (s : Conductor σ β × ω) :
    TickReport × (Conductor σ β × ω) :=
  runPasses perform TickReport.maxPasses (⟨0.0, 0, []⟩, s)

/-- One turn of the clock. There is no report if the reconciliation found that its settings give
no bounds; then nothing ran. -/
def tick (perform : Performer σ β ω) (s : Conductor σ β × ω) :
    Option TickReport × (Conductor σ β × ω) :=
  match s.1.reconcileIfDue with
  | (.unbounded, c) => (none, (c, s.2))
  | (_, c) =>
    let (report, s) := runDue perform (c, s.2)
    (some report, s)

/-- An entry is due. -/
def hasDue (c : Conductor σ β) : Bool := c.nextDue?.any (· ≤ c.now)

end Conductor

end Cadence
