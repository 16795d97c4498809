import Cadence.Conductor.Basic

/-!
# Points on the conductor

Binding a point resolves it and queues what its resolution asks for. Clearing a point takes its
entries off the queue and silences those that are already on their way.
-/

namespace Cadence.Conductor

variable {σ β : Type}

/-- Creates a point that is not derived. -/
def createPoint (c : Conductor σ β) (kind : PointKind) : PointId × Conductor σ β :=
  let (id, points) := c.points.insert kind
  (id, { c with points })

/-- Creates a point that moves on by a period each time. -/
def recurringPoint (c : Conductor σ β) (period : Float) :
    Except Fault PointId × Conductor σ β :=
  match checkPeriod period with
  | .error fault => (.error fault, c)
  | .ok period =>
    let (id, c) := c.createPoint (.recurring period)
    (.ok id, c)

/-- Creates a point computed from others. An unknown name is answered back. -/
def derivePoint (c : Conductor σ β) (d : Derivation) :
    Except PointId PointId × Conductor σ β :=
  let (answer, points) := c.points.derive d
  (answer, { c with points })

/-- The warning about a point whose value was not finite. -/
def skippedWarning (id : PointId) : Log.Message :=
  Log.say .warn s!"Point {id.text} resolved to a non-finite beat, skipping it"

/-- Takes over the points that a resolution leaves, with its warnings. -/
def adoptResolved (c : Conductor σ β) (r : Resolved (Action β)) : Conductor σ β :=
  { c with points := r.points, log := c.log ++ r.skipped.map skippedWarning }

/-- What a resolution of a point wants queued: the actions, and its own next beat. -/
def batchOf (id : PointId) (resolution : Resolution (Action β)) :
    List (Float × Task β × PointId) :=
  let actions := resolution.entries.map fun entry =>
    (entry.beat, .actFor entry.token entry.action, entry.token.point)
  match resolution.rearm with
  | none => actions
  | some (beat, token) => actions ++ [(beat, .rearm token beat, id)]

/-- Queues what a resolution of a point asks for. -/
def enqueue (c : Conductor σ β) (id : PointId) (resolution : Resolution (Action β)) :
    Conductor σ β :=
  c.submitBatch (batchOf id resolution)

/-- The points to reset before a point takes a new beat: a recurring one starts over, with
everything derived from it. -/
def restart (c : Conductor σ β) (id : PointId) (kind : PointKind) : Conductor σ β :=
  match kind with
  | .recurring _ =>
    match c.points.resetSubtree id with
    | (.error _, _) => c
    | (.ok ids, points) => ({ c with points }.cancelOwners ids).2
  | _ => c

/-- Binds a point to a beat on behalf of the user. A point that takes one beat only refuses a
second one, and a recurring point starts over. -/
def bind (c : Conductor σ β) (id : PointId) (beat : Float) :
    Except Fault Unit × Conductor σ β :=
  match checkBeat beat with
  | .error fault => (.error fault, c)
  | .ok beat =>
    match c.points.node? id with
    | none => (.ok (), c)
    | some node =>
      match node.rebindable, node.beat with
      | false, some current => (.error (.pointAlreadyBound id current), c)
      | _, _ =>
        let c := c.restart id node.kind
        let resolved := c.points.resolve id beat
        let c := c.adoptResolved resolved
        match resolved.outcome with
        | .error _ => (.ok (), c)
        | .ok resolution =>
          let said := s!"Point {id.text} bound to beat {Number.fixed 3 beat}, queuing "
            ++ s!"{resolution.entries.length} actions"
          (.ok (), (c.say .debug said).enqueue id resolution)

/-- Moves a recurring point on to its next beat, unless it was reset since the token was handed
out. -/
def rearm (c : Conductor σ β) (token : Token) (beat : Float) : Conductor σ β :=
  let resolved := c.points.rearm token.point beat token
  let c := c.adoptResolved resolved
  match resolved.outcome with
  | .error _ => c
  | .ok resolution => c.enqueue token.point resolution

/-- Attaches an action to a point, and queues it at once if the point's beat still counts. -/
def addAction (c : Conductor σ β) (id : PointId) (action : Action β) : Conductor σ β :=
  match c.points.addAction id action c.now with
  | (.ok (some entry), points) =>
    { c with points }.submitBatch [(entry.beat, .actFor entry.token entry.action, id)]
  | (_, points) => { c with points }

/-- Resets a point with everything derived from it and takes their entries off the queue. The
attached actions are kept. -/
def clearPoint (c : Conductor σ β) (id : PointId) : Nat × Conductor σ β :=
  match c.points.resetSubtree id with
  | (.error _, _) => (0, c)
  | (.ok ids, points) => { c with points }.cancelOwners ids

/-- Resets every point. What is queued stays queued, but does nothing for them. -/
def clearAllPoints (c : Conductor σ β) : Conductor σ β :=
  { c with points := c.points.resetAll }

/-- Runs an action every so many beats, the first time one period from now. The answer is the
point to clear for stopping it. -/
def every (c : Conductor σ β) (period : Float) (action : Action β) :
    Except Fault PointId × Conductor σ β :=
  match c.recurringPoint period with
  | (.error fault, c) => (.error fault, c)
  | (.ok id, c) =>
    let c := c.addAction id action
    match c.bind id (c.now + period) with
    | (.error fault, c) => (.error fault, c)
    | (.ok (), c) => (.ok id, c)

end Cadence.Conductor
