import Cadence.Conductor.Transport
import Cadence.Text.Quoted

/-!
# Views of the conductor

Lines of text about the clock: its state at a glance, and the debugging views of points and actions.
-/

namespace Cadence

/-- The debugging view of an action: its label. -/
def Action.debugView {β : Type} (a : Action β) : String :=
  s!"Action \x7b label: " ++ Text.quoted a.label ++ " \x7d"

namespace Conductor

variable {σ β : Type}

/-- The debugging view of a point: its number and its beat. -/
def debugPoint (c : Conductor σ β) (id : PointId) : String :=
  let beat := match c.points.beat? id with
    | some beat => s!"Some({Number.Layout.debugging.render beat})"
    | none => "None"
  s!"PointInTime \x7b id: PointId({id.index}), beat: {beat} \x7d"

/-- The state of the clock on one line, with the state of its follower. -/
def statusLine (c : Conductor σ β) (status : SyncStatus) : String :=
  let following := if status.enabled then "on" else "off"
  s!"beat {Number.fixed 2 c.now} | {Number.fixed 2 c.bpm} bpm | "
    ++ s!"phase {Number.fixed 2 status.phase}/{Number.text status.quantum} | "
    ++ s!"sync {following} ({status.peerCount} peers) | {c.pending} queued"

end Conductor

end Cadence
