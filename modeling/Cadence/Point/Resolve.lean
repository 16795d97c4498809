import Cadence.Point.Basic

/-!
# Resolution

Giving a point a beat. Everything derived from it is computed again, in ascending order, from the
new beats; a derived point whose other operand has none ends up without a beat. Every point that
takes a beat has its actions queued there.
-/

namespace Cadence

/-- What a resolution asks to be queued. -/
structure Resolution (α : Type) where
  /-- The actions of every point that took a beat, in ascending order of points. -/
  entries : List (PointEntry α)
  /-- The next beat of a recurring point, with the token it depends on. -/
  rearm : Option (Float × Token)
deriving Repr

/-- A resolution under way. -/
structure ResolutionWalk (α : Type) where
  /-- The points so far. -/
  points : Points α
  /-- The entries so far. -/
  entries : List (PointEntry α)
  /-- The points so far whose value was not finite. -/
  skipped : List PointId

/-- What a resolution leaves behind. -/
structure Resolved (α : Type) where
  /-- What to queue, or the first unknown name that was met. -/
  outcome : Except PointId (Resolution α)
  /-- The points afterwards. -/
  points : Points α
  /-- The points whose value was not finite, which take no beat. -/
  skipped : List PointId

namespace ResolutionWalk

variable {α : Type}

/-- The value that a point is given: the beat for the root, the value of its derivation for any
other. -/
def valueFor (w : ResolutionWalk α) (root : PointId) (beat : Float) (id : PointId) :
    Except PointId (Option Float) :=
  if id = root then pure (some beat)
  else do
    match (← w.points.find id).derivation with
    | some d => w.points.evaluate d
    | none => pure none

/-- Gives a point a finite beat and asks for its actions. -/
def settle (w : ResolutionWalk α) (id : PointId) (beat : Float) : ResolutionWalk α :=
  match w.points.node? id with
  | none => w
  | some node =>
    { w with
      points := w.points.modify id (·.settle beat)
      entries := w.entries ++ node.actions.map fun action =>
        ⟨beat, ⟨id, node.generation⟩, action⟩ }

/-- Gives one point its value. A value that is not finite is skipped. -/
def visit (w : ResolutionWalk α) (root : PointId) (beat : Float) (id : PointId) :
    Except PointId (ResolutionWalk α) := do
  match ← w.valueFor root beat id with
  | none => pure w
  | some value =>
    if value.isFinite then pure (w.settle id value)
    else pure { w with skipped := w.skipped ++ [id] }

/-- Gives the listed points their values, up to the first unknown name. -/
def visitAll (w : ResolutionWalk α) (root : PointId) (beat : Float) :
    List PointId → Option PointId × ResolutionWalk α
  | [] => (none, w)
  | id :: rest =>
    match w.visit root beat id with
    | .error missing => (some missing, w)
    | .ok w => w.visitAll root beat rest

end ResolutionWalk

namespace Points

variable {α : Type}

/-- Takes the beats of the listed points away. -/
def unsettle (ps : Points α) (ids : List PointId) : Points α :=
  ids.foldl (fun ps id => ps.modify id fun node => { node with beat := none }) ps

/-- The next beat that a point asks for after taking `beat`, if it is recurring. -/
def rearmAfter (ps : Points α) (id : PointId) (beat : Float) : Option (Float × Token) := do
  let node ← ps.node? id
  match node.kind with
  | .recurring period => some (beat + period, ⟨id, node.generation⟩)
  | _ => none

/-- Gives a point a beat and computes everything derived from it again. -/
def resolve (ps : Points α) (root : PointId) (beat : Float) : Resolved α :=
  match ps.find root with
  | .error missing => ⟨.error missing, ps, []⟩
  | .ok _ =>
    let order := ps.subtree root
    let start : ResolutionWalk α := ⟨ps.unsettle (order.drop 1), [], []⟩
    match start.visitAll root beat order with
    | (some missing, w) => ⟨.error missing, w.points, w.skipped⟩
    | (none, w) => ⟨.ok ⟨w.entries, w.points.rearmAfter root beat⟩, w.points, w.skipped⟩

/-- Moves a recurring point on to its next beat, unless the token is not that of its current
generation. -/
def rearm (ps : Points α) (root : PointId) (beat : Float) (token : Token) : Resolved α :=
  match ps.find root with
  | .error missing => ⟨.error missing, ps, []⟩
  | .ok node =>
    if token = ⟨root, node.generation⟩ then ps.resolve root beat
    else ⟨.ok ⟨[], none⟩, ps, []⟩

end Points

end Cadence
