import Cadence.Point.Id

/-!
# Points in time

A point is a beat that can be named, combined and acted upon before it is known. The points of a
clock are kept in the order of their creation. A point computed from others lists its derivation,
and they list it among their children. Resetting a point starts a new generation of it, and a
token of an earlier generation is dead from then on.
-/

namespace Cadence

/-- How a point comes by its beat. -/
inductive PointKind where
  /-- It takes a beat once. -/
  | oneShot
  /-- Every new beat fires its actions again. -/
  | persistent
  /-- It moves on by its period after every beat it takes, until it is reset. -/
  | recurring (period : Float)
  /-- It is computed from other points. -/
  | derived
deriving Repr, DecidableEq

/-- The arithmetic of derived points. -/
inductive PointOp where
  /-- The sum. -/
  | add
  /-- The difference. -/
  | sub
  /-- The product. -/
  | mul
  /-- The quotient. -/
  | div
deriving Repr, DecidableEq

/-- The operation on beats. -/
def PointOp.apply : PointOp → Float → Float → Float
  | .add => (· + ·)
  | .sub => (· - ·)
  | .mul => (· * ·)
  | .div => (· / ·)

/-- The sign of the operation. -/
def PointOp.symbol : PointOp → String
  | .add => "+"
  | .sub => "-"
  | .mul => "*"
  | .div => "/"

/-- All operations. -/
def PointOp.all : List PointOp := [.add, .sub, .mul, .div]

/-- One side of a derivation. -/
inductive Operand where
  /-- A number. -/
  | scalar (value : Float)
  /-- The beat of a point. -/
  | point (id : PointId)
deriving Repr, DecidableEq

/-- The point that an operand names. -/
def Operand.point? : Operand → Option PointId
  | .scalar _ => none
  | .point id => some id

/-- How a derived point is computed. -/
structure Derivation where
  /-- The operation. -/
  op : PointOp
  /-- The left side. -/
  lhs : Operand
  /-- The right side. -/
  rhs : Operand
deriving Repr, DecidableEq

/-- The points that a derivation names, the left one first. -/
def Derivation.points (d : Derivation) : List PointId := [d.lhs, d.rhs].filterMap Operand.point?

/-- A mark of one generation of a point. It is dead once the point was reset. -/
structure Token where
  /-- The point. -/
  point : PointId
  /-- The generation. -/
  generation : Nat
deriving Repr, DecidableEq

/-- What is kept for one point. -/
structure PointNode (α : Type) where
  /-- How it comes by its beat. -/
  kind : PointKind
  /-- Its beat, once it has one. -/
  beat : Option Float
  /-- It takes another beat while it has one. -/
  rebindable : Bool
  /-- How it is computed, if it is derived. -/
  derivation : Option Derivation
  /-- The points computed from it directly. -/
  children : List PointId
  /-- What to carry out each time it takes a beat. -/
  actions : List α
  /-- How often it was reset. -/
  generation : Nat
  /-- How often it took a beat, which a count of 64 bits holds below `2 ^ 64` times. -/
  resolutions : Nat
deriving Repr

namespace PointNode

variable {α : Type}

/-- A point that was just created. -/
def fresh (kind : PointKind) (rebindable : Bool) (derivation : Option Derivation) :
    PointNode α where
  kind := kind
  beat := none
  rebindable := rebindable
  derivation := derivation
  children := []
  actions := []
  generation := 0
  resolutions := 0

/-- Takes a beat. -/
def settle (n : PointNode α) (beat : Float) : PointNode α :=
  { n with beat := some beat, resolutions := n.resolutions + 1 }

/-- Gives up the beat and starts a new generation. -/
def reset (n : PointNode α) : PointNode α :=
  { n with beat := none, generation := n.generation + 1 }

/-- Lists a child, once. -/
def addChild (n : PointNode α) (child : PointId) : PointNode α :=
  if child ∈ n.children then n else { n with children := n.children ++ [child] }

end PointNode

/-- A task that a point wants carried out at its beat, as long as its token is alive. -/
structure PointEntry (α : Type) where
  /-- The beat. -/
  beat : Float
  /-- The token of the point's generation. -/
  token : Token
  /-- What to carry out. -/
  action : α
deriving Repr

/-- A search under way for the points derived from a point. -/
structure PointSearch where
  /-- The points found so far, in ascending order. -/
  found : List PointId
  /-- Those of them whose children were not looked at yet, the one to look at next first. -/
  pending : List PointId
deriving Repr, DecidableEq

namespace PointSearch

/-- The search at its start, when only the point itself is found. -/
def start (root : PointId) : PointSearch := ⟨[root], [root]⟩

/-- Puts a point in its place among points in ascending order. -/
def place (id : PointId) : List PointId → List PointId
  | [] => [id]
  | first :: rest =>
    if id.index < first.index then id :: first :: rest else first :: place id rest

/-- Finds a point, unless it was found before. -/
def meet (s : PointSearch) (id : PointId) : PointSearch :=
  if id ∈ s.found then s else ⟨place id s.found, id :: s.pending⟩

end PointSearch

/-- The points of a clock, in the order of their creation. -/
structure Points (α : Type) where
  /-- What is kept for each point. -/
  nodes : Array (PointNode α)
deriving Repr

namespace Points

variable {α : Type}

/-- No point was created. -/
def empty : Points α := ⟨#[]⟩

instance : Inhabited (Points α) := ⟨empty⟩

/-- How many points were created. -/
def size (ps : Points α) : Nat := ps.nodes.size

/-- No point was created. -/
def isEmpty (ps : Points α) : Bool := ps.nodes.isEmpty

/-- What is kept for a point, if there is one of that name. -/
def node? (ps : Points α) (id : PointId) : Option (PointNode α) := ps.nodes[id.index]?

/-- What is kept for a point. An unknown name is answered back as an error. -/
def find (ps : Points α) (id : PointId) : Except PointId (PointNode α) :=
  match ps.node? id with
  | some node => .ok node
  | none => .error id

/-- Changes what is kept for a point. -/
def modify (ps : Points α) (id : PointId) (change : PointNode α → PointNode α) : Points α :=
  ⟨ps.nodes.modify id.index change⟩

/-- The beat of a point, if it has one. -/
def beat? (ps : Points α) (id : PointId) : Option Float := (ps.node? id).bind (·.beat)

/-- The name of the next point. -/
def nextId (ps : Points α) : PointId := ⟨ps.size⟩

/-- The token of the current generation of a point. -/
def liveness (ps : Points α) (id : PointId) : Except PointId Token := do
  let node ← ps.find id
  pure ⟨id, node.generation⟩

/-- The point was not reset since the token was handed out. -/
def isLive (ps : Points α) (token : Token) : Bool :=
  (ps.node? token.point).any (·.generation = token.generation)

/-- Creates a point that is not derived. Only a one-shot point refuses a second beat. -/
def insert (ps : Points α) (kind : PointKind) : PointId × Points α :=
  (ps.nextId, ⟨ps.nodes.push (.fresh kind (kind ≠ .oneShot) none)⟩)

/-- The value of an operand, if it has one. -/
def valueOf (ps : Points α) : Operand → Except PointId (Option Float)
  | .scalar value => .ok (some value)
  | .point id => (ps.find id).map (·.beat)

/-- The value of a derivation, if both operands have one. The right operand is looked up only once
the left one has a value. -/
def evaluate (ps : Points α) (d : Derivation) : Except PointId (Option Float) := do
  match ← ps.valueOf d.lhs with
  | none => pure none
  | some lhs =>
    match ← ps.valueOf d.rhs with
    | none => pure none
    | some rhs => pure (some (d.op.apply lhs rhs))

/-- Some of the points takes another beat while it has one. The search stops at the first. -/
def anyRebindable (ps : Points α) : List PointId → Except PointId Bool
  | [] => pure false
  | id :: rest => do
    let node ← ps.find id
    if node.rebindable then pure true else ps.anyRebindable rest

/-- Lists a child under each of its operands, up to the first name that is unknown. -/
def link (ps : Points α) (child : PointId) : List PointId → Except PointId PointId × Points α
  | [] => (.ok child, ps)
  | id :: rest =>
    match ps.find id with
    | .error missing => (.error missing, ps)
    | .ok _ => (ps.modify id (·.addChild child)).link child rest

/-- Creates a point computed from others. It has a beat right away if they have. The operands are
looked up only as far as the new point depends on them before it is linked. -/
def derive (ps : Points α) (d : Derivation) : Except PointId PointId × Points α :=
  let looked := do
    let rebindable ← ps.anyRebindable d.points
    let beat ← ps.evaluate d
    pure { (PointNode.fresh .derived rebindable (some d) : PointNode α) with beat }
  match looked with
  | .error missing => (.error missing, ps)
  | .ok node => (⟨ps.nodes.push node⟩ : Points α).link ps.nextId d.points

/-- Attaches an action to a point. The action is also wanted now if the point has a beat that
still means something: any beat of a point that takes only one, a beat not yet past otherwise. -/
def addAction (ps : Points α) (id : PointId) (action : α) (now : Float) :
    Except PointId (Option (PointEntry α)) × Points α :=
  match ps.find id with
  | .error missing => (.error missing, ps)
  | .ok node =>
    let attached := ps.modify id fun node => { node with actions := node.actions ++ [action] }
    match node.beat with
    | none => (.ok none, attached)
    | some beat =>
      if node.rebindable && beat < now then (.ok none, attached)
      else (.ok (some ⟨beat, ⟨id, node.generation⟩, action⟩), attached)

/-- The points computed from a point directly. -/
def childrenOf (ps : Points α) (id : PointId) : List PointId :=
  ((ps.node? id).map (·.children)).getD []

/-- One turn of a search: the point to look at next is no longer pending, and its children are
found. -/
def searchOn (ps : Points α) (s : PointSearch) : PointSearch :=
  match s.pending with
  | [] => s
  | id :: rest => (ps.childrenOf id).foldl PointSearch.meet { s with pending := rest }

/-- Searches until nothing is pending. The fuel bounds the number of turns. -/
def search (ps : Points α) : Nat → PointSearch → PointSearch
  | 0, s => s
  | fuel + 1, s => if s.pending.isEmpty then s else ps.search fuel (ps.searchOn s)

/-- A point with every point derived from it, in ascending order. Children come after their
parents, so the order is one in which they can be evaluated. A point is looked at once at most,
so the search ends after no more turns than there are points. -/
def subtree (ps : Points α) (root : PointId) : List PointId :=
  (ps.search ps.size (.start root)).found

/-- The points derived from a point, in ascending order. -/
def descendants (ps : Points α) (root : PointId) : List PointId := (ps.subtree root).drop 1

/-- Resets a point and every point derived from it, and answers which those are. -/
def resetSubtree (ps : Points α) (root : PointId) : Except PointId (List PointId) × Points α :=
  match ps.find root with
  | .error missing => (.error missing, ps)
  | .ok _ =>
    let ids := ps.subtree root
    (.ok ids, ids.foldl (fun ps id => ps.modify id PointNode.reset) ps)

/-- Resets every point. -/
def resetAll (ps : Points α) : Points α := ⟨ps.nodes.map PointNode.reset⟩

end Points

end Cadence
