import Cadence.Number.Binary
import Cadence.Point.Id

/-!
# The scheduling queue

Entries ordered by due beat, entries with priority first among those of one beat, and then in the
order they were submitted. The queue keeps its entries as a list in that order, so its head is the
entry that is due next.
-/

namespace Cadence

open Number

/-- A due beat, kept as its bit pattern. The queue orders patterns, which is finer than comparing
numbers: it tells `-0.0` from `0.0` and places every undefined pattern. -/
structure DueBeat where
  /-- The binary64 pattern. -/
  bits : UInt64
deriving Repr, DecidableEq, Inhabited

namespace DueBeat

/-- The due beat of a number. -/
def ofFloat (x : Float) : DueBeat := ⟨x.toBits⟩

/-- The number of a due beat. -/
def value (b : DueBeat) : Float := Float.ofBits b.bits

/-- Its place in the order of patterns. -/
def rank (b : DueBeat) : Nat := patternRank b.bits

end DueBeat

/-- The name of a queued entry: how many entries were submitted before it. -/
structure EntryId where
  /-- The number of earlier entries. It fits in 64 bits for the first `2 ^ 64` entries. -/
  index : Nat
deriving Repr, DecidableEq, Inhabited

/-- The name as messages write it. -/
def EntryId.text (id : EntryId) : String := s!"entry#{id.index}"

/-- Reads a name as messages write it. -/
def EntryId.ofText? (text : String) : Option EntryId :=
  match text.splitOn "#" with
  | ["entry", index] => index.toNat?.map EntryId.mk
  | _ => none

/-- A queued entry with a task to carry out. -/
structure Entry (α : Type) where
  /-- Its name. -/
  id : EntryId
  /-- The beat at which it is due. -/
  due : DueBeat
  /-- It leads the entries of its beat. -/
  priority : Bool
  /-- What to carry out. -/
  task : α
  /-- The point it was scheduled for. -/
  owner : Option PointId
deriving Repr

namespace Entry

variable {α : Type}

/-- The beat at which the entry is due, as a number. -/
def dueBeat (e : Entry α) : Float := e.due.value

/-- The first entry comes before the second: by beat, then by priority, then by submission. -/
def before (a b : Entry α) : Bool :=
  if a.due.rank = b.due.rank then
    if a.priority = b.priority then a.id.index < b.id.index else a.priority
  else a.due.rank < b.due.rank

/-- The entry belongs to one of the given points. -/
def ownedBy (e : Entry α) (owners : List PointId) : Bool := e.owner.any (· ∈ owners)

end Entry

/-- The queue. -/
structure Queue (α : Type) where
  /-- The entries, the one due next at the head. -/
  entries : List (Entry α)
  /-- How many entries were ever submitted. A count of 64 bits would start again after `2 ^ 64` of
  them; this one does not, so what is said of names is meant up to there. -/
  submitted : Nat
deriving Repr

namespace Queue

variable {α : Type}

/-- The queue to which nothing was submitted. -/
def empty : Queue α := ⟨[], 0⟩

instance : Inhabited (Queue α) := ⟨empty⟩

/-- Puts an entry in its place. -/
def place (e : Entry α) : List (Entry α) → List (Entry α)
  | [] => [e]
  | head :: rest => if e.before head then e :: head :: rest else head :: place e rest

/-- Submits a task under the next name. -/
def submit (q : Queue α) (due : DueBeat) (priority : Bool) (task : α) (owner : Option PointId) :
    EntryId × Queue α :=
  let id : EntryId := ⟨q.submitted⟩
  (id, ⟨place { id, due, priority, task, owner } q.entries, q.submitted + 1⟩)

/-- Submits a task, possibly on behalf of a point. -/
def push (q : Queue α) (due : DueBeat) (task : α) (owner : Option PointId) : EntryId × Queue α :=
  q.submit due false task owner

/-- Submits a task that leads every entry without priority of its beat. -/
def pushPriority (q : Queue α) (due : DueBeat) (task : α) : EntryId × Queue α :=
  q.submit due true task none

/-- The entry is not due yet at a beat. -/
def isLater (beat : Float) (e : Entry α) : Bool := beat < e.dueBeat

/-- Takes out the entries due at or before a beat, in the order of the queue. -/
def drainDue (q : Queue α) (beat : Float) : List (Entry α) × Queue α :=
  (q.entries.takeWhile (!isLater beat ·), { q with entries := q.entries.dropWhile (!isLater beat ·) })

/-- The beat of the head of the queue. -/
def nextDue? (q : Queue α) : Option DueBeat := q.entries.head?.map (·.due)

/-- Takes out the entries that a test picks, and answers how many there were. -/
def removeIf (q : Queue α) (picked : Entry α → Bool) : Nat × Queue α :=
  (q.entries.countP picked, { q with entries := q.entries.filter (!picked ·) })

/-- Takes out the entries of a point. -/
def cancelOwner (q : Queue α) (owner : PointId) : Nat × Queue α :=
  q.removeIf (·.owner = some owner)

/-- Takes out the entries of any of the given points. -/
def cancelOwners (q : Queue α) (owners : List PointId) : Nat × Queue α :=
  q.removeIf (·.ownedBy owners)

/-- Takes out the entry of a name, and answers whether it was queued. -/
def remove (q : Queue α) (id : EntryId) : Bool × Queue α :=
  let (count, rest) := q.removeIf (·.id = id)
  (0 < count, rest)

/-- Takes out everything. -/
def clear (q : Queue α) : Nat × Queue α := (q.entries.length, { q with entries := [] })

/-- The number of queued entries. -/
def size (q : Queue α) : Nat := q.entries.length

/-- Nothing is queued. -/
def isEmpty (q : Queue α) : Bool := q.entries.isEmpty

end Queue

end Cadence
