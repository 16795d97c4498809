/-!
# Names of points

A point in time is named by its place in the order of creation.
-/

namespace Cadence

/-- The name of a point: how many points were created before it. -/
structure PointId where
  /-- The number of earlier points. -/
  index : Nat
deriving Repr, DecidableEq, Inhabited, Ord

/-- The name as messages write it. -/
def PointId.text (id : PointId) : String := s!"pit#{id.index}"

instance : ToString PointId := ⟨PointId.text⟩

end Cadence
