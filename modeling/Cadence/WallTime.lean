/-!
# Wall-clock time

A count of microseconds that an offline host moves by hand. Moving to a date never goes back;
moving by an amount wraps around at the end of the 64-bit count.
-/

namespace Cadence

/-- The current wall-clock date. -/
structure WallTime where
  /-- Microseconds since the origin of the clock. -/
  micros : UInt64
deriving Repr, DecidableEq, Inhabited

/-- The date that stands for "nothing pending". -/
def WallTime.never : UInt64 := UInt64.ofNat (UInt64.size - 1)

namespace WallTime

/-- Moves time on by a number of microseconds. -/
def advanceMicros (t : WallTime) (micros : UInt64) : WallTime := ⟨t.micros + micros⟩

/-- Moves time on by a duration, of which only the low 64 bits of its microseconds count. -/
def advance (t : WallTime) (seconds nanoseconds : Nat) : WallTime :=
  t.advanceMicros (UInt64.ofNat (seconds * 1000000 + nanoseconds / 1000))

/-- Moves time forward to a date; an earlier date changes nothing. -/
def moveTo (t : WallTime) (date : UInt64) : WallTime := ⟨max t.micros date⟩

end WallTime

/-- The difference of two counts, zero if it would be negative. -/
def countLeft (later earlier : UInt64) : UInt64 := if earlier < later then later - earlier else 0

end Cadence
