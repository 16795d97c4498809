/-!
# Ranges of characters

A property of characters is given by the ranges of their numbers that have it. The ranges are in
ascending order and do not overlap.
-/

namespace Cadence.Text

/-- Ranges of characters, each by the numbers of its first and its last one. -/
abbrev CharRanges : Type := List (Nat × Nat)

/-- The character is in one of the ranges. -/
def CharRanges.contain (ranges : CharRanges) (c : Char) : Bool :=
  ranges.any fun (first, last) => first ≤ c.toNat && c.toNat ≤ last

end Cadence.Text
