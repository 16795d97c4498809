import Cadence.Number.Notation

/-!
# Durations

A length of wall-clock time in seconds and nanoseconds.
-/

namespace Cadence

/-- A length of time. -/
structure Duration where
  /-- Whole seconds. -/
  seconds : Nat
  /-- Nanoseconds beyond the whole seconds. -/
  nanoseconds : Nat
deriving Repr, DecidableEq

/-- Why a number of seconds is no duration. -/
inductive DurationFault where
  /-- It is below zero. -/
  | negative
  /-- It is undefined, or 64 bits do not hold its seconds. -/
  | tooLarge
deriving Repr, DecidableEq

/-- The wording of a refused duration. -/
def DurationFault.message : DurationFault → String
  | .negative => "cannot convert float seconds to Duration: value is negative"
  | .tooLarge => "cannot convert float seconds to Duration: value is either too big or NaN"

namespace Duration

/-- Nanoseconds in a second. -/
def nanosPerSecond : Nat := 1000000000

/-- A number of nanoseconds. -/
def ofNanos (nanos : Nat) : Duration := ⟨nanos / nanosPerSecond, nanos % nanosPerSecond⟩

/-- All nanoseconds. -/
def toNanos (d : Duration) : Nat := d.seconds * nanosPerSecond + d.nanoseconds

/-- The duration nearest to a number of seconds, exact ties to the even nanosecond. -/
def ofSeconds (x : Float) : Except DurationFault Duration :=
  if x < 0.0 then .error .negative
  else match Number.magnitude? x with
    | none => .error .tooLarge
    | some m =>
      let nanos := Number.roundQuotient (m.digits * nanosPerSecond * Nat.pow 2 m.exponent.toNat)
        (Nat.pow 2 (-m.exponent).toNat) .toEven
      if UInt64.size * nanosPerSecond ≤ nanos then .error .tooLarge else .ok (ofNanos nanos)

/-- The wording for a setting that is no duration. -/
def refusal (what : String) (value : Float) (fault : DurationFault) : String :=
  s!"Invalid {what} {Number.text value}: {fault.message}"

end Duration

end Cadence
