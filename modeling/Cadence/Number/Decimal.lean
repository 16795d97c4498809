import Cadence.Number.Binary

/-!
# Shortest decimals

A decimal reads back as a binary64 number when it lies among the reals that round to it. Of the
decimals that read back, the shortest has the fewest digits and, among those, lies nearest. It is
found by trying one digit, two digits and so on, each time looking only at the two neighbours of
the number on that decimal grid.
-/

namespace Cadence.Number

/-- The decimal `digits * 10 ^ exponent`. -/
structure Decimal where
  /-- The digits, as one whole number. -/
  digits : Nat
  /-- The power of ten they are scaled by. -/
  exponent : Int
deriving Repr, DecidableEq, Inhabited

/-- What to do with a value exactly halfway between two candidates. -/
inductive Tie where
  /-- Take the candidate whose last digit is even. -/
  | toEven
  /-- Take the larger candidate. -/
  | upwards
deriving Repr, DecidableEq

/-- Compares `a * 10 ^ i` with `n * 2 ^ j` exactly, by clearing the negative powers. -/
def compareScaled (a : Nat) (i : Int) (n : Nat) (j : Int) : Ordering :=
  compare (a * Nat.pow 10 i.toNat * Nat.pow 2 (-j).toNat)
    (n * Nat.pow 2 j.toNat * Nat.pow 10 (-i).toNat)

/-- The number below is only half as far away as the number above: the digits are the least ones
of their exponent, and the exponent is not the least one. -/
def Magnitude.narrowBelow (m : Magnitude) : Bool :=
  m.digits = Nat.pow 2 52 && m.exponent > -1074

/-- The decimal lies among the reals that round to this magnitude, ends included exactly when the
digits are even. -/
def Magnitude.readsBack (m : Magnitude) (d : Decimal) : Bool :=
  let low := if m.narrowBelow then 4 * m.digits - 1 else 4 * m.digits - 2
  let high := 4 * m.digits + 2
  let closed := m.digits % 2 = 0
  let belowIt := compareScaled d.digits d.exponent low (m.exponent - 2)
  let aboveIt := compareScaled d.digits d.exponent high (m.exponent - 2)
  (belowIt = .gt || (closed && belowIt = .eq)) && (aboveIt = .lt || (closed && aboveIt = .eq))

/-- The number of decimal digits before the point: the least `k` with the magnitude below
`10 ^ k`, found by correcting an estimate from the binary logarithm. -/
def Magnitude.scale (m : Magnitude) : Int :=
  let estimate : Int := ((m.digits.log2 : Int) + m.exponent) * 30103 / 100000 - 1
  let steps := (List.range 4).takeWhile fun (i : Nat) =>
    compareScaled 1 (estimate + i) m.digits m.exponent ≠ .gt
  estimate + steps.length

/-- The number of grid steps of size `10 ^ e` in the magnitude, as a fraction. -/
def Magnitude.gridFraction (m : Magnitude) (e : Int) : Nat × Nat :=
  (m.digits * Nat.pow 2 m.exponent.toNat * Nat.pow 10 (-e).toNat,
    Nat.pow 2 (-m.exponent).toNat * Nat.pow 10 e.toNat)

/-- The neighbour of the magnitude on the grid `10 ^ e` that reads back, the nearer one if both
do. -/
def Magnitude.onDecimalGrid? (m : Magnitude) (tie : Tie) (e : Int) : Option Decimal :=
  let (num, den) := m.gridFraction e
  let below := num / den
  let lower : Decimal := ⟨below, e⟩
  let upper : Decimal := ⟨below + 1, e⟩
  match m.readsBack lower, m.readsBack upper with
  | true, false => some lower
  | false, true => some upper
  | false, false => none
  | true, true =>
    match compare (2 * (num % den)) den, tie with
    | .lt, _ => some lower
    | .gt, _ => some upper
    | .eq, .upwards => some upper
    | .eq, .toEven => some (if below % 2 = 0 then lower else upper)

/-- Moves trailing zeros of the digits into the exponent. The fuel bounds their number. -/
def Decimal.strip (fuel : Nat) (d : Decimal) : Decimal :=
  match fuel with
  | 0 => d
  | fuel + 1 =>
    if d.digits ≠ 0 ∧ d.digits % 10 = 0 then Decimal.strip fuel ⟨d.digits / 10, d.exponent + 1⟩
    else d

/-- The exact decimal value of a magnitude. -/
def Magnitude.exact (m : Magnitude) : Decimal :=
  if 0 ≤ m.exponent then ⟨m.digits * Nat.pow 2 m.exponent.toNat, 0⟩
  else ⟨m.digits * Nat.pow 5 (-m.exponent).toNat, m.exponent⟩

/-- The shortest decimal that reads back as this magnitude. -/
def Magnitude.shortest (m : Magnitude) (tie : Tie) : Decimal :=
  if m.digits = 0 then ⟨0, 0⟩
  else
    let scale := m.scale
    let found := (List.range 17).findSome? fun (i : Nat) => m.onDecimalGrid? tie (scale - (i + 1))
    (found.getD m.exact).strip 800

/-- The quotient rounded to a whole number. -/
def roundQuotient (num den : Nat) (tie : Tie) : Nat :=
  let whole := num / den
  match compare (2 * (num % den)) den, tie with
  | .lt, _ => whole
  | .gt, _ => whole + 1
  | .eq, .upwards => whole + 1
  | .eq, .toEven => if whole % 2 = 0 then whole else whole + 1

/-- The magnitude in units of `10 ^ -places`, rounded with ties to even. -/
def Magnitude.toPlaces (m : Magnitude) (places : Nat) : Nat :=
  let (num, den) := m.gridFraction (-places)
  roundQuotient num den .toEven

/-- The exponent of the leading digit. -/
def Decimal.leading (d : Decimal) : Int :=
  (toString d.digits).length + d.exponent - 1

/-- The number nearest to `digits * 10 ^ exponent`, ties to even. Far beyond the largest number that
is infinity, and far below the smallest one it is zero. -/
def ofDecimal (d : Decimal) : Float :=
  if d.digits = 0 ∨ d.leading < -400 then 0.0
  else if 400 < d.leading then 1.0 / 0.0
  else Float.ofScientific d.digits (d.exponent < 0) d.exponent.natAbs

end Cadence.Number
