/-!
# Digits

The values of digits and of runs of digits.
-/

namespace Cadence.Number

/-- The value of a decimal digit. -/
def digitValue (c : Char) : Nat := c.toNat - 48

/-- The value of some decimal digits. -/
def digitsValue (cs : List Char) : Nat := cs.foldl (fun n c => n * 10 + digitValue c) 0

/-- The value of a hexadecimal digit. -/
def hexValue? (c : Char) : Option Nat :=
  let n := c.toNat
  if 48 ≤ n ∧ n ≤ 57 then some (n - 48)
  else if 65 ≤ n ∧ n ≤ 70 then some (n - 55)
  else if 97 ≤ n ∧ n ≤ 102 then some (n - 87)
  else none

/-- The value of a digit of a base up to 16. -/
def radixValue? (base : Nat) (c : Char) : Option Nat := (hexValue? c).filter (· < base)

/-- The value of some digits of a base up to 16. -/
def radixDigitsValue? (base : Nat) (cs : List Char) : Option Nat :=
  cs.foldlM (fun n c => do pure (n * base + (← radixValue? base c))) 0

end Cadence.Number
