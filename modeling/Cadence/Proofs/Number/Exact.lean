import Mathlib
import Cadence.Number.Measure
import Cadence.Proofs.Number.Arithmetic

/-!
# Exact numbers

The rationals as a system of numbers for the formulas of the timeline and of its corrections, and the
rational that a binary64 number stands for. Nothing is rounded here, so the usual laws hold.

- `cast_exact`: the rational of a number is the value that it has among the reals;
- `exact_le_exact`: it keeps the order of finite numbers;
- `cycle_eq`: the position within a period is the number itself, less whole periods.
-/

namespace Cadence.Number

open Float.Model Float.Model.UnpackedFloat

instance : Measure ℚ where
  ofCount n := n.toNat
  ofNat n := n
  abs x := |x|
  cycle x y := x - |y| * ⌊x / |y|⌋
  below x y := x < y
  atMost x y := x ≤ y

/-! ## The operations -/

theorem below_iff {x y : ℚ} : Measure.below x y = true ↔ x < y := decide_eq_true_iff

theorem atMost_iff {x y : ℚ} : Measure.atMost x y = true ↔ x ≤ y := decide_eq_true_iff

/-- The position within a period is the number itself, less whole periods. -/
theorem cycle_eq {y : ℚ} (hy : 0 < y) (x : ℚ) : Measure.cycle x y = toIcoMod hy 0 x := by
  change x - |y| * ⌊x / |y|⌋ = _
  rw [toIcoMod, toIcoDiv_eq_floor, sub_zero, abs_of_pos hy, zsmul_eq_mul, mul_comm]

/-! ## The rational of a number -/

/-- The rational that a finite number stands for, zero for any other. -/
def exact (x : Float) : ℚ :=
  match x.toModel.unpack with
  | .finite s m e _ => ((s.apply m : ℤ) : ℚ) * (2 : ℚ) ^ e
  | _ => 0

/-- It is the value that the number has among the reals. -/
theorem cast_exact (x : Float) : (exact x : ℝ) = value x := by
  unfold exact value
  cases x.toModel.unpack with
  | finite s m e hm => simp [valueOf]
  | notANumber | infinity | zero => exact Rat.cast_zero

@[simp]
theorem exact_zero : exact 0.0 = 0 := by
  have hvalue := cast_exact 0.0
  rw [value_zero] at hvalue
  exact_mod_cast hvalue

@[simp]
theorem exact_one : exact 1.0 = 1 := by
  have hvalue := cast_exact 1.0
  rw [value_one] at hvalue
  exact_mod_cast hvalue

/-- Finite numbers are ordered as their rationals are. -/
theorem exact_le_exact {x y : Float} (hx : x.isFinite = true) (hy : y.isFinite = true) (h : x ≤ y) :
    exact x ≤ exact y := by
  have hplace := (le_iff.mp h).2.2
  rw [place_eq_value hx, place_eq_value hy, ← cast_exact, ← cast_exact] at hplace
  exact_mod_cast hplace

theorem exact_pos {x : Float} (h : 0 < value x) : 0 < exact x := by
  rw [← cast_exact] at h
  exact_mod_cast h

end Cadence.Number
