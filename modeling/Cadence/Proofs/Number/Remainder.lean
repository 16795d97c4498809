import Mathlib
import Cadence.Proofs.Number.Count

/-!
# Remainders of numbers

A remainder has no more bits than what was divided or than the period, so it is exact. The position within a
period is exact, too, unless a period is added to a remainder below zero: that sum rounds, and can come out as
the period itself.

- `isRemainder_truncatedRemainder`: the remainder of two numbers;
- `isPosition_cycleRemainder`: the position of a number within a period.
-/

namespace Cadence.Number

open Float.Model Float.Model.UnpackedFloat

variable {x y : Float}

/-! ## Remainders -/

/-- What is put together from at most fifty-three bits is their product. -/
theorem value_ofParts (negative : Bool) {digits : ℕ} {e : ℤ} (hdigits : digits < 2 ^ 53) (he : -1074 ≤ e)
    (hin : InRange (digits * (2 : ℝ) ^ e)) : (ofParts negative digits e).isFinite = true ∧
      value (ofParts negative digits e) = (if negative then -1 else 1) * (digits * (2 : ℝ) ^ e) := by
  obtain ⟨hplace, hnan⟩ := place_ofParts negative digits e
  have hexact : nearestSigned ((if negative then -1 else 1) * (digits * (2 : ℝ) ^ e)) =
      (if negative then -1 else 1) * (digits * (2 : ℝ) ^ e) := by
    have hbits (n : ℤ) (hn : |n| = digits) :=
      nearestSigned_of_bits (n := n) (e := e) (by rw [hn]; exact_mod_cast hdigits) he
    cases negative
    · simpa using hbits digits (by simp)
    · simpa using hbits (-digits) (by simp)
  have hrange : InRange ((if negative then -1 else 1) * (digits * (2 : ℝ) ^ e)) :=
    hin.of_abs_le (by cases negative <;> simp)
  obtain ⟨hfinite, hvalue⟩ := value_of_rounded hnan hplace hrange
  exact ⟨hfinite, hvalue.trans hexact⟩

/-- The magnitude of a number has at most fifty-three bits. -/
theorem bounds_of_magnitude? {m : Magnitude} (h : magnitude? x = some m) :
    m.digits < 2 ^ 53 ∧ -1074 ≤ m.exponent := by
  have hcanonical := canonical_unpack x
  unfold magnitude? at h
  generalize x.toModel.unpack = u at h hcanonical
  cases u with
  | notANumber | infinity => cases h
  | zero =>
    cases h
    constructor <;> norm_num
  | finite =>
    cases h
    exact ⟨hcanonical.1, hcanonical.2.1⟩

/-- What is left of a real when whole periods are taken away from it, towards zero. -/
structure IsRemainder (x y r : ℝ) : Prop where
  /-- Whole periods are taken away. -/
  congruent : ∃ n : ℤ, x = n * y + r
  /-- Less than a period is left. -/
  lt : |r| < |y|
  /-- Nothing below zero is left of what is not below zero. -/
  nonneg : 0 ≤ x → 0 ≤ r
  /-- Nothing above zero is left of what is not above zero. -/
  nonpos : x ≤ 0 → r ≤ 0

/-- The remainder of sizes is one of numbers under the sign of the first one. -/
theorem IsRemainder.of_abs {x y r : ℝ} {k : ℕ} (hx : |x| = k * |y| + r) (hr : 0 ≤ r) (hlt : r < |y|) {s : ℝ}
    (hs : s = -1 ∧ x = -|x| ∨ s = 1 ∧ x = |x|) : IsRemainder x y (s * r) := by
  have hwhole : ∃ n : ℤ, (n : ℝ) * y = k * |y| := by
    rcases abs_choice y with habs | habs
    · exact ⟨k, by rw [habs]; norm_cast⟩
    · exact ⟨-k, by rw [habs]; push_cast; ring⟩
  obtain ⟨n, hn⟩ := hwhole
  have hsize := abs_nonneg x
  rcases hs with ⟨rfl, hneg⟩ | ⟨rfl, hpos⟩
  · refine ⟨⟨-n, ?_⟩, ?_, fun hnonneg => ?_, fun _ => by linarith⟩
    · rw [hneg, hx]
      push_cast
      linarith
    · rwa [neg_one_mul, abs_neg, abs_of_nonneg hr]
    · have := mul_nonneg (Nat.cast_nonneg (α := ℝ) k) (abs_nonneg y)
      linarith
  · refine ⟨⟨n, ?_⟩, ?_, fun _ => by linarith, fun hnonpos => ?_⟩
    · rw [hpos, hx]
      linarith
    · rwa [one_mul, abs_of_nonneg hr]
    · have := mul_nonneg (Nat.cast_nonneg (α := ℝ) k) (abs_nonneg y)
      linarith

/-- On the finer of the grids of two magnitudes, what is left of one has at most fifty-three bits. -/
theorem onGrid_mod_lt {m d : Magnitude} (hm : m.digits < 2 ^ 53) (hd : d.digits < 2 ^ 53)
    (hdigits : d.digits ≠ 0) :
    m.onGrid (min m.exponent d.exponent) % d.onGrid (min m.exponent d.exponent) < 2 ^ 53 := by
  have hpos {e : ℤ} : 0 < d.onGrid e := Nat.mul_pos (Nat.pos_of_ne_zero hdigits) (Nat.pow_pos (by decide))
  rcases min_choice m.exponent d.exponent with hmin | hmin <;> rw [hmin]
  · exact (Nat.mod_le _ _).trans_lt (by simpa [Magnitude.onGrid] using hm)
  · exact (Nat.mod_lt _ hpos).trans (by simpa [Magnitude.onGrid] using hd)

/-- What is divided is so many times the divisor and what is left, in any unit. -/
theorem cast_div_add_mod (m d : ℕ) (unit : ℝ) :
    m * unit = (m / d : ℕ) * (d * unit) + (m % d : ℕ) * unit := by
  calc m * unit = (d * (m / d) + m % d : ℕ) * unit := by rw [Nat.div_add_mod]
    _ = (m / d : ℕ) * (d * unit) + (m % d : ℕ) * unit := by
      push_cast
      ring

/-- The remainder of two numbers is exact. -/
theorem isRemainder_truncatedRemainder (hx : x.isFinite = true) (hy : y.isFinite = true)
    (hzero : value y ≠ 0) : (truncatedRemainder x y).isFinite = true ∧
      IsRemainder (value x) (value y) (value (truncatedRemainder x y)) := by
  obtain ⟨m, hm⟩ := magnitude?_of_isFinite hx
  obtain ⟨d, hd⟩ := magnitude?_of_isFinite hy
  obtain ⟨-, hxsize⟩ := abs_value_of_magnitude? hm
  obtain ⟨-, hysize⟩ := abs_value_of_magnitude? hd
  obtain ⟨hmbits, hmleast⟩ := bounds_of_magnitude? hm
  obtain ⟨hdbits, hdleast⟩ := bounds_of_magnitude? hd
  have hdigits : d.digits ≠ 0 := by
    rintro hdigits
    rw [hdigits, Nat.cast_zero, zero_mul] at hysize
    exact hzero (abs_eq_zero.mp hysize)
  have hbits := onGrid_mod_lt hmbits hdbits hdigits
  have heq : truncatedRemainder x y = ofParts (isNegative x)
      (m.onGrid (min m.exponent d.exponent) % d.onGrid (min m.exponent d.exponent))
      (min m.exponent d.exponent) := by
    rw [truncatedRemainder, hm, hd]
    exact if_neg hdigits
  -- On the finer of the two grids both are whole, and so is the remainder.
  rw [← m.onGrid_mul_zpow (min_le_left _ d.exponent)] at hxsize
  rw [← d.onGrid_mul_zpow (min_le_right m.exponent _)] at hysize
  have hleast : -1074 ≤ min m.exponent d.exponent := le_min hmleast hdleast
  rw [heq]
  generalize min m.exponent d.exponent = e at *
  have hscale : (0 : ℝ) < (2 : ℝ) ^ e := by positivity
  have hpos : 0 < d.onGrid e := Nat.mul_pos (Nat.pos_of_ne_zero hdigits) (Nat.pow_pos (by decide))
  have hsmall : ((m.onGrid e % d.onGrid e : ℕ) : ℝ) * (2 : ℝ) ^ e < |value y| := by
    rw [hysize]
    gcongr
    exact Nat.mod_lt _ hpos
  have hin : InRange (((m.onGrid e % d.onGrid e : ℕ) : ℝ) * (2 : ℝ) ^ e) := by
    refine (inRange_value hy).of_abs_le ?_
    rw [abs_of_nonneg (by positivity)]
    exact hsmall.le
  obtain ⟨hfinite, hvalue⟩ := value_ofParts (isNegative x) hbits hleast hin
  have hdivision := cast_div_add_mod (m.onGrid e) (d.onGrid e) ((2 : ℝ) ^ e)
  rw [← hxsize, ← hysize] at hdivision
  refine ⟨hfinite, hvalue ▸ .of_abs hdivision (by positivity) hsmall ?_⟩
  rcases sign_value hx with ⟨hsign, hneg⟩ | ⟨hsign, hnonneg⟩
  · exact .inl ⟨by rw [hsign]; rfl, hneg⟩
  · exact .inr ⟨by rw [hsign]; rfl, hnonneg⟩

theorem eq_zero_of_abs_mul_lt {n : ℤ} {y : ℝ} (h : |n * y| < y) : n = 0 := by
  have hpos : 0 < y := (abs_nonneg _).trans_lt h
  rw [abs_mul, abs_of_pos hpos] at h
  have hlt : |(n : ℝ)| < 1 := lt_of_mul_lt_mul_right (by rwa [one_mul]) hpos.le
  exact Int.abs_lt_one_iff.mp (by exact_mod_cast hlt)

/-- Where a real stands within its period, as it is computed. -/
structure IsPosition (x y c : ℝ) : Prop where
  /-- It is not below zero. -/
  nonneg : 0 ≤ c
  /-- It is not beyond the period. -/
  le : c ≤ y
  /-- Of what is not below zero, it is not the period itself either. -/
  lt : 0 ≤ x → c < y
  /-- Nor is it of anything among the smallest numbers. -/
  lt_of_small : y < (2 : ℝ) ^ (-1021 : ℤ) → c < y
  /-- Up to a rounding, whole periods are taken away. -/
  near : ∃ n : ℤ, |c - (x + n * y)| ≤ roundoff * y
  /-- Less than a period below zero, one period is added. -/
  below : -y < x → x < 0 → c = nearestSigned (x + y)

/-- A remainder that is not below zero is the position. -/
theorem IsRemainder.isPosition {x y r : ℝ} (h : IsRemainder x y r) (hpos : 0 < y) (hr : 0 ≤ r) :
    IsPosition x y r := by
  obtain ⟨⟨n, hn⟩, hlt, -, hnonpos⟩ := h
  rw [abs_of_pos hpos, abs_of_nonneg hr] at hlt
  refine ⟨hr, hlt.le, fun _ => hlt, fun _ => hlt, ⟨-n, ?_⟩, fun hfar hbelow => ?_⟩
  · have hroom := mul_nonneg roundoff_pos.le hpos.le
    rw [hn]
    push_cast
    simpa using hroom
  · -- Nothing is left of a whole number of periods only.
    have hleft : r = 0 := le_antisymm (hnonpos hbelow.le) hr
    have hzero : n = 0 := eq_zero_of_abs_mul_lt (y := y) (abs_lt.mpr ⟨by linarith, by linarith⟩)
    rw [hn, hzero, hleft] at hbelow
    simp at hbelow

/-- To one below zero the period is added. -/
theorem isPosition_add {r : Float} (hr : r.isFinite = true) (hy : y.isFinite = true) (hpos : 0 < value y)
    {p : ℝ} (h : IsRemainder p (value y) (value r)) (hneg : value r < 0) :
    (r + y.abs).isFinite = true ∧ IsPosition p (value y) (value (r + y.abs)) := by
  obtain ⟨⟨n, hn⟩, hlt, hnonneg, -⟩ := h
  obtain ⟨habs, habsvalue⟩ := value_abs hy
  rw [abs_of_pos hpos] at habsvalue hlt
  obtain ⟨hlow, hhigh⟩ := abs_lt.mp hlt
  have hbelow : p < 0 := not_le.mp fun hle => (hnonneg hle).not_gt hneg
  have hsize : |value r + value y| ≤ value y := abs_le.mpr ⟨by linarith, by linarith⟩
  have hin : InRange (value r + value y.abs) :=
    habsvalue ▸ (inRange_value hy).of_abs_le (hsize.trans (le_abs_self _))
  obtain ⟨hplace, hnan⟩ := place_add hr habs
  obtain ⟨hfinite, hvalue⟩ := value_of_rounded hnan hplace hin
  obtain ⟨-, herror⟩ := value_add_error hr habs hin
  rw [habsvalue] at hvalue herror
  refine ⟨hfinite, ?_, ?_, fun hle => absurd hbelow (not_lt.mpr hle), fun hsmall => ?_, ⟨1 - n, ?_⟩,
    fun hfar _ => ?_⟩
  · rw [hvalue]
    exact nearestSigned_nonneg (by linarith)
  · rw [hvalue]
    conv_rhs => rw [← nearestSigned_value (x := y)]
    exact nearestSigned_mono (by linarith)
  · rw [hvalue, nearestSigned_of_small (onLeastGrid_value.add onLeastGrid_value) (hsize.trans_lt hsmall)]
    linarith
  · have hsum : p + ((1 - n : ℤ) : ℝ) * value y = value r + value y := by
      rw [hn]
      push_cast
      ring
    rw [hsum]
    exact herror.trans (mul_le_mul_of_nonneg_left hsize roundoff_pos.le)
  · have hzero : n = 0 := eq_zero_of_abs_mul_lt (y := value y) (abs_lt.mpr ⟨by linarith, by linarith⟩)
    rw [hvalue, hn, hzero, Int.cast_zero, zero_mul, zero_add]

/-- The position within a period is exact, except that the period that is added below zero rounds. -/
theorem isPosition_cycleRemainder (hx : x.isFinite = true) (hy : y.isFinite = true) (hpos : 0 < value y) :
    (cycleRemainder x y).isFinite = true ∧ IsPosition (value x) (value y) (value (cycleRemainder x y)) := by
  obtain ⟨hr, hrem⟩ := isRemainder_truncatedRemainder hx hy hpos.ne'
  unfold cycleRemainder
  simp only
  split_ifs with hneg
  · rw [lt_iff_value hr rfl, value_zero] at hneg
    exact isPosition_add hr hy hpos hrem hneg
  · rw [lt_iff_value hr rfl, value_zero, not_lt] at hneg
    exact ⟨hr, hrem.isPosition hpos hneg⟩

/-- Within the first period a number is its own position. -/
theorem value_cycleRemainder_of_lt (hx : x.isFinite = true) (hy : y.isFinite = true) (hnonneg : 0 ≤ value x)
    (hlt : value x < value y) : value (cycleRemainder x y) = value x := by
  have hpos : 0 < value y := hnonneg.trans_lt hlt
  obtain ⟨hr, ⟨n, hn⟩, hsmall, hrnonneg, -⟩ := isRemainder_truncatedRemainder hx hy hpos.ne'
  have hleft := hrnonneg hnonneg
  rw [abs_of_nonneg hleft, abs_of_pos hpos] at hsmall
  have hzero : n = 0 := eq_zero_of_abs_mul_lt (y := value y) (abs_lt.mpr ⟨by linarith, by linarith⟩)
  rw [hzero, Int.cast_zero, zero_mul, zero_add] at hn
  unfold cycleRemainder
  simp only
  rw [if_neg, ← hn]
  rw [lt_iff_value hr rfl, value_zero, not_lt]
  exact hleft

/-- What is not finite has no position. -/
theorem isNaN_cycleRemainder (hx : x.isFinite = false) : (cycleRemainder x y).isNaN = true := by
  have hmagnitude : magnitude? x = none := by
    by_contra hsome
    obtain ⟨m, hm⟩ := Option.ne_none_iff_exists'.mp hsome
    rw [(abs_value_of_magnitude? hm).1] at hx
    cases hx
  have hundefined : truncatedRemainder x y = 0.0 / 0.0 := by rw [truncatedRemainder, hmagnitude]
  have hnot : ¬ (0.0 / 0.0 : Float) < 0.0 := by decide +kernel
  rw [cycleRemainder, hundefined]
  simp only [if_neg hnot]
  decide +kernel

end Cadence.Number
