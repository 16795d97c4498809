import Mathlib
import Cadence.Proofs.Number.Arithmetic

/-!
# Which results are finite

An exact result becomes a finite number unless it reaches the middle between the largest number and the
power of two beyond it. From there on it is rounded up to that power, and packed as infinite.

- `isFinite_iff_of_rounded`: a result is finite exactly if the exact one is below that middle;
- `isFinite_add_iff`, `isFinite_mul_iff` and `isFinite_div_iff`: the same for each operation;
- `abs_value_le_of_rounded`: rounding does not carry a result beyond a power of two that it respects.
-/

namespace Cadence.Number

/-- A real is rounded below an even whole number exactly if it is more than one half below it. -/
theorem nearestEven_lt_iff {n : ℤ} (hn : Even n) (x : ℝ) :
    nearestEven x < n ↔ x < n - 1 / 2 := by
  have hx := Int.floor_add_fract x
  have hnonneg := Int.fract_nonneg x
  have hlt := Int.fract_lt_one x
  have hparity : n % 2 = 0 := Int.even_iff.mp hn
  unfold nearestEven
  constructor
  · intro h
    by_contra hge
    -- Then the whole part is at least the odd number below, and halves are rounded away from that.
    have hfloor : n - 1 ≤ ⌊x⌋ := by
      rw [Int.le_floor]
      push_cast
      linarith
    split_ifs at h with hbelow hhalf
    · have : ((n : ℤ) : ℝ) - 1 < ⌊x⌋ := by linarith
      have : n - 1 < ⌊x⌋ := by exact_mod_cast this
      omega
    · omega
    · omega
  · intro h
    split_ifs with hbelow hhalf
    · have : ((⌊x⌋ : ℤ) : ℝ) < n := by linarith
      exact_mod_cast this
    · have : ((⌊x⌋ : ℤ) : ℝ) < n - 1 := by linarith
      have : ⌊x⌋ < n - 1 := by exact_mod_cast this
      omega
    · have habove : 1 / 2 ≤ Int.fract x := not_lt.mp hbelow
      have : ((⌊x⌋ : ℤ) : ℝ) < n - 1 := by
        have := lt_of_le_of_ne habove (Ne.symm hhalf)
        linarith
      have : ⌊x⌋ < n - 1 := by exact_mod_cast this
      omega

/-- Rounding does not carry a real above a power of two. -/
theorem nearest_le_two_zpow_of_le {q : ℝ} (hq : 0 ≤ q) {k : ℤ} (hk : 0 ≤ k)
    (h : q ≤ (2 : ℝ) ^ k) : nearest q ≤ (2 : ℝ) ^ k := by
  rcases hq.eq_or_lt with rfl | hpos
  · rw [nearest_zero]
    positivity
  · refine nearest_le_two_zpow ?_ h
    have hlog : Int.log 2 q ≤ k := by
      have := Int.log_mono_right (b := 2) hpos h
      rwa [show ((2 : ℝ) ^ k) = ((2 : ℕ) : ℝ) ^ k by norm_num,
        Int.log_zpow (by norm_num)] at this
    unfold gridExponent
    omega

/-- In the binade of the largest number the last bit that is kept has the exponent 971. -/
theorem gridExponent_of_top {q : ℝ} (hlow : (2 : ℝ) ^ (1023 : ℤ) ≤ q) (hhigh : q < overflow) :
    gridExponent q = 971 := by
  have hpos : 0 < q := lt_of_lt_of_le (by positivity) hlow
  have hlog : Int.log 2 q = 1023 := by
    refine le_antisymm ?_ ?_
    · have : Int.log 2 q < 1024 := (Int.lt_zpow_iff_log_lt (by norm_num) hpos).mp (by
        rw [show (((2 : ℕ) : ℝ)) = 2 by norm_num]
        exact hhigh)
      omega
    · exact (Int.zpow_le_iff_le_log (by norm_num) hpos).mp (by
        rw [show (((2 : ℕ) : ℝ)) = 2 by norm_num]
        exact hlow)
  unfold gridExponent
  rw [hlog]
  norm_num

theorem overflowBound_lt_overflow : overflowBound < overflow :=
  sub_lt_self _ (by positivity)

theorem two_zpow_lt_overflowBound : (2 : ℝ) ^ (1023 : ℤ) < overflowBound := by
  have hdouble : overflow = (2 : ℝ) ^ (1023 : ℤ) + (2 : ℝ) ^ (1023 : ℤ) := by
    rw [← two_mul, ← zpow_one_add₀ (by norm_num)]
    rfl
  have hless : (2 : ℝ) ^ (970 : ℤ) < (2 : ℝ) ^ (1023 : ℤ) :=
    zpow_lt_zpow_right₀ (by norm_num) (by norm_num)
  rw [overflowBound, hdouble, lt_sub_iff_add_lt]
  exact add_lt_add_right hless _

/-- A real is rounded below the first power of two beyond the largest number exactly if it is below the
middle between the two. -/
theorem nearest_lt_overflow_iff {q : ℝ} (hq : 0 ≤ q) :
    nearest q < overflow ↔ q < overflowBound := by
  rcases lt_or_ge q ((2 : ℝ) ^ (1023 : ℤ)) with hlow | hlow
  · have hnearest := nearest_le_two_zpow_of_le hq (by norm_num) hlow.le
    exact iff_of_true (hnearest.trans_lt (two_zpow_lt_overflowBound.trans overflowBound_lt_overflow))
      (hlow.trans two_zpow_lt_overflowBound)
  rcases lt_or_ge q overflow with hhigh | hhigh
  · -- In this binade the power is an even number of last bits, and the middle is half a bit below it.
    have hscale : (0 : ℝ) < (2 : ℝ) ^ (971 : ℤ) := by positivity
    have hover : overflow = ((2 ^ 53 : ℤ) : ℝ) * (2 : ℝ) ^ (971 : ℤ) := by
      rw [show ((2 ^ 53 : ℤ) : ℝ) = (2 : ℝ) ^ (53 : ℤ) by norm_num, ← zpow_add₀ (by norm_num)]
      rfl
    have hbound : overflowBound = (((2 ^ 53 : ℤ) : ℝ) - 1 / 2) * (2 : ℝ) ^ (971 : ℤ) := by
      rw [overflowBound, hover, sub_mul, show (971 : ℤ) = 970 + 1 by norm_num,
        zpow_add_one₀ (by norm_num)]
      ring
    unfold nearest
    rw [gridExponent_of_top hlow hhigh, hbound, hover, mul_lt_mul_iff_left₀ hscale, Int.cast_lt,
      nearestEven_lt_iff (by decide), div_lt_iff₀ hscale]
  · have hpower : overflow ≤ nearest q := by
      refine le_trans ?_ (nearest_le_nearest overflow_pos.le hhigh)
      refine two_zpow_le_nearest ?_ le_rfl
      unfold gridExponent overflow
      rw [show ((2 : ℝ) ^ (1024 : ℤ)) = ((2 : ℕ) : ℝ) ^ (1024 : ℤ) by norm_num,
        Int.log_zpow (by norm_num)]
      norm_num
    exact iff_of_false (not_lt.mpr hpower) (not_lt.mpr (overflowBound_lt_overflow.le.trans hhigh))

theorem abs_nearestSigned (q : ℝ) : |nearestSigned q| = nearest |q| := by
  unfold nearestSigned
  split_ifs with h
  · rw [abs_neg, abs_of_neg h, abs_of_nonneg (nearest_nonneg (by linarith))]
  · rw [abs_of_nonneg (not_lt.mp h), abs_of_nonneg (nearest_nonneg (not_lt.mp h))]

/-- A rounded result is a real exactly if the exact one is in range. -/
theorem rounded_eq_coe_iff (q : ℝ) : rounded q = nearestSigned q ↔ InRange q := by
  unfold InRange
  rw [← nearest_lt_overflow_iff (abs_nonneg q), ← abs_nearestSigned, abs_lt]
  unfold rounded clip
  constructor
  · intro h
    split_ifs at h with hlow hhigh
    · exact absurd h.symm (EReal.coe_ne_bot _)
    · exact absurd h.symm (EReal.coe_ne_top _)
    · exact ⟨not_le.mp hlow, not_le.mp hhigh⟩
  · rintro ⟨hlow, hhigh⟩
    rw [if_neg (not_le.mpr hlow), if_neg (not_le.mpr hhigh)]

/-- Out of range a rounded result is infinite. -/
theorem rounded_ne_coe {q : ℝ} (h : ¬ InRange q) (r : ℝ) : rounded q ≠ r := by
  rw [← rounded_eq_coe_iff] at h
  intro hr
  unfold rounded clip at h hr
  split_ifs at h hr
  · exact EReal.coe_ne_bot r hr.symm
  · exact EReal.coe_ne_top r hr.symm
  · exact h rfl

variable {x y r : Float} {q : ℝ}

/-- A rounded result is finite exactly if the exact one is in range. -/
theorem isFinite_iff_of_rounded (hnan : r.isNaN = false) (h : place r = rounded q) :
    r.isFinite = true ↔ InRange q := by
  constructor
  · intro hfinite
    by_contra hout
    exact rounded_ne_coe hout (value r) (h.symm.trans (place_eq_value hfinite))
  · intro hin
    exact (isFinite_of_place hnan (h.trans ((rounded_eq_coe_iff q).mpr hin))).1

theorem isFinite_add_iff (hx : x.isFinite = true) (hy : y.isFinite = true) :
    (x + y).isFinite = true ↔ InRange (value x + value y) :=
  isFinite_iff_of_rounded (place_add hx hy).2 (place_add hx hy).1

theorem isFinite_mul_iff (hx : x.isFinite = true) (hy : y.isFinite = true) :
    (x * y).isFinite = true ↔ InRange (value x * value y) :=
  isFinite_iff_of_rounded (place_mul hx hy).2 (place_mul hx hy).1

theorem isFinite_div_iff (hx : x.isFinite = true) (hy : y.isFinite = true)
    (hzero : value y ≠ 0) : (x / y).isFinite = true ↔ InRange (value x / value y) :=
  isFinite_iff_of_rounded (place_div hx hy hzero).2 (place_div hx hy hzero).1

/-- What is computed from an infinite number through its place is infinite. -/
theorem not_isFinite_of_liftPlace {f : ℝ → EReal} (hnan : x.isNaN = false)
    (hinfinite : x.isFinite = false) (h : place r = liftPlace f (place x)) :
    ¬ r.isFinite = true := by
  intro hfinite
  rcases finite_or_infinite hnan with hx | ⟨s, hs⟩
  · rw [hx] at hinfinite
    cases hinfinite
  · rw [place_eq_value hfinite, show place x = placeOf (.infinity s) from congrArg placeOf hs,
      liftPlace_infinity] at h
    cases s
    · exact EReal.coe_ne_bot _ h
    · exact EReal.coe_ne_top _ h

/-- A smaller result than one in range is in range. -/
theorem InRange.of_abs_le {p : ℝ} (h : InRange q) (hle : |p| ≤ |q|) : InRange p :=
  lt_of_le_of_lt hle h

theorem inRange_of_abs_le_two_zpow (h : |q| ≤ (2 : ℝ) ^ (1023 : ℤ)) : InRange q := by
  exact lt_of_le_of_lt h two_zpow_lt_overflowBound

/-- The value of a number is in range. -/
theorem inRange_value (hx : x.isFinite = true) : InRange (value x) :=
  (isFinite_iff_of_rounded (isNaN_of_isFinite hx) (rounded_value hx).symm).mp hx

/-- Rounding does not carry a result beyond a power of two that the exact one respects. -/
theorem abs_value_le_of_rounded (hnan : r.isNaN = false) (h : place r = rounded q) {k : ℤ}
    (hk : 0 ≤ k) (hk' : k ≤ 1023) (hle : |q| ≤ (2 : ℝ) ^ k) :
    r.isFinite = true ∧ |value r| ≤ (2 : ℝ) ^ k := by
  -- The powers of two up to 2 ^ 1023 are numbers themselves, so rounding respects them.
  have hin : InRange q :=
    inRange_of_abs_le_two_zpow (hle.trans (zpow_le_zpow_right₀ (by norm_num) hk'))
  obtain ⟨hfinite, hvalue⟩ := isFinite_of_place hnan (h.trans ((rounded_eq_coe_iff q).mpr hin))
  refine ⟨hfinite, ?_⟩
  rw [hvalue, abs_nearestSigned]
  exact nearest_le_two_zpow_of_le (abs_nonneg q) hk hle

end Cadence.Number
