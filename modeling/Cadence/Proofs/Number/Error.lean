import Mathlib
import Cadence.Proofs.Number.Cycle
import Cadence.Proofs.Number.Multiple
import Cadence.Proofs.Number.Range
import Cadence.Proofs.Number.ReadBack

/-!
# Rounding errors

How far an operation is from its exact result. Rounding to the nearest number makes an error of at most
`roundoff` times the exact result, unless that lies among the smallest numbers and between two of them.

- `abs_nearest_sub_le`: a result is off by at most half of the last bit that is kept;
- `abs_nearestSigned_sub_le`: so the error is relative for a result that is `Roundable`, as every sum and every
  difference of numbers is;
- `value_add_error`, `value_sub_error`, `value_mul_error` and `value_div_error`: what each operation is off by;
- `value_half`: half of a number is exact, unless it is among the smallest numbers;
- `value_floor`: the whole part of a number is exact.
-/

namespace Cadence.Number

open Float.Model

/-! ## One rounding -/

theorem roundoff_pos : 0 < roundoff := by
  unfold roundoff
  positivity

theorem roundoff_le : roundoff ≤ 1 / 8 := by
  unfold roundoff
  norm_num

theorem roundoff_small : roundoff ≤ 1 / 2 ^ 50 := by
  unfold roundoff
  norm_num

/-- Rounding to a whole number makes an error of at most one half. -/
theorem abs_nearestEven_sub_le (x : ℝ) : |(nearestEven x : ℝ) - x| ≤ 1 / 2 := by
  have hx := Int.floor_add_fract x
  have hnonneg := Int.fract_nonneg x
  have hlt := Int.fract_lt_one x
  unfold nearestEven
  split_ifs with hbelow hhalf
  · rw [abs_le]
    constructor <;> linarith
  · rcases Int.emod_two_eq_zero_or_one ⌊x⌋ with heven | hodd
    · rw [heven, add_zero, abs_le]
      constructor <;> linarith
    · rw [hodd, Int.cast_add, Int.cast_one, abs_le]
      constructor <;> linarith
  · rw [Int.cast_add, Int.cast_one, abs_le]
    have := not_lt.mp hbelow
    constructor <;> linarith

/-- A result is off by at most half of the last bit that is kept. -/
theorem abs_nearest_sub_le (q : ℝ) : |nearest q - q| ≤ (2 : ℝ) ^ gridExponent q / 2 := by
  have hscale : (0 : ℝ) < (2 : ℝ) ^ gridExponent q := by positivity
  have hsplit : nearest q - q = (nearestEven (q / (2 : ℝ) ^ gridExponent q) -
      q / (2 : ℝ) ^ gridExponent q) * (2 : ℝ) ^ gridExponent q := by
    rw [sub_mul, div_mul_cancel₀ _ hscale.ne']
    rfl
  rw [hsplit, abs_mul, abs_of_pos hscale]
  refine (mul_le_mul_of_nonneg_right (abs_nearestEven_sub_le _) hscale.le).trans_eq ?_
  ring

theorem Roundable.neg {q : ℝ} (h : Roundable q) : Roundable (-q) := by
  rcases h with hgrid | hlarge
  · exact .inl hgrid.neg
  · exact .inr (by rwa [abs_neg])

/-- Above the smallest numbers the last bit that is kept is the fifty-third one. -/
theorem abs_nearest_sub_le_of_large {q : ℝ} (hq : 0 < q) (hlog : -1022 ≤ Int.log 2 q) :
    |nearest q - q| ≤ roundoff * q := by
  refine (abs_nearest_sub_le q).trans ?_
  have hgrid : gridExponent q = Int.log 2 q + (-53) + 1 := by
    unfold gridExponent
    omega
  rw [hgrid, zpow_add_one₀ two_ne_zero, mul_div_cancel_right₀ _ two_ne_zero, zpow_add₀ two_ne_zero, mul_comm]
  exact mul_le_mul_of_nonneg_left (log_bounds hq).1 roundoff_pos.le

theorem abs_nearest_sub_le_of_roundable {q : ℝ} (hq : 0 ≤ q) (h : Roundable q) :
    |nearest q - q| ≤ roundoff * q := by
  rcases hq.eq_or_lt with rfl | hpos
  · simp
  by_cases hlog : -1022 ≤ Int.log 2 q
  · exact abs_nearest_sub_le_of_large hpos hlog
  · -- Below that only multiples of the smallest number are left, which are numbers themselves.
    rcases h with hmultiple | hlarge
    · have hgrid : gridExponent q ≤ -1074 := by
        unfold gridExponent
        omega
      rw [OnGrid.nearest_eq hmultiple hgrid, sub_self, abs_zero]
      exact mul_nonneg roundoff_pos.le hq
    · rw [abs_of_pos hpos] at hlarge
      exact absurd ((Int.zpow_le_iff_le_log (by norm_num) hpos).mp (by exact_mod_cast hlarge)) hlog

theorem abs_nearestSigned_sub_le {q : ℝ} (h : Roundable q) :
    |nearestSigned q - q| ≤ roundoff * |q| := by
  unfold nearestSigned
  split_ifs with hq
  · rw [abs_of_neg hq, show -nearest (-q) - q = -(nearest (-q) - -q) by ring, abs_neg]
    exact abs_nearest_sub_le_of_roundable (by linarith) h.neg
  · rw [abs_of_nonneg (not_lt.mp hq)]
    exact abs_nearest_sub_le_of_roundable (not_lt.mp hq) h

/-- Between the smallest numbers the error is half of the smallest one. -/
theorem abs_nearestSigned_sub_le_add (q : ℝ) :
    |nearestSigned q - q| ≤ roundoff * |q| + (2 : ℝ) ^ (-1075 : ℤ) := by
  by_cases h : Roundable q
  · have hhalf : (0 : ℝ) < (2 : ℝ) ^ (-1075 : ℤ) := by positivity
    linarith [abs_nearestSigned_sub_le h]
  have hsmall : |q| < (2 : ℝ) ^ (-1022 : ℤ) := not_le.mp fun hle => h (.inr hle)
  have hnearest {p : ℝ} (hp : 0 ≤ p) (hlt : p < (2 : ℝ) ^ (-1022 : ℤ)) :
      |nearest p - p| ≤ (2 : ℝ) ^ (-1075 : ℤ) := by
    rcases hp.eq_or_lt with rfl | hpos
    · rw [nearest_zero, sub_zero, abs_zero]
      positivity
    have hgrid : gridExponent p = -1075 + 1 := by
      have := (Int.lt_zpow_iff_log_lt (b := 2) (by norm_num) hpos).mp (by exact_mod_cast hlt)
      unfold gridExponent
      omega
    have hle := abs_nearest_sub_le p
    rwa [hgrid, zpow_add_one₀ two_ne_zero, mul_div_cancel_right₀ _ two_ne_zero] at hle
  have hrelative : 0 ≤ roundoff * |q| := mul_nonneg roundoff_pos.le (abs_nonneg q)
  refine le_trans ?_ (le_add_of_nonneg_left hrelative)
  unfold nearestSigned
  split_ifs with hq
  · rw [show -nearest (-q) - q = -(nearest (-q) - -q) by ring, abs_neg]
    exact hnearest (by linarith) (by rwa [← abs_of_neg hq])
  · exact hnearest (not_lt.mp hq) (by rwa [abs_of_nonneg (not_lt.mp hq)] at hsmall)

/-! ## Operations -/

variable {x y r : Float} {q : ℝ}

theorem value_of_rounded (hnan : r.isNaN = false) (h : place r = rounded q) (hin : InRange q) :
    r.isFinite = true ∧ value r = nearestSigned q :=
  isFinite_of_place hnan (h.trans ((rounded_eq_coe_iff q).mpr hin))

/-- A result in range is off by a relative error. -/
theorem value_error (hnan : r.isNaN = false) (h : place r = rounded q) (hin : InRange q)
    (hq : Roundable q) : r.isFinite = true ∧ |value r - q| ≤ roundoff * |q| := by
  obtain ⟨hfinite, hvalue⟩ := value_of_rounded hnan h hin
  exact ⟨hfinite, hvalue ▸ abs_nearestSigned_sub_le hq⟩

theorem value_add_error (hx : x.isFinite = true) (hy : y.isFinite = true)
    (hin : InRange (value x + value y)) :
    (x + y).isFinite = true ∧ |value (x + y) - (value x + value y)| ≤ roundoff * |value x + value y| :=
  value_error (place_add hx hy).2 (place_add hx hy).1 hin (.inl (onLeastGrid_value.add onLeastGrid_value))

theorem value_sub_error (hx : x.isFinite = true) (hy : y.isFinite = true)
    (hin : InRange (value x - value y)) :
    (x - y).isFinite = true ∧ |value (x - y) - (value x - value y)| ≤ roundoff * |value x - value y| :=
  value_error (place_sub hx hy).2 (place_sub hx hy).1 hin
    (.inl (sub_eq_add_neg (value x) _ ▸ onLeastGrid_value.add onLeastGrid_value.neg))

theorem value_mul_error (hx : x.isFinite = true) (hy : y.isFinite = true)
    (hin : InRange (value x * value y)) (hq : Roundable (value x * value y)) :
    (x * y).isFinite = true ∧ |value (x * y) - value x * value y| ≤ roundoff * |value x * value y| :=
  value_error (place_mul hx hy).2 (place_mul hx hy).1 hin hq

theorem value_div_error (hx : x.isFinite = true) (hy : y.isFinite = true) (hzero : value y ≠ 0)
    (hin : InRange (value x / value y)) (hq : Roundable (value x / value y)) :
    (x / y).isFinite = true ∧ |value (x / y) - value x / value y| ≤ roundoff * |value x / value y| :=
  value_error (place_div hx hy hzero).2 (place_div hx hy hzero).1 hin hq

/-- A rounded result is of the size of the exact one. -/
theorem value_between {a b : ℝ} (hnan : r.isNaN = false) (h : place r = rounded q)
    (ha : a ≤ q) (hb : q ≤ b) (hleast : (2 : ℝ) ^ (-1022 : ℤ) ≤ a) (hmost : b ≤ (2 : ℝ) ^ (1023 : ℤ)) :
    r.isFinite = true ∧ a / 2 ≤ value r ∧ value r ≤ 2 * b := by
  have hpos : 0 < q := lt_of_lt_of_le (by positivity) (hleast.trans ha)
  have hq : |q| = q := abs_of_pos hpos
  obtain ⟨hfinite, herror⟩ := value_error hnan h
    (inRange_of_abs_le_two_zpow (by rw [hq]; exact hb.trans hmost)) (.inr (by rw [hq]; exact hleast.trans ha))
  rw [hq] at herror
  have hsmall := mul_le_mul_of_nonneg_right roundoff_le hpos.le
  obtain ⟨hbelow, habove⟩ := abs_le.mp herror
  exact ⟨hfinite, by linarith, by linarith⟩

/-! ## Several operations -/

/-- A relative error is the same in other units. -/
theorem error_div {x y : ℝ} (h : |x - y| ≤ roundoff * |y|) (c : ℝ) :
    |x / c - y / c| ≤ roundoff * |y / c| := by
  rw [← sub_div, abs_div, abs_div, mul_div_assoc']
  gcongr

/-- What is off after a first step is hardly more after a second one. -/
theorem error_trans {o x y tiny : ℝ} (hx : |x - o| ≤ roundoff * |o|)
    (hy : |y - x| ≤ 3 * roundoff * |x| + tiny) : |y - o| ≤ 5 * roundoff * |o| + tiny := by
  have hrel := mul_nonneg roundoff_pos.le (abs_nonneg o)
  have hsmall := mul_le_mul_of_nonneg_right roundoff_le hrel
  have hsize : |x| ≤ |o| + roundoff * |o| := by linarith [abs_sub_abs_le_abs_sub x o]
  have hscaled := mul_le_mul_of_nonneg_left hsize roundoff_pos.le
  linarith [abs_sub_le y x o]

theorem inRange_of_abs_le {q : ℝ} {k : ℤ} (hk : k ≤ 1023) (hle : |q| ≤ (2 : ℝ) ^ k) : InRange q :=
  inRange_of_abs_le_two_zpow (hle.trans (zpow_le_zpow_right₀ (by norm_num) hk))

/-- A relative error does not double a number. -/
theorem abs_le_two_mul_of_error {x y : ℝ} (h : |x - y| ≤ roundoff * |y|) : |x| ≤ 2 * |y| := by
  have hsmall := mul_le_mul_of_nonneg_right roundoff_le (abs_nonneg y)
  linarith [abs_sub_abs_le_abs_sub x y, abs_nonneg y]

/-- What a product is off by once it is divided. -/
theorem value_mul_div_error {z : Float} (hx : x.isFinite = true) (hy : y.isFinite = true)
    (hz : z.isFinite = true) (hzero : value z ≠ 0) (hgrid : OnLeastGrid (value x * value y))
    (hproduct : |value x * value y| ≤ (2 : ℝ) ^ (1000 : ℤ))
    (hquotient : |value x * value y / value z| ≤ (2 : ℝ) ^ (1000 : ℤ)) :
    (x * y / z).isFinite = true ∧ |value (x * y / z) - value x * value y / value z| ≤
      3 * roundoff * |value x * value y / value z| + (2 : ℝ) ^ (-1075 : ℤ) := by
  obtain ⟨hfinite, herror⟩ := value_mul_error hx hy (inRange_of_abs_le (by norm_num) hproduct) (.inl hgrid)
  have hscaled := error_div herror (value z)
  have hdouble := abs_le_two_mul_of_error hscaled
  obtain ⟨hplace, hnan⟩ := place_div hfinite hz hzero
  obtain ⟨hresult, hvalue⟩ := value_of_rounded hnan hplace
    (inRange_of_abs_le (k := 1001) (by norm_num) (hdouble.trans (by
      rw [show (1001 : ℤ) = 1 + 1000 by norm_num, zpow_one_add₀ two_ne_zero]
      gcongr)))
  have hlast := abs_nearestSigned_sub_le_add (value (x * y) / value z)
  rw [← hvalue] at hlast
  have hmore := mul_le_mul_of_nonneg_left hdouble roundoff_pos.le
  have htriangle := abs_sub_le (value (x * y / z)) (value (x * y) / value z) (value x * value y / value z)
  exact ⟨hresult, by linarith⟩

/-- What a sum is off by if its second term already is. -/
theorem value_add_error_of_error {o : ℝ} (hx : x.isFinite = true) (hy : y.isFinite = true)
    (hxle : |value x| ≤ (2 : ℝ) ^ (1000 : ℤ)) (hole : |o| ≤ (2 : ℝ) ^ (1000 : ℤ))
    (herror : |value y - o| ≤ 5 * roundoff * |o| + (2 : ℝ) ^ (-1075 : ℤ)) :
    (x + y).isFinite = true ∧ |value (x + y) - (value x + o)| ≤
      roundoff * |value x| + 7 * roundoff * |o| + (2 : ℝ) ^ (-1074 : ℤ) := by
  have hu := roundoff_pos
  have hsmall : roundoff ≤ 1 / 100 := roundoff_small.trans (by norm_num)
  have htiny : (0 : ℝ) < (2 : ℝ) ^ (-1075 : ℤ) := by positivity
  have htwice : (2 : ℝ) ^ (-1074 : ℤ) = 2 * (2 : ℝ) ^ (-1075 : ℤ) := by
    rw [← zpow_one_add₀ two_ne_zero]
    norm_num
  have hrel : 0 ≤ roundoff * |o| := mul_nonneg hu.le (abs_nonneg o)
  have hpercent := mul_le_mul_of_nonneg_right hsmall (abs_nonneg o)
  have hsize : |value y| ≤ |o| + 5 * (roundoff * |o|) + (2 : ℝ) ^ (-1075 : ℤ) := by
    linarith [abs_sub_abs_le_abs_sub (value y) o]
  have hsum := abs_add_le (value x) (value y)
  have hin : |value x + value y| ≤ (2 : ℝ) ^ (1002 : ℤ) := by
    have hroom : (2 : ℝ) ^ (1002 : ℤ) = 4 * (2 : ℝ) ^ (1000 : ℤ) := by
      rw [show (1002 : ℤ) = 2 + 1000 by norm_num, zpow_add₀ two_ne_zero]
      norm_num
    have hone : (2 : ℝ) ^ (-1075 : ℤ) ≤ (2 : ℝ) ^ (1000 : ℤ) := zpow_le_zpow_right₀ (by norm_num) (by norm_num)
    rw [hroom]
    generalize (2 : ℝ) ^ (1000 : ℤ) = room at hxle hole hone ⊢
    linarith
  obtain ⟨hfinite, hlast⟩ := value_add_error hx hy (inRange_of_abs_le (by norm_num) hin)
  refine ⟨hfinite, ?_⟩
  have hless : roundoff * |value x + value y| ≤ roundoff * |value x| + 2 * (roundoff * |o|) +
      (2 : ℝ) ^ (-1075 : ℤ) := by
    nlinarith
  have htriangle : |value (x + y) - (value x + o)| ≤
      |value (x + y) - (value x + value y)| + |value y - o| := by
    have := abs_sub_le (value (x + y)) (value x + value y) (value x + o)
    rwa [add_sub_add_left_eq_sub] at this
  rw [htwice]
  linarith

/-! ## Comparisons -/

theorem lt_iff_value (hx : x.isFinite = true) (hy : y.isFinite = true) : x < y ↔ value x < value y := by
  rw [lt_iff, place_eq_value hx, place_eq_value hy, EReal.coe_lt_coe_iff]
  exact ⟨fun h => h.2.2, fun h => ⟨isNaN_of_isFinite hx, isNaN_of_isFinite hy, h⟩⟩

theorem le_iff_value (hx : x.isFinite = true) (hy : y.isFinite = true) : x ≤ y ↔ value x ≤ value y := by
  rw [le_iff, place_eq_value hx, place_eq_value hy, EReal.coe_le_coe_iff]
  exact ⟨fun h => h.2.2, fun h => ⟨isNaN_of_isFinite hx, isNaN_of_isFinite hy, h⟩⟩

/-- The larger of two finite numbers is finite. -/
theorem value_larger (hx : x.isFinite = true) (hy : y.isFinite = true) :
    (larger x y).isFinite = true ∧ value (larger x y) = max (value x) (value y) := by
  rw [larger, isNaN_of_isFinite hx, if_neg Bool.false_ne_true]
  split_ifs with h
  · exact ⟨hy, (max_eq_right ((lt_iff_value hx hy).mp h).le).symm⟩
  · exact ⟨hx, (max_eq_left (not_lt.mp fun hlt => h ((lt_iff_value hx hy).mpr hlt))).symm⟩

/-! ## Halves -/

/-- Half of a number has one exponent less. -/
theorem log_half {q : ℝ} (hq : 0 < q) : Int.log 2 (q / 2) = Int.log 2 q - 1 := by
  have hhalf : 0 < q / 2 := half_pos hq
  obtain ⟨hlow, hhigh⟩ := log_bounds hq
  refine le_antisymm ?_ ?_
  · refine Int.le_sub_one_of_lt ((Int.lt_zpow_iff_log_lt (by norm_num) hhalf).mp ?_)
    push_cast
    rw [zpow_add_one₀ two_ne_zero] at hhigh
    linarith
  · refine (Int.zpow_le_iff_le_log (by norm_num) hhalf).mp ?_
    push_cast
    rw [zpow_sub_one₀ two_ne_zero]
    linarith

/-- Unless it is among the smallest numbers, half of a number has its last bit at half of the last bit. -/
theorem gridExponent_half {q : ℝ} (hq : (2 : ℝ) ^ (-1021 : ℤ) ≤ q) :
    gridExponent q = gridExponent (q / 2) + 1 := by
  have hpos : 0 < q := lt_of_lt_of_le (by positivity) hq
  have hlog : -1021 ≤ Int.log 2 q := (Int.zpow_le_iff_le_log (by norm_num) hpos).mp (by exact_mod_cast hq)
  unfold gridExponent
  rw [log_half hpos]
  omega

/-- Half of a number is rounded, and it does not overflow. -/
theorem value_half_eq (hx : x.isFinite = true) :
    (x / 2.0).isFinite = true ∧ value (x / 2.0) = nearestSigned (value x / 2) := by
  obtain ⟨hplace, hnan⟩ := place_div hx (y := 2.0) (by decide +kernel) (by rw [value_two]; norm_num)
  rw [value_two] at hplace
  refine value_of_rounded hnan hplace ((inRange_value hx).of_abs_le ?_)
  rw [abs_div, abs_two]
  linarith [abs_nonneg (value x)]

theorem isFinite_half (hx : x.isFinite = true) (hnonneg : 0 ≤ value x) :
    (x / 2.0).isFinite = true ∧ 0 ≤ value (x / 2.0) := by
  obtain ⟨hfinite, hvalue⟩ := value_half_eq hx
  have hmono := nearestSigned_mono (show 0 ≤ value x / 2 by linarith)
  rw [nearestSigned_zero, ← hvalue] at hmono
  exact ⟨hfinite, hmono⟩

/-- It is no larger than the number. -/
theorem value_half_le (hx : x.isFinite = true) (hnonneg : 0 ≤ value x) : value (x / 2.0) ≤ value x := by
  have hmono := nearestSigned_mono (show value x / 2 ≤ value x by linarith)
  rwa [← (value_half_eq hx).2, nearestSigned_value] at hmono

/-- Unless it is among the smallest numbers, it is exact. -/
theorem value_half (hx : x.isFinite = true) (hle : (2 : ℝ) ^ (-1021 : ℤ) ≤ value x) :
    value (x / 2.0) = value x / 2 := by
  have hpos : 0 < value x := lt_of_lt_of_le (by positivity) hle
  obtain ⟨n, hn⟩ := onGrid_value (x := x) hpos (le_abs_self _)
  rw [(value_half_eq hx).2]
  refine OnGrid.nearestSigned_eq_of_le (q := value x / 2) ⟨n, ?_⟩ (abs_of_pos (half_pos hpos)).le
  rw [gridExponent_half hle, zpow_add_one₀ two_ne_zero] at hn
  linarith

/-! ## Whole numbers -/

/-- A whole number of at most fifty-three bits is not changed by rounding. -/
theorem nearestSigned_intCast {n : ℤ} (h : |n| < 2 ^ 53) : nearestSigned n = n := by
  simpa using nearestSigned_of_bits (e := 0) h (by norm_num)

/-- A result that is such a whole number is exact. -/
theorem value_of_whole (hnan : r.isNaN = false) {n : ℤ} (h : place r = rounded n) (hn : |n| < 2 ^ 53) :
    r.isFinite = true ∧ value r = n := by
  have hin : InRange n := by
    refine inRange_of_abs_le_two_zpow ?_
    have hle : |(n : ℝ)| ≤ (2 : ℝ) ^ (53 : ℤ) := by exact_mod_cast hn.le
    exact hle.trans (zpow_le_zpow_right₀ (by norm_num) (by norm_num))
  obtain ⟨hfinite, hvalue⟩ := value_of_rounded hnan h hin
  exact ⟨hfinite, hvalue.trans (nearestSigned_intCast hn)⟩

/-- The number with a whole factor alone is that whole number. -/
theorem value_ofParts_zero (negative : Bool) {n : ℕ} (hn : n < 2 ^ 53) :
    (ofParts negative n 0).isFinite = true ∧
      value (ofParts negative n 0) = ((if negative then -n else n : ℤ) : ℝ) := by
  obtain ⟨hplace, hnan⟩ := place_ofParts negative n 0
  refine value_of_whole hnan ?_ (by cases negative <;> simp <;> omega)
  rw [hplace]
  congr 1
  cases negative <;> simp

/-- The whole part of a negated quotient is one further down if anything is cut off. -/
theorem neg_ediv_natCast (m : ℕ) {k : ℕ} (hk : 0 < k) :
    -(m : ℤ) / k = -((if m % k ≠ 0 then m / k + 1 else m / k : ℕ) : ℤ) := by
  rw [Int.neg_ediv, Int.sign_natCast_of_ne_zero hk.ne']
  by_cases hcut : m % k = 0
  · rw [if_pos (Int.natCast_dvd_natCast.mpr (Nat.dvd_of_mod_eq_zero hcut)), if_neg (not_not.mpr hcut)]
    simp
  · rw [if_neg fun h => hcut (Nat.mod_eq_zero_of_dvd (Int.natCast_dvd_natCast.mp h)), if_pos hcut]
    push_cast
    ring

/-- The whole part of a number with a fraction. -/
theorem value_floor_of_fraction {s : UnpackedFloat.Sign} {m : ℕ} {e : ℤ} {hm : 0 < m}
    (hu : x.toModel.unpack = .finite s m e hm) (he : e < 0) :
    (floor x).isFinite = true ∧ value (floor x) = ⌊value x⌋ := by
  obtain ⟨hbits, -⟩ : CanonicalParts m e := by
    have hcanonical := canonical_unpack x
    rwa [hu] at hcanonical
  have hmagnitude : magnitude? x = some ⟨m, e⟩ := by rw [magnitude?, hu]
  have hk : 0 < 2 ^ (-e).toNat := by positivity
  have hsign := isNegative_of_unpack hu (.inr (.inr ⟨m, e, hm, rfl⟩))
  have hvalue : value x = ((s.apply m : ℤ) : ℝ) / (2 ^ (-e).toNat : ℕ) := by
    rw [value, hu, valueOf, show e = -((-e).toNat : ℤ) by omega, zpow_neg, zpow_natCast]
    simp only [neg_neg, Int.toNat_natCast]
    push_cast
    rw [div_eq_mul_inv]
  -- At least one bit is cut off, so the whole part and the next one have fifty-three bits at most.
  have hhalf : m / 2 ^ (-e).toNat < 2 ^ 52 := by
    refine (Nat.div_lt_iff_lt_mul hk).mpr (hbits.trans_le ?_)
    calc 2 ^ 53 = 2 ^ 52 * 2 ^ 1 := by norm_num
      _ ≤ 2 ^ 52 * 2 ^ (-e).toNat := Nat.mul_le_mul_left _ (Nat.pow_le_pow_right (by norm_num) (by omega))
  have hfloor : ⌊value x⌋ = s.apply m / (2 ^ (-e).toNat : ℕ) := by
    rw [hvalue, Int.floor_div_natCast, Int.floor_intCast]
  have hnonneg : ¬ (m = 0 ∨ 0 ≤ e) := by omega
  rw [hfloor, floor, hmagnitude]
  simp only [if_neg hnonneg, Magnitude.truncate, if_neg (not_le.mpr he), Nat.pow_eq, decide_eq_true_eq]
  cases s with
  | negative =>
    rw [if_pos (hsign.mpr rfl)]
    have hlt : (if m % 2 ^ (-e).toNat ≠ 0 then m / 2 ^ (-e).toNat + 1 else m / 2 ^ (-e).toNat) < 2 ^ 53 := by
      split_ifs <;> omega
    obtain ⟨hfinite, hparts⟩ := value_ofParts_zero true hlt
    refine ⟨hfinite, hparts.trans ?_⟩
    rw [if_pos rfl, ← neg_ediv_natCast m hk]
    rfl
  | positive =>
    rw [if_neg fun h => by cases hsign.mp h]
    exact value_ofParts_zero false (by omega)

/-- The whole part of a number is exact. -/
theorem value_floor (hx : x.isFinite = true) :
    (floor x).isFinite = true ∧ value (floor x) = ⌊value x⌋ := by
  have hwhole {n : ℤ} (hfloor : floor x = x) (hn : value x = n) :
      (floor x).isFinite = true ∧ value (floor x) = ⌊value x⌋ := by
    rw [hfloor, hn, Int.floor_intCast]
    exact ⟨hx, rfl⟩
  have hfinite : x.toModel.unpack.isFinite = true := hx
  cases hu : x.toModel.unpack with
  | notANumber =>
    rw [hu] at hfinite
    cases hfinite
  | infinity s =>
    rw [hu] at hfinite
    cases hfinite
  | zero s =>
    have hmagnitude : magnitude? x = some ⟨0, 0⟩ := by rw [magnitude?, hu]
    refine hwhole (n := 0) (by simp [floor, hmagnitude]) ?_
    rw [value, hu, Int.cast_zero]
    rfl
  | finite s m e hm =>
    have hmagnitude : magnitude? x = some ⟨m, e⟩ := by rw [magnitude?, hu]
    rcases lt_or_ge e 0 with he | he
    · exact value_floor_of_fraction hu he
    · refine hwhole (n := s.apply m * 2 ^ e.toNat) (by simp [floor, hmagnitude, he]) ?_
      have hsplit : (2 : ℝ) ^ e = (2 : ℝ) ^ e.toNat := by rw [← zpow_natCast, Int.toNat_of_nonneg he]
      rw [value, hu, valueOf, hsplit]
      push_cast
      rfl

end Cadence.Number
