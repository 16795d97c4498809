import Mathlib
import Cadence.Number.Ratio
import Cadence.Proofs.Number.Error
import Cadence.Proofs.Number.Notation

/-!
# Ratios and the numbers they stand for

Reducing a ratio to lowest terms does not change what it stands for. Errors come in only on the way from a
binary64 number to a ratio, which takes its decimal to be the number itself, and on the way back, which rounds
three times.

- `rational_reduced?`: lowest terms stand for the same rational;
- `ofFloat?_spec`: the ratio of a number is off by at most two roundings, or the number is taken for zero;
- `toFloat_error`: the number of a ratio is off by at most four.
-/

namespace Cadence.Number

/-- What is cut off a magnitude leaves its whole part. -/
theorem Magnitude.truncate_eq (m : Magnitude) : (m.truncate.1 : ℤ) = ⌊m.real⌋ := by
  unfold Magnitude.truncate Magnitude.real
  split_ifs with hexponent
  · have hwhole : (m.digits : ℝ) * (2 : ℝ) ^ m.exponent = ((m.digits * 2 ^ m.exponent.toNat : ℕ) : ℝ) := by
      rw [← Int.toNat_of_nonneg hexponent, zpow_natCast, Int.toNat_natCast]
      push_cast
      rfl
    rw [hwhole, Int.floor_natCast]
    rfl
  · rw [show m.exponent = -((-m.exponent).toNat : ℤ) by omega, zpow_neg, zpow_natCast, ← div_eq_mul_inv]
    have hdiv := Int.floor_div_natCast (m.digits : ℝ) (2 ^ (-m.exponent).toNat)
    rw [Int.floor_natCast] at hdiv
    push_cast at hdiv ⊢
    simp only [neg_neg, Int.toNat_natCast]
    exact hdiv.symm

namespace Ratio

/-- The rational that a ratio stands for. -/
def rational (a : Ratio) : ℚ := a.num / a.den

/-- That rational as a real. -/
noncomputable def real (a : Ratio) : ℝ := a.num / a.den

theorem cast_rational (a : Ratio) : (a.rational : ℝ) = a.real := by
  unfold rational real
  push_cast
  rfl

/-- A fraction that is reduced to lowest terms is still the same. -/
theorem rational_reduced? {num den : ℕ} {r : Ratio} (h : reduced? num den = some r) :
    r.rational = num / den := by
  simp only [reduced?] at h
  split_ifs at h with hfits
  cases h
  rw [rational, Nat.cast_div_div_div_cancel_right (Nat.gcd_dvd_right num den) (Nat.gcd_dvd_left num den)]

theorem real_reduced? {num den : ℕ} {r : Ratio} (h : reduced? num den = some r) : r.real = num / den := by
  rw [← cast_rational, rational_reduced? h]
  push_cast
  rfl

variable {r : Ratio}

/-! ## From a ratio to a number -/

theorem count_le_two_zpow {n : ℕ} (hn : n ≤ countLimit) : (n : ℝ) ≤ (2 : ℝ) ^ (64 : ℤ) := by
  have hle : n ≤ 2 ^ 64 := hn.trans (by norm_num [countLimit, UInt64.size])
  exact_mod_cast hle

/-- A count is off by a rounding. -/
theorem count_error {n : ℕ} (hn : n ≤ countLimit) :
    (UInt64.ofNat n).toFloat.isFinite = true ∧ |value (UInt64.ofNat n).toFloat - n| ≤ roundoff * n := by
  have hlt : n < 2 ^ 64 := Nat.lt_of_le_pred (by norm_num) hn
  obtain ⟨hplace, hnan⟩ := place_toFloat (UInt64.ofNat n)
  have hcast : (UInt64.ofNat n).toNat = n := UInt64.toNat_ofNat_of_lt' hlt
  rw [hcast] at hplace
  have hin : InRange n := by
    refine inRange_of_abs_le_two_zpow ?_
    rw [Nat.abs_cast]
    exact (count_le_two_zpow hn).trans (zpow_le_zpow_right₀ (by norm_num) (by norm_num))
  have hround : Roundable n := by
    rcases Nat.eq_zero_or_pos n with rfl | hpos
    · exact .inl ⟨0, by simp⟩
    · refine .inr ((zpow_le_one_of_nonpos₀ (by norm_num) (by norm_num)).trans ?_)
      rw [Nat.abs_cast]
      exact_mod_cast hpos
  obtain ⟨hfinite, herror⟩ := value_error hnan hplace hin hround
  rw [Nat.abs_cast] at herror
  exact ⟨hfinite, herror⟩

/-- A rounding of each part of a quotient and one of the quotient itself are an error of at most four. -/
theorem quotient_error {u n d n' d' q : ℝ} (hu : 0 ≤ u) (hsmall : u ≤ 1 / 8) (hn : 0 ≤ n) (hd : 0 < d)
    (hn' : |n' - n| ≤ u * n) (hd' : |d' - d| ≤ u * d) (hq : |q - n' / d'| ≤ u * |n' / d'|) :
    |q - n / d| ≤ 4 * u * (n / d) := by
  obtain ⟨hnlow, hnhigh⟩ := abs_le.mp hn'
  obtain ⟨hdlow, hdhigh⟩ := abs_le.mp hd'
  have hdpos : 0 < d' := by nlinarith
  have hnpos : 0 ≤ n' := by nlinarith
  obtain ⟨x, hx⟩ : ∃ x, x = n / d := ⟨_, rfl⟩
  have hnx : n = x * d := by rw [hx, div_mul_cancel₀ _ hd.ne']
  have hxpos : 0 ≤ x := by rw [hx]; positivity
  have hux : 0 ≤ u * x := mul_nonneg hu hxpos
  -- The quotient of the rounded parts is within two and a half errors.
  have hupper : n' / d' ≤ x + 5 / 2 * (u * x) := by
    rw [div_le_iff₀ hdpos]
    have hfactor : 0 ≤ x + 5 / 2 * (u * x) := by linarith
    nlinarith [mul_le_mul_of_nonneg_left hdlow hfactor, mul_nonneg hux hd.le]
  have hlower : x - 2 * (u * x) ≤ n' / d' := by
    rw [le_div_iff₀ hdpos]
    have hfactor : 0 ≤ x - 2 * (u * x) := by nlinarith
    nlinarith [mul_le_mul_of_nonneg_left hdhigh hfactor, mul_nonneg hux (mul_nonneg hu hd.le)]
  rw [abs_of_nonneg (by positivity : 0 ≤ n' / d')] at hq
  obtain ⟨hqlow, hqhigh⟩ := abs_le.mp hq
  have hlast : u * (n' / d') ≤ 3 / 2 * (u * x) := by nlinarith
  rw [← hx, abs_le]
  constructor <;> nlinarith

/-- A rounded part of a ratio is between one half and twice the largest count, or it is zero. -/
theorem count_bounds {n : ℕ} (hn : n ≤ countLimit) :
    value (UInt64.ofNat n).toFloat ≤ (2 : ℝ) ^ (65 : ℤ) ∧
      (n = 0 → value (UInt64.ofNat n).toFloat = 0) ∧ (0 < n → 1 / 2 ≤ value (UInt64.ofNat n).toFloat) := by
  obtain ⟨-, herror⟩ := count_error hn
  obtain ⟨hlow, hhigh⟩ := abs_le.mp herror
  have hsmall := roundoff_le
  have hpos := roundoff_pos
  have hle := count_le_two_zpow hn
  have hdouble : (2 : ℝ) ^ (65 : ℤ) = 2 * (2 : ℝ) ^ (64 : ℤ) := by norm_num
  refine ⟨by nlinarith, ?_, fun h => ?_⟩
  · rintro rfl
    rw [Nat.cast_zero, sub_zero, mul_zero] at herror
    exact abs_nonpos_iff.mp herror
  · have hone : (1 : ℝ) ≤ n := by exact_mod_cast h
    nlinarith

/-- The number of a ratio is off by at most four roundings. -/
theorem toFloat_error (a : Ratio) :
    a.toFloat.isFinite = true ∧ |value a.toFloat - a.real| ≤ 4 * roundoff * a.real := by
  obtain ⟨hn, hnerror⟩ := count_error a.num_le
  obtain ⟨hd, hderror⟩ := count_error a.den_le
  obtain ⟨hnle, hnzero, hnlow⟩ := count_bounds a.num_le
  obtain ⟨hdle, -, hdlow⟩ := count_bounds a.den_le
  have hdhalf := hdlow a.den_pos
  have hdpos : 0 < value (UInt64.ofNat a.den).toFloat := by linarith
  have hden : (0 : ℝ) < a.den := by exact_mod_cast a.den_pos
  -- Between the smallest and the largest ratio, nothing overflows and nothing is lost.
  have hround : Roundable (value (UInt64.ofNat a.num).toFloat / value (UInt64.ofNat a.den).toFloat) := by
    rcases Nat.eq_zero_or_pos a.num with hzero | hpos
    · exact .inl ⟨0, by rw [hnzero hzero]; simp⟩
    · have hleast : (2 : ℝ) ^ (-66 : ℤ) ≤
          value (UInt64.ofNat a.num).toFloat / value (UInt64.ofNat a.den).toFloat := by
        rw [le_div_iff₀ hdpos]
        calc (2 : ℝ) ^ (-66 : ℤ) * value (UInt64.ofNat a.den).toFloat
            ≤ (2 : ℝ) ^ (-66 : ℤ) * (2 : ℝ) ^ (65 : ℤ) := by gcongr
          _ = 1 / 2 := by norm_num
          _ ≤ _ := hnlow hpos
      have hbottom : (2 : ℝ) ^ (-1022 : ℤ) ≤ (2 : ℝ) ^ (-66 : ℤ) :=
        zpow_le_zpow_right₀ (by norm_num) (by norm_num)
      exact .inr (hbottom.trans (hleast.trans (le_abs_self _)))
  have hin : InRange (value (UInt64.ofNat a.num).toFloat / value (UInt64.ofNat a.den).toFloat) := by
    have hnonneg : 0 ≤ value (UInt64.ofNat a.num).toFloat := by
      rcases Nat.eq_zero_or_pos a.num with hzero | hpos
      · rw [hnzero hzero]
      · linarith [hnlow hpos]
    have htop : (2 : ℝ) ^ (66 : ℤ) ≤ (2 : ℝ) ^ (1023 : ℤ) :=
      zpow_le_zpow_right₀ (by norm_num) (by norm_num)
    refine inRange_of_abs_le_two_zpow (le_trans ?_ htop)
    rw [abs_of_nonneg (div_nonneg hnonneg hdpos.le), div_le_iff₀ hdpos]
    calc value (UInt64.ofNat a.num).toFloat ≤ (2 : ℝ) ^ (66 : ℤ) * (1 / 2) := by
          refine hnle.trans_eq ?_
          norm_num
      _ ≤ _ := by gcongr
  obtain ⟨hfinite, herror⟩ := value_div_error hn hd hdpos.ne' hin hround
  exact ⟨hfinite, quotient_error roundoff_pos.le roundoff_le (Nat.cast_nonneg _) hden hnerror hderror herror⟩

/-! ## Shifting the decimal point -/

variable {x y : Float}

/-- The bound of the test for whole numbers. -/
theorem value_wholeBound :
    (2.220446049250313e-16 : Float).isFinite = true ∧
      value 2.220446049250313e-16 = (2 : ℝ) ^ (-52 : ℤ) := by
  obtain ⟨hfinite, hexact⟩ : (2.220446049250313e-16 : Float).isFinite = true ∧
      exact 2.220446049250313e-16 = (2 : ℚ) ^ (-52 : ℤ) := by decide +kernel
  refine ⟨hfinite, ?_⟩
  rw [← cast_exact, hexact]
  push_cast
  rfl

/-- The distance of a number from its whole part is measured with one rounding. -/
theorem nearlyWhole_iff (hy : y.isFinite = true) :
    nearlyWhole y = true ↔ nearest |⌊value y⌋ - value y| < (2 : ℝ) ^ (-52 : ℤ) := by
  obtain ⟨hfloor, hvalue⟩ := value_floor hy
  obtain ⟨hbound, hboundvalue⟩ := value_wholeBound
  obtain ⟨hplace, hnan⟩ := place_sub hfloor hy
  rw [hvalue] at hplace
  have hin : InRange (⌊value y⌋ - value y) := by
    refine inRange_of_abs_le_two_zpow ?_
    have hone : |(⌊value y⌋ : ℝ) - value y| ≤ 1 := by
      rw [abs_le]
      constructor <;> linarith [Int.floor_le (value y), Int.lt_floor_add_one (value y)]
    exact hone.trans (one_le_zpow₀ (by norm_num) (by norm_num))
  obtain ⟨hdiff, hdiffvalue⟩ := value_of_rounded hnan hplace hin
  obtain ⟨habs, habsvalue⟩ := value_abs hdiff
  rw [nearlyWhole, decide_eq_true_eq, lt_iff_value habs hbound, habsvalue, hdiffvalue, abs_nearestSigned,
    hboundvalue]

theorem nearlyWhole_of_whole (hy : y.isFinite = true) {n : ℤ} (h : value y = n) : nearlyWhole y = true := by
  rw [nearlyWhole_iff hy, h, Int.floor_intCast, sub_self, abs_zero, nearest_zero]
  positivity

/-- A number that passes the test is whole, or it is all but zero. -/
theorem whole_of_nearlyWhole (hy : y.isFinite = true) (hnonneg : 0 ≤ value y) (h : nearlyWhole y = true) :
    value y = ⌊value y⌋ ∨ value y < (2 : ℝ) ^ (-52 : ℤ) := by
  have hpower : nearest ((2 : ℝ) ^ (-52 : ℤ)) = (2 : ℝ) ^ (-52 : ℤ) := by
    obtain ⟨hfinite, hvalue⟩ := value_wholeBound
    have hnumber := nearestSigned_valueOf (canonical_unpack 2.220446049250313e-16)
    rwa [← value, hvalue, nearestSigned, if_neg (not_lt.mpr (by positivity))] at hnumber
  have hnear : |(⌊value y⌋ : ℝ) - value y| < (2 : ℝ) ^ (-52 : ℤ) := by
    by_contra hfar
    rw [nearlyWhole_iff hy] at h
    exact absurd (hpower ▸ nearest_le_nearest (by positivity) (not_lt.mp hfar)) (not_le.mpr h)
  rcases lt_or_ge (value y) 1 with hsmall | hlarge
  · right
    rwa [Int.floor_eq_zero_iff.mpr ⟨hnonneg, hsmall⟩, Int.cast_zero, zero_sub, abs_neg,
      abs_of_nonneg hnonneg] at hnear
  · -- From one on, numbers are that far apart.
    left
    obtain ⟨n, hn⟩ := onGrid_of_two_zpow_le (x := y) (k := 0) (by simpa using hlarge.trans (le_abs_self _))
    have hscale : (0 : ℝ) < (2 : ℝ) ^ (-52 : ℤ) := by positivity
    have hfloor : (⌊value y⌋ : ℝ) = ((⌊value y⌋ * 2 ^ 52 : ℤ) : ℝ) * (2 : ℝ) ^ (-52 : ℤ) := by
      push_cast
      rw [mul_assoc]
      norm_num
    rw [zero_sub] at hn
    rw [hfloor, hn, ← sub_mul, abs_mul, abs_of_pos hscale, mul_lt_iff_lt_one_left hscale, ← hn] at hnear
    have hzero : |⌊value y⌋ * 2 ^ 52 - n| < 1 := by exact_mod_cast hnear
    have heq : n = ⌊value y⌋ * 2 ^ 52 := by
      have := Int.abs_lt_one_iff.mp hzero
      omega
    rw [hfloor, ← heq]
    exact hn

/-- The whole part of the size of a number, if it fits. -/
theorem wholePart?_spec {n : ℕ} (h : wholePart? y = some n) :
    y.isFinite = true ∧ n ≤ countLimit ∧ (n : ℤ) = ⌊|value y|⌋ := by
  unfold wholePart? at h
  cases hm : magnitude? y with
  | none =>
    rw [hm] at h
    cases h
  | some m =>
    simp only [hm] at h
    split_ifs at h with hle
    obtain rfl := Option.some.inj h
    obtain ⟨hfinite, habs⟩ := abs_value_of_magnitude? hm
    refine ⟨hfinite, hle, ?_⟩
    rw [habs]
    exact m.truncate_eq

/-- The powers of ten up to the nineteenth are exact. -/
theorem exact_tenPower : ∀ p : Fin 20, (tenPower 64 10.0 1.0 p).isFinite = true ∧
    exact (tenPower 64 10.0 1.0 p) = (10 : ℚ) ^ (p : ℕ) := by
  decide +kernel

/-- The next ones do not fit in 64 bits. -/
theorem wholePart?_tenPower_large : ∀ p : Fin 33, 20 ≤ (p : ℕ) →
    wholePart? (tenPower 64 10.0 1.0 p) = none := by
  decide +kernel

theorem exact_tenPower_large : (tenPower 64 10.0 1.0 32).isFinite = true ∧
    (2 : ℚ) ^ 106 ≤ exact (tenPower 64 10.0 1.0 32) := by
  decide +kernel

theorem value_tenPower {p : ℕ} (hp : p < 20) :
    (tenPower 64 10.0 1.0 p).isFinite = true ∧ value (tenPower 64 10.0 1.0 p) = (10 : ℝ) ^ p := by
  obtain ⟨hfinite, hexact⟩ := exact_tenPower ⟨p, hp⟩
  refine ⟨hfinite, ?_⟩
  rw [← cast_exact, hexact]
  push_cast
  rfl

/-- The number with its decimal point shifted right. -/
def shifted (x : Float) (places : ℕ) : Float :=
  if places = 0 then x else x * tenPower 64 10.0 1.0 places

theorem shifted_zero (x : Float) : shifted x 0 = x := rfl

/-- The point was shifted from some place on to the first one where nothing is left after it. -/
structure Shift (x : Float) (places : ℕ) (y : Float) (p : ℕ) : Prop where
  /-- The number that was arrived at. -/
  eq : y = shifted x p
  /-- It passes the test for whole numbers. -/
  whole : nearlyWhole y = true
  /-- None before it did, and none was infinite. -/
  before : ∀ k, places ≤ k → k < p → (shifted x k).isInf = false ∧ nearlyWhole (shifted x k) = false

theorem shiftPoint?_spec {fuel places p : ℕ} (h : shiftPoint? x fuel places = some (y, p)) :
    Shift x places y p := by
  induction fuel generalizing places with
  | zero =>
    change (if (shifted x places).isInf = true then none
      else if nearlyWhole (shifted x places) = true then some (shifted x places, places) else none) = _ at h
    split_ifs at h with hinf hwhole
    obtain ⟨rfl, rfl⟩ := Prod.mk.inj (Option.some.inj h)
    exact ⟨rfl, hwhole, fun k hk hlt => absurd hlt (not_lt.mpr hk)⟩
  | succ fuel ih =>
    change (if (shifted x places).isInf = true then none
      else if nearlyWhole (shifted x places) = true then some (shifted x places, places)
      else shiftPoint? x fuel (places + 1)) = _ at h
    split_ifs at h with hinf hwhole
    · obtain ⟨rfl, rfl⟩ := Prod.mk.inj (Option.some.inj h)
      exact ⟨rfl, hwhole, fun k hk hlt => absurd hlt (not_lt.mpr hk)⟩
    · have hlater := ih h
      refine ⟨hlater.eq, hlater.whole, fun k hk hlt => ?_⟩
      rcases hk.eq_or_lt with rfl | hbefore
      · exact ⟨Bool.not_eq_true _ ▸ hinf, Bool.not_eq_true _ ▸ hwhole⟩
      · exact hlater.before k hbefore hlt

namespace Shift

variable {p : ℕ}

/-- A number below the bound of the test passes it as it is. -/
theorem eq_zero_of_small (h : Shift x 0 y p) (hx : x.isFinite = true) (hnonneg : 0 ≤ value x)
    (hsmall : value x < (2 : ℝ) ^ (-52 : ℤ)) : p = 0 := by
  by_contra hp
  obtain ⟨-, hnot⟩ := h.before 0 le_rfl (Nat.pos_of_ne_zero hp)
  rw [shifted_zero, ← Bool.not_eq_true, nearlyWhole_iff hx] at hnot
  have hone : (2 : ℝ) ^ (-52 : ℤ) ≤ 1 := zpow_le_one_of_nonpos₀ (by norm_num) (by norm_num)
  have hnumber : nearest (value x) = value x := by
    have hself := nearestSigned_valueOf (canonical_unpack x)
    rwa [← value, nearestSigned, if_neg (not_lt.mpr hnonneg)] at hself
  refine hnot ?_
  rwa [Int.floor_eq_zero_iff.mpr ⟨hnonneg, hsmall.trans_le hone⟩, Int.cast_zero, zero_sub, abs_neg,
    abs_of_nonneg hnonneg, hnumber]

/-- Any other one is whole after thirty-two places at the latest, if not infinite. -/
theorem le_of_large (h : Shift x 0 y p) (hx : x.isFinite = true)
    (hlarge : (2 : ℝ) ^ (-52 : ℤ) ≤ value x) : p ≤ 32 := by
  by_contra hp
  obtain ⟨hinf, hnot⟩ := h.before 32 (Nat.zero_le _) (not_le.mp hp)
  obtain ⟨hten, hexact⟩ := exact_tenPower_large
  have htenvalue : (2 : ℝ) ^ (106 : ℤ) ≤ value (tenPower 64 10.0 1.0 32) := by
    rw [← cast_exact]
    exact_mod_cast hexact
  change (x * tenPower 64 10.0 1.0 32).isInf = false at hinf
  change nearlyWhole (x * tenPower 64 10.0 1.0 32) = false at hnot
  generalize tenPower 64 10.0 1.0 32 = t at hten htenvalue hinf hnot
  have hproduct : (2 : ℝ) ^ (54 : ℤ) ≤ value x * value t := by
    calc (2 : ℝ) ^ (54 : ℤ) = (2 : ℝ) ^ (-52 : ℤ) * (2 : ℝ) ^ (106 : ℤ) := by norm_num
      _ ≤ value x * value t := by gcongr
  have hpos : 0 < value x * value t := lt_of_lt_of_le (by positivity) hproduct
  have hfinite : (x * t).isFinite = true := by
    rcases finite_or_infinite (place_mul hx hten).2 with hfinite | ⟨s, hs⟩
    · exact hfinite
    · change (x * t).toModel.unpack.isInf = false at hinf
      rw [hs] at hinf
      cases hinf
  have hround : Roundable (value x * value t) := by
    refine .inr (le_trans ?_ (hproduct.trans (le_abs_self _)))
    exact zpow_le_zpow_right₀ (by norm_num) (by norm_num)
  obtain ⟨-, herror⟩ := value_mul_error hx hten ((isFinite_mul_iff hx hten).mp hfinite) hround
  rw [abs_of_pos hpos] at herror
  -- So much is left of it when it is rounded that it is an even number.
  have heven : (2 : ℝ) ^ (53 : ℤ) ≤ |value (x * t)| := by
    have hdouble : (2 : ℝ) ^ (54 : ℤ) = 2 * (2 : ℝ) ^ (53 : ℤ) := by norm_num
    have hlow := (abs_le.mp herror).1
    refine le_trans ?_ (le_abs_self _)
    nlinarith [roundoff_le]
  obtain ⟨n, hn⟩ := onGrid_of_two_zpow_le heven
  have hwhole := nearlyWhole_of_whole hfinite (n := n * 2) (by rw [hn]; push_cast; norm_num)
  rw [hnot] at hwhole
  cases hwhole

end Shift

/-- A shifted number is off by one rounding. -/
theorem shifted_error {p : ℕ} (hp : p < 20) (hx : x.isFinite = true)
    (hlarge : (2 : ℝ) ^ (-52 : ℤ) ≤ value x) (hfinite : (shifted x p).isFinite = true) :
    |value (shifted x p) - value x * (10 : ℝ) ^ p| ≤ roundoff * (value x * (10 : ℝ) ^ p) ∧
      (2 : ℝ) ^ (-52 : ℤ) ≤ value (shifted x p) := by
  have hleast : (0 : ℝ) < (2 : ℝ) ^ (-52 : ℤ) := by positivity
  have hpos : 0 < value x := hleast.trans_le hlarge
  rcases Nat.eq_zero_or_pos p with rfl | hplaces
  · rw [shifted_zero, pow_zero, mul_one, sub_self, abs_zero]
    exact ⟨mul_nonneg roundoff_pos.le hpos.le, hlarge⟩
  · obtain ⟨hten, htenvalue⟩ := value_tenPower hp
    rw [shifted, if_neg hplaces.ne'] at hfinite ⊢
    have hpower : (10 : ℝ) ≤ (10 : ℝ) ^ p := le_self_pow₀ (by norm_num) hplaces.ne'
    have hproduct : 10 * (2 : ℝ) ^ (-52 : ℤ) ≤ value x * (10 : ℝ) ^ p := by nlinarith
    have hround : Roundable (value x * value (tenPower 64 10.0 1.0 p)) := by
      rw [htenvalue]
      have hbottom : (2 : ℝ) ^ (-1022 : ℤ) ≤ (2 : ℝ) ^ (-52 : ℤ) :=
        zpow_le_zpow_right₀ (by norm_num) (by norm_num)
      exact .inr ((hbottom.trans (by linarith)).trans (le_abs_self _))
    obtain ⟨-, herror⟩ := value_mul_error hx hten ((isFinite_mul_iff hx hten).mp hfinite) hround
    rw [htenvalue, abs_of_nonneg (a := value x * (10 : ℝ) ^ p) (by positivity)] at herror
    refine ⟨herror, ?_⟩
    have hsmall := mul_le_mul_of_nonneg_right roundoff_le (by positivity : 0 ≤ value x * (10 : ℝ) ^ p)
    have hlow := (abs_le.mp herror).1
    generalize (2 : ℝ) ^ (-52 : ℤ) = c at hleast hproduct ⊢
    linarith

/-- Shifting finds a ratio that is off by at most one rounding, or takes the number for zero. -/
theorem Shift.error {p n d : ℕ} (hx : x.isFinite = true) (hnonneg : 0 ≤ value x)
    (h : Shift x 0 y p) (hn : wholePart? y = some n) (hd : wholePart? (tenPower 64 10.0 1.0 p) = some d) :
    n = 0 ∧ value x < (2 : ℝ) ^ (-52 : ℤ) ∨ |(n : ℝ) / d - value x| ≤ roundoff * value x := by
  obtain ⟨hfinite, -, hfloor⟩ := wholePart?_spec hn
  rcases lt_or_ge (value x) ((2 : ℝ) ^ (-52 : ℤ)) with hsmall | hlarge
  · left
    obtain rfl := h.eq_zero_of_small hx hnonneg hsmall
    have hone : (2 : ℝ) ^ (-52 : ℤ) ≤ 1 := zpow_le_one_of_nonpos₀ (by norm_num) (by norm_num)
    rw [h.eq, shifted_zero, abs_of_nonneg hnonneg,
      Int.floor_eq_zero_iff.mpr ⟨hnonneg, hsmall.trans_le hone⟩] at hfloor
    exact ⟨by exact_mod_cast hfloor, hsmall⟩
  · right
    have hp : p < 20 := by
      by_contra hp
      have hnone := wholePart?_tenPower_large ⟨p, by have := h.le_of_large hx hlarge; omega⟩ (not_lt.mp hp)
      rw [hnone] at hd
      cases hd
    have hpower : (0 : ℝ) < (10 : ℝ) ^ p := by positivity
    -- The power of ten is exact, and the shifted number is whole.
    have hden : (d : ℝ) = (10 : ℝ) ^ p := by
      obtain ⟨-, -, hwhole⟩ := wholePart?_spec hd
      rw [(value_tenPower hp).2, abs_of_pos hpower, ← Nat.cast_ofNat (R := ℝ), ← Nat.cast_pow,
        Int.floor_natCast] at hwhole
      exact_mod_cast hwhole
    obtain ⟨herror, hlow⟩ := shifted_error hp hx hlarge (h.eq ▸ hfinite)
    rw [← h.eq] at herror hlow
    have hypos : 0 ≤ value y := le_trans (by positivity) hlow
    have hnum : (n : ℝ) = value y := by
      have hwhole := (whole_of_nearlyWhole hfinite hypos h.whole).resolve_right (not_lt.mpr hlow)
      rw [abs_of_nonneg hypos] at hfloor
      rw [hwhole, ← hfloor, Int.cast_natCast]
    rw [hnum, hden, ← mul_div_cancel_right₀ (value x) hpower.ne', ← sub_div, abs_div, abs_of_pos hpower,
      div_le_iff₀ hpower, mul_div_cancel_right₀ _ hpower.ne', mul_assoc]
    exact herror

/-! ## The written form -/

/-- A number that is not below zero is written as its shortest decimal, positionally. -/
theorem toList_text {m : Magnitude} (hm : magnitude? x.abs = some m) (hsign : isNegative x.abs = false) :
    (text x.abs).toList = ((m.shortest .upwards).plain false).toList := by
  have hplain : Layout.running.isPlain (m.shortest .upwards) = true := Bool.or_true _
  have hlayout : (Layout.running.tie, Layout.running.wholePoint) = (.upwards, false) := rfl
  rw [Prod.mk.injEq] at hlayout
  simp only [text, Layout.render, hm, hlayout.1, hlayout.2, hplain, if_true, String.toList_append, hsign]
  rfl

/-- What is written of a decimal without a superfluous point: digits, and digits behind a point. -/
theorem plain_digits {d : Decimal} (hd : 0 < d.digits) :
    ∃ whole places, (∀ c ∈ whole ++ places, c.isDigit = true) ∧ whole ≠ [] ∧
      (d.plain false).toList = whole ++ (if places = [] then [] else '.' :: places) ∧
      Decimal.real ⟨digitsValue (whole ++ places), -(places.length : ℤ)⟩ = d.real := by
  rcases le_or_gt 0 d.exponent with hwhole | hnegative
  · have hparts := plain_of_whole hd hwhole
    refine ⟨_, [], ?_, hparts.wholeDigits.ne_nil, ?_, ?_⟩
    · simpa using hparts.wholeDigits.isDigit
    · simp [Decimal.plain, hwhole, zeros]
    · have hreal := hparts.real_eq
      rw [real_places] at hreal
      rw [List.append_nil, Decimal.real, List.length_nil, ← hreal]
      simp [digitsValue, digitValue]
  · obtain ⟨whole, places, hparts⟩ := plain_parts (d := d) (.inl hd)
    refine ⟨whole, places, ?_, hparts.wholeDigits.ne_nil, ?_, hparts.real_eq⟩
    · intro c hc
      exact (List.mem_append.mp hc).elim (hparts.wholeDigits.isDigit c) (hparts.isDigit c)
    · rw [if_neg hparts.places_ne_nil, ← hparts.toList_eq, Decimal.plain, Decimal.plain,
        if_neg (not_le.mpr hnegative), if_neg (not_le.mpr hnegative)]

/-- Digits are read as the number that they denote. -/
theorem toNat?_ofList {cs : List Char} (hne : cs ≠ []) (hdigits : ∀ c ∈ cs, c.isDigit = true) :
    (String.ofList cs).toNat? = some (digitsValue cs) := by
  have hnat : (String.ofList cs).isNat = true :=
    String.isNat_of_isDigit (by simpa using hne) (by simpa using hdigits)
  rw [String.toNat?_eq_some_ofDigitChars hnat, String.toList_ofList, digitsValue_eq]
  congr 2
  refine List.filter_eq_self.mpr fun c hc => bne_iff_ne.mpr ?_
  rintro rfl
  exact absurd (hdigits _ hc) (by decide)

/-- The digits of a decimal and the place of its point are read off its written form. -/
theorem ofWritten?_eq {whole places : List Char} (hdigits : ∀ c ∈ whole ++ places, c.isDigit = true)
    (hne : whole ≠ [])
    (hwritten : (text x.abs).toList = whole ++ (if places = [] then [] else '.' :: places)) :
    ofWritten? x = if countLimit < digitsValue (whole ++ places) ∨ countLimit < 10 ^ places.length then none
      else reduced? (digitsValue (whole ++ places)) (10 ^ places.length) := by
  have hpoint : ∀ c ∈ whole, decide (c ≠ '.') = true := by
    intro c hc
    refine decide_eq_true ?_
    rintro rfl
    exact absurd (hdigits _ (List.mem_append_left _ hc)) (by decide)
  have hrest : ∀ c ∈ (if places = [] then [] else '.' :: places).head?, decide (c ≠ '.') = false := by
    split_ifs
    · simp
    · simp
  have hplaces : (if places = [] then [] else '.' :: places).drop 1 = places := by
    split_ifs with h
    · rw [h, List.drop_nil]
    · rfl
  simp only [ofWritten?, hwritten, takeWhile_run hpoint hrest, dropWhile_run hpoint hrest, hplaces,
    toNat?_ofList (List.append_ne_nil_of_left_ne_nil hne _) hdigits, Nat.pow_eq]

/-- The written form of a number above zero gives a ratio that is rounded to the number. -/
theorem ofWritten?_spec (hx : x.isFinite = true) (hpos : 0 < value x) (h : ofWritten? x = some r) :
    nearest r.real = value x := by
  obtain ⟨habs, habsvalue⟩ := value_abs hx
  rw [abs_of_pos hpos] at habsvalue
  obtain ⟨m, e, hm, hunpack⟩ := unpack_of_pos habs (by rwa [habsvalue])
  have hsign : isNegative x.abs = false := by
    rw [← Bool.not_eq_true, isNegative_of_unpack hunpack (.inr (.inr ⟨m, e, hm, rfl⟩))]
    exact nofun
  have hmagnitude : magnitude? x.abs = some ⟨m, e⟩ := by rw [magnitude?, hunpack]
  have hreal : Magnitude.real ⟨m, e⟩ = value x := by
    have hsize := (abs_value_of_magnitude? hmagnitude).2
    rw [habsvalue, abs_of_pos hpos] at hsize
    exact hsize.symm
  have hnearest := nearest_shortest (m := ⟨m, e⟩) hm (canonical_of_magnitude? hmagnitude hm) .upwards
  have hdigitspos : 0 < (Magnitude.shortest ⟨m, e⟩ .upwards).digits := by
    refine (shortest_digits hmagnitude .upwards).resolve_right fun hzero => hpos.ne ?_
    rw [← hreal, ← hnearest, hzero]
    simp [Decimal.real]
  obtain ⟨whole, places, hdigits, hne, hwritten, hdecimal⟩ := plain_digits hdigitspos
  rw [ofWritten?_eq hdigits hne ((toList_text hmagnitude hsign).trans hwritten)] at h
  split_ifs at h
  rw [real_reduced? h, ← hreal, ← hnearest, ← hdecimal, Decimal.real, zpow_neg, zpow_natCast, ← div_eq_mul_inv]
  push_cast
  rfl

/-! ## From a number to a ratio -/

/-- Zero is found without a shift. -/
theorem ofFloat?_zero (hx : x.isFinite = true) (hzero : value x = 0) :
    ofFloat? x = some (ofCount 0 (Nat.zero_le _)) := by
  have hshift : shiftPoint? x 400 0 = some (x, 0) := by
    change (if x.isInf = true then none else if nearlyWhole x = true then some (x, 0)
      else shiftPoint? x 399 1) = _
    rw [isInf_of_isFinite hx, nearlyWhole_of_whole hx (n := 0) (by rw [hzero, Int.cast_zero])]
    rfl
  have hnum : wholePart? x = some 0 := by
    obtain ⟨m, hm⟩ := magnitude?_of_isFinite hx
    have htruncate : m.truncate.1 = 0 := by
      unfold Magnitude.truncate
      split_ifs <;> simp [(digits_eq_zero_iff hm).mpr hzero]
    simp [wholePart?, hm, htruncate]
  have hden : wholePart? (tenPower 64 10.0 1.0 0) = some 1 := by decide +kernel
  rw [ofFloat?, hshift]
  simp only [Option.bind_eq_bind, Option.bind_some, hnum, hden]
  rfl

/-- A quotient of counts that is not zero is far from the smallest numbers. -/
theorem least_le_div {n d : ℕ} (hn : n ≠ 0) (hpos : 0 < d) (hd : d ≤ countLimit) :
    (2 : ℝ) ^ (-1022 : ℤ) ≤ n / d := by
  have hden := count_le_two_zpow hd
  have hone : (1 : ℝ) ≤ n := by exact_mod_cast Nat.one_le_iff_ne_zero.mpr hn
  have hdenpos : (0 : ℝ) < d := by exact_mod_cast hpos
  have hbottom : (2 : ℝ) ^ (-1022 : ℤ) ≤ (2 : ℝ) ^ (-64 : ℤ) :=
    zpow_le_zpow_right₀ (by norm_num) (by norm_num)
  refine hbottom.trans ((le_div_iff₀ hdenpos).mpr ?_)
  calc (2 : ℝ) ^ (-64 : ℤ) * d ≤ (2 : ℝ) ^ (-64 : ℤ) * (2 : ℝ) ^ (64 : ℤ) := by gcongr
    _ = 1 := by norm_num
    _ ≤ n := hone

/-- A real that a number is the nearest one to is off by at most two errors of the number. -/
theorem abs_sub_le_of_nearest {q v : ℝ} (hq : (2 : ℝ) ^ (-1022 : ℤ) ≤ q) (h : nearest q = v) :
    |q - v| ≤ 2 * roundoff * v := by
  have hpos : 0 < q := lt_of_lt_of_le (by positivity) hq
  have herror := abs_nearest_sub_le_of_roundable hpos.le (.inr (hq.trans (le_abs_self q)))
  rw [h, abs_sub_comm] at herror
  have hu := roundoff_pos
  have hsmall := roundoff_le
  have hlow := mul_le_mul_of_nonneg_left (abs_le.mp herror).2 hu.le
  refine herror.trans ?_
  nlinarith [mul_nonneg (mul_pos hu hpos).le (by linarith : 0 ≤ 1 - 2 * roundoff)]

/-- The ratio of a number is off by at most two roundings, or the number is taken for zero. -/
theorem ofFloat?_spec (hx : x.isFinite = true) (hnonneg : 0 ≤ value x) (h : ofFloat? x = some r) :
    r.real = 0 ∧ value x < (2 : ℝ) ^ (-52 : ℤ) ∨ |r.real - value x| ≤ 2 * roundoff * value x := by
  rcases hnonneg.eq_or_lt with hzero | hpos
  · rw [ofFloat?_zero hx hzero.symm] at h
    cases h
    refine .inl ⟨by simp [real, ofCount], ?_⟩
    rw [← hzero]
    positivity
  · have hwritten {r : Ratio} (h : ofWritten? x = some r) :
        r.real = 0 ∧ value x < (2 : ℝ) ^ (-52 : ℤ) ∨ |r.real - value x| ≤ 2 * roundoff * value x := by
      have hnearest := ofWritten?_spec hx hpos h
      have hnum : r.num ≠ 0 := by
        intro hzero
        rw [real, hzero, Nat.cast_zero, zero_div, nearest_zero] at hnearest
        exact hpos.ne hnearest
      exact .inr (abs_sub_le_of_nearest (least_le_div hnum r.den_pos r.den_le) hnearest)
    rw [ofFloat?] at h
    cases hshift : shiftPoint? x 400 0 with
    | none =>
      rw [hshift] at h
      exact hwritten h
    | some shift =>
      obtain ⟨y, p⟩ := shift
      rw [hshift] at h
      simp only [Option.bind_eq_bind, Option.bind_some] at h
      cases hn : wholePart? y with
      | none =>
        rw [hn] at h
        exact hwritten h
      | some n =>
        cases hd : wholePart? (tenPower 64 10.0 1.0 p) with
        | none =>
          rw [hn, hd] at h
          exact hwritten h
        | some d =>
          rw [hn, hd] at h
          rw [real_reduced? h]
          rcases (shiftPoint?_spec hshift).error hx hnonneg hn hd with ⟨hzero, hsmall⟩ | herror
          · exact .inl ⟨by rw [hzero, Nat.cast_zero, zero_div], hsmall⟩
          · exact .inr (by linarith [mul_nonneg roundoff_pos.le hnonneg])

end Ratio

end Cadence.Number
