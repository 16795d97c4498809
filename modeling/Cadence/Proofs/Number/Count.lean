import Mathlib
import Cadence.Proofs.Number.Ratio

/-!
# Numbers and counts

What the count is that a number is rounded to, and what number a count is. From `2 ^ 52` on every number is
whole, so a number that was rounded to a count is that count, up to the largest one. Hence to round the number
of such a count again changes nothing.

- `toNat_roundToCount` and `wholeBelow_eq`: the count of a finite number, and its whole part;
- `value_toFloat_roundToCount`: the number of that count is the count itself, unless it is the largest one;
- `roundToCount_toFloat_roundToCount`: rounding is done once and for all.
-/

namespace Cadence.Number

open Float.Model Float.Model.UnpackedFloat

theorem exists_toNat_eq {n : ℕ} (hn : n < UInt64.size) : ∃ count : UInt64, count.toNat = n :=
  ⟨.ofNat n, UInt64.toNat_ofNat_of_lt' hn⟩

/-- A whole number is rounded to itself. -/
theorem floor_natCast_add_half (n : ℕ) : ⌊(n : ℝ) + 1 / 2⌋₊ = n := by
  rw [Nat.floor_eq_iff (by positivity)]
  constructor <;> norm_num

/-- The magnitude is rounded to the nearest whole number, halves upwards. -/
theorem Magnitude.roundHalfUp_eq (m : Magnitude) : m.roundHalfUp = ⌊m.real + 1 / 2⌋₊ := by
  unfold roundHalfUp Magnitude.real
  split_ifs with hexponent
  · have hwhole : (m.digits : ℝ) * (2 : ℝ) ^ m.exponent = (m.digits * 2 ^ m.exponent.toNat : ℕ) := by
      rw [← Int.toNat_of_nonneg hexponent, zpow_natCast, Int.toNat_natCast]
      push_cast
      rfl
    rw [hwhole, floor_natCast_add_half]
    rfl
  · have hhalf : (m.digits : ℝ) * (2 : ℝ) ^ m.exponent + 1 / 2 =
        ((2 * m.digits + 2 ^ (-m.exponent).toNat : ℕ) : ℝ) / (2 * 2 ^ (-m.exponent).toNat : ℕ) := by
      rw [show m.exponent = -((-m.exponent).toNat : ℤ) by omega, zpow_neg, zpow_natCast]
      simp only [neg_neg, Int.toNat_natCast]
      push_cast
      field_simp
    rw [hhalf, Nat.floor_div_eq_div]
    rfl

variable {x : Float}

/-- The sign bit of a finite number tells on which side of zero it is. -/
theorem sign_value (hx : x.isFinite = true) :
    isNegative x = true ∧ value x = -|value x| ∨ isNegative x = false ∧ value x = |value x| := by
  have hfinite : x.toModel.unpack.isFinite = true := hx
  have hsign {s : Sign} := isNegative_of_unpack (x := x) (s := s) rfl
  rw [value]
  cases hu : x.toModel.unpack with
  | notANumber | infinity =>
    rw [hu] at hfinite
    cases hfinite
  | zero s =>
    cases isNegative x <;> simp [valueOf]
  | finite s m e hm =>
    have hpos := parts_pos e hm
    have hnegative := hsign (.inr (.inr ⟨m, e, hm, hu⟩))
    cases s with
    | negative =>
      refine .inl ⟨hnegative.mpr rfl, ?_⟩
      simp [valueOf, Sign.apply, abs_mul]
    | positive =>
      refine .inr ⟨?_, ?_⟩
      · rw [← Bool.not_eq_true, hnegative]
        exact Sign.noConfusion
      · simp [valueOf, Sign.apply, abs_mul]

/-- The count of a finite number is the nearest whole number, halves upwards, as far as 64 bits go. -/
theorem toNat_roundToCount (hx : x.isFinite = true) :
    (roundToCount x).toNat = min ⌊value x + 1 / 2⌋₊ countLimit := by
  obtain ⟨m, hm⟩ := magnitude?_of_isFinite hx
  obtain ⟨-, hsize⟩ := abs_value_of_magnitude? hm
  have hround : m.roundHalfUp = ⌊|value x| + 1 / 2⌋₊ := by
    rw [hsize]
    exact m.roundHalfUp_eq
  unfold roundToCount
  rw [hm]
  rcases sign_value hx with ⟨hsign, hvalue⟩ | ⟨hsign, hvalue⟩ <;> simp only [hsign]
  · have hzero : ⌊value x + 1 / 2⌋₊ = 0 := by
      rw [Nat.floor_eq_zero, hvalue]
      linarith [abs_nonneg (value x)]
    rw [hzero]
    rfl
  · rw [hround, ← hvalue]
    exact UInt64.toNat_ofNat_of_lt' ((min_le_right _ _).trans_lt (by decide))

/-- The whole part of a number that is not below zero, as far as the limit allows. -/
theorem wholeBelow_eq (hx : x.isFinite = true) (hnonneg : 0 ≤ value x) (limit : ℕ) :
    wholeBelow limit x = min ⌊value x⌋₊ (limit - 1) := by
  obtain ⟨m, hm⟩ := magnitude?_of_isFinite hx
  obtain ⟨-, hsize⟩ := abs_value_of_magnitude? hm
  have hwhole : m.truncate.1 = ⌊|value x|⌋₊ := by
    rw [hsize, ← Int.natCast_inj, m.truncate_eq, Int.natCast_floor_eq_floor (by positivity)]
    rfl
  unfold wholeBelow
  rw [hm]
  rcases sign_value hx with ⟨hsign, hvalue⟩ | ⟨hsign, hvalue⟩ <;> simp only [hsign]
  · have hzero : value x = 0 := le_antisymm (by linarith [abs_nonneg (value x)]) hnonneg
    rw [hzero, Nat.floor_zero, Nat.zero_min]
    rfl
  · rw [hwhole, ← hvalue]
    rfl

/-- What is less than half of the last bit below a multiple of that bit is rounded up to it, or further. -/
theorem le_nearestSigned_sub {p t : ℝ} (hgrid : OnGrid (gridExponent (p - t)) p) (hnonneg : 0 ≤ p - t)
    (ht : t < (2 : ℝ) ^ gridExponent (p - t) / 2) : p ≤ nearestSigned (p - t) := by
  rw [nearestSigned_of_nonneg hnonneg]
  by_contra hbelow
  have hrounded : OnGrid (gridExponent (p - t)) (nearest (p - t)) := ⟨_, rfl⟩
  have hbit := (hgrid.sub hrounded).two_zpow_le (sub_pos.mpr (not_le.mp hbelow))
  obtain ⟨hlow, -⟩ := abs_le.mp (abs_nearest_sub_le (p - t))
  linarith

/-- What is hardly below a count of 32 bits is rounded up to it. -/
theorem natCast_le_nearestSigned_sub {n : ℕ} (hpos : 0 < n) (hn : n < 2 ^ 32) {t : ℝ} (hnonneg : 0 ≤ t)
    (ht : t < (2 : ℝ) ^ (-53 : ℤ) / 2) : (n : ℝ) ≤ nearestSigned (n - t) := by
  have hone : (1 : ℝ) ≤ n := by exact_mod_cast hpos
  have hsize : (n : ℝ) < (2 : ℝ) ^ (32 : ℤ) := by exact_mod_cast hn
  have hhalf : t ≤ 1 / 2 := ht.le.trans (by norm_num)
  have hq : 0 < (n : ℝ) - t := by linarith
  have hlow : -1 ≤ Int.log 2 ((n : ℝ) - t) :=
    (Int.zpow_le_iff_le_log (by norm_num) hq).mp (by norm_num; linarith)
  have hhigh : Int.log 2 ((n : ℝ) - t) < 32 :=
    (Int.lt_zpow_iff_log_lt (by norm_num) hq).mp (by push_cast; linarith)
  have hgrid : -53 ≤ gridExponent ((n : ℝ) - t) ∧ gridExponent ((n : ℝ) - t) ≤ 0 := by
    unfold gridExponent
    omega
  refine le_nearestSigned_sub (OnGrid.finer (e := 0) ⟨n, by simp⟩ hgrid.2) hq.le (ht.trans_le ?_)
  gcongr
  · norm_num
  · exact hgrid.1

/-- Within what 64 bits hold, a number is off by at most one half of its count. -/
theorem abs_roundToCount_sub_le (hx : x.isFinite = true) (hnonneg : 0 ≤ value x)
    (hle : value x ≤ (2 : ℝ) ^ (63 : ℤ)) : |((roundToCount x).toNat : ℝ) - value x| ≤ 1 / 2 := by
  have hlow := Nat.floor_le (show 0 ≤ value x + 1 / 2 by linarith)
  have hhigh := Nat.lt_floor_add_one (value x + 1 / 2)
  have hfits : ⌊value x + 1 / 2⌋₊ ≤ countLimit := by
    have hwhole : value x + 1 / 2 ≤ (2 ^ 63 + 1 : ℕ) := by
      push_cast
      norm_num at hle ⊢
      linarith
    exact (Nat.floor_le_of_le hwhole).trans (by decide)
  rw [toNat_roundToCount hx, min_eq_left hfits, abs_le]
  constructor <;> linarith

/-- Numbers of one value have one count. -/
theorem roundToCount_congr {y : Float} (hx : x.isFinite = true) (hy : y.isFinite = true)
    (h : value x = value y) : roundToCount x = roundToCount y := by
  rw [← UInt64.toNat_inj, toNat_roundToCount hx, toNat_roundToCount hy, h]

/-- A count that 53 bits hold is a number itself. -/
theorem value_toFloat_of_lt {n : UInt64} (hn : n.toNat < 2 ^ 53) : value n.toFloat = n.toNat := by
  obtain ⟨hplace, hnan⟩ := place_toFloat n
  have hvalue := (value_of_whole (n := n.toNat) hnan (by exact_mod_cast hplace)
    (by rw [Nat.abs_cast]; exact_mod_cast hn)).2
  exact_mod_cast hvalue

/-- No count is below zero. -/
theorem value_toFloat_nonneg (n : UInt64) : 0 ≤ value n.toFloat := by
  have hzero : value (0 : UInt64).toFloat = 0 := by
    rw [value_toFloat_of_lt (by decide)]
    exact Nat.cast_zero
  rw [← hzero]
  exact (le_iff_value (isFinite_toFloat _) (isFinite_toFloat _)).mp (count_le_count (Nat.zero_le _))

/-- From `2 ^ 52` on every number is whole. -/
theorem exists_whole_of_large (h : (2 : ℝ) ^ (52 : ℤ) ≤ |value x|) : ∃ n : ℤ, value x = n := by
  obtain ⟨n, hn⟩ := onGrid_of_two_zpow_le h
  exact ⟨n, by simpa using hn⟩

/-- What a number was rounded to is a number itself, unless it is the largest count. -/
theorem value_toFloat_roundToCount (hx : x.isFinite = true) :
    value (roundToCount x).toFloat = (roundToCount x).toNat ∨ (roundToCount x).toNat = countLimit := by
  have hcount := toNat_roundToCount hx
  rcases lt_or_ge (roundToCount x).toNat (2 ^ 53) with hsmall | hlarge
  · exact .inl (value_toFloat_of_lt hsmall)
  rcases le_or_gt countLimit ⌊value x + 1 / 2⌋₊ with hover | hunder
  · exact .inr (hcount.trans (min_eq_right hover))
  · left
    rw [min_eq_left hunder.le] at hcount
    -- A number that is rounded to so many bits was whole, and is what it is rounded to.
    have hle : ((2 ^ 53 : ℕ) : ℝ) ≤ value x + 1 / 2 :=
      (Nat.le_floor_iff' (by norm_num)).mp (hcount ▸ hlarge)
    have hpos : (2 : ℝ) ^ (52 : ℤ) ≤ value x := by
      norm_num at hle ⊢
      linarith
    obtain ⟨n, hn⟩ := exists_whole_of_large (hpos.trans (le_abs_self _))
    have hsame : ((roundToCount x).toNat : ℝ) = value x := by
      have hnonneg : 0 ≤ n := by
        have : (0 : ℝ) ≤ n := hn ▸ (by positivity : (0 : ℝ) ≤ (2 : ℝ) ^ (52 : ℤ)).trans hpos
        exact_mod_cast this
      lift n to ℕ using hnonneg
      rw [Int.cast_natCast] at hn
      rw [hcount, hn, floor_natCast_add_half]
    obtain ⟨hplace, hnan⟩ := place_toFloat (roundToCount x)
    rw [hsame, rounded_value hx, place_eq_value hx] at hplace
    exact (isFinite_of_place hnan hplace).2.trans hsame.symm

/-- Rounding to a count is done once and for all: the number of the count is rounded to the same count. -/
theorem roundToCount_toFloat_roundToCount (x : Float) :
    roundToCount (roundToCount x).toFloat = roundToCount x := by
  have hends : roundToCount (UInt64.ofNat countLimit).toFloat = UInt64.ofNat countLimit ∧
      roundToCount (0 : UInt64).toFloat = 0 := by decide +kernel
  cases hm : magnitude? x with
  | none =>
    have hcount : roundToCount x = if 0.0 < x then UInt64.ofNat countLimit else 0 := by
      rw [roundToCount, hm]
    rw [hcount]
    split_ifs
    · exact hends.1
    · exact hends.2
  | some m =>
    obtain ⟨hx, -⟩ := abs_value_of_magnitude? hm
    rcases value_toFloat_roundToCount hx with hvalue | hlimit
    · refine UInt64.toNat_inj.mp ?_
      rw [toNat_roundToCount (isFinite_toFloat _), hvalue, floor_natCast_add_half]
      exact min_eq_left (Nat.le_pred_of_lt (roundToCount x).toNat_lt)
    · have hcount : roundToCount x = UInt64.ofNat countLimit :=
        UInt64.toNat_inj.mp (hlimit.trans (by decide))
      rw [hcount]
      exact hends.1

end Cadence.Number
