import Mathlib
import Cadence.Meter
import Cadence.Proofs.Number.Error

/-!
# The length of a bar

A bar has `4 * numerator / denominator` quarter notes, with a rounding for the division and one for the
multiplication. Neither is off by so much that a bar of shorter notes would have as many quarter notes as its
numerator says, or a bar of longer notes no more than that.

- `barLength_bounds`: a bar is of finite length and not empty;
- `value_barLength`: its length, as it is rounded;
- `value_barLength_lt`, `value_barLength_le`, `le_value_barLength` and `lt_value_barLength`: how many quarter notes
  it has, against its numerator.
-/

namespace Cadence.Meter

open Number

/-! ## Bounds -/

/-- The numbers of a meter have at most 32 bits, so they are exact. -/
theorem value_toFloat (n : UInt32) : n.toFloat.isFinite = true ∧ value n.toFloat = n.toNat := by
  have hround := isRounding_normalize n.toNat 0
  rw [zpow_zero, mul_one] at hround
  obtain ⟨hplace, hnan⟩ : place n.toFloat = rounded (n.toNat : ℤ) ∧ n.toFloat.isNaN = false := hround.place_eq
  have hbits : |(n.toNat : ℤ)| < 2 ^ 53 := by
    rw [Nat.abs_cast]
    exact_mod_cast n.toNat_lt.trans (by norm_num)
  obtain ⟨hfinite, hvalue⟩ := value_of_whole hnan hplace hbits
  exact ⟨hfinite, by exact_mod_cast hvalue⟩

variable {m : Meter}

theorem numerator_pos (m : Meter) : 0 < m.numerator.toNat :=
  Nat.pos_of_ne_zero fun h => m.numerator_ne_zero (UInt32.toNat_inj.mp h)

theorem denominator_pos (m : Meter) : 0 < m.denominator.toNat :=
  Nat.pos_of_ne_zero fun h => m.denominator_ne_zero (UInt32.toNat_inj.mp h)

/-- The part of a whole note that a bar has is neither tiny nor huge. -/
theorem quotient_bounds (m : Meter) :
    (2 : ℝ) ^ (-32 : ℤ) ≤ (m.numerator.toNat : ℝ) / m.denominator.toNat ∧
      (m.numerator.toNat : ℝ) / m.denominator.toNat ≤ (2 : ℝ) ^ (32 : ℤ) := by
  have hnum : (1 : ℝ) ≤ m.numerator.toNat := by exact_mod_cast m.numerator_pos
  have hden : (1 : ℝ) ≤ m.denominator.toNat := by exact_mod_cast m.denominator_pos
  have hnumle : (m.numerator.toNat : ℝ) ≤ (2 : ℝ) ^ (32 : ℤ) := by exact_mod_cast m.numerator.toNat_lt.le
  have hdenle : (m.denominator.toNat : ℝ) ≤ (2 : ℝ) ^ (32 : ℤ) := by exact_mod_cast m.denominator.toNat_lt.le
  refine ⟨?_, (div_le_self (Nat.cast_nonneg _) hden).trans hnumle⟩
  rw [le_div_iff₀ (by linarith)]
  calc (2 : ℝ) ^ (-32 : ℤ) * m.denominator.toNat ≤ (2 : ℝ) ^ (-32 : ℤ) * (2 : ℝ) ^ (32 : ℤ) := by gcongr
    _ = 1 := by norm_num
    _ ≤ m.numerator.toNat := hnum

/-- It is rounded when it is computed. -/
theorem place_quotient (m : Meter) :
    place (m.numerator.toFloat / m.denominator.toFloat) =
        rounded ((m.numerator.toNat : ℝ) / m.denominator.toNat) ∧
      (m.numerator.toFloat / m.denominator.toFloat).isNaN = false := by
  obtain ⟨hnum, hnumvalue⟩ := value_toFloat m.numerator
  obtain ⟨hden, hdenvalue⟩ := value_toFloat m.denominator
  have hzero : value m.denominator.toFloat ≠ 0 := by
    rw [hdenvalue]
    exact_mod_cast m.denominator_pos.ne'
  have hplace := place_div hnum hden hzero
  rwa [hnumvalue, hdenvalue] at hplace

/-- A bar is of finite length, longer than nothing, and of less than `2^40` beats. -/
theorem barLength_bounds (m : Meter) :
    m.barLength.isFinite = true ∧ 0 < value m.barLength ∧ value m.barLength ≤ (2 : ℝ) ^ (40 : ℤ) := by
  obtain ⟨hplace, hnan⟩ := m.place_quotient
  obtain ⟨hlow, hhigh⟩ := m.quotient_bounds
  obtain ⟨hquotient, hquotientlow, hquotienthigh⟩ := value_between hnan hplace hlow hhigh
    (zpow_le_zpow_right₀ (by norm_num) (by norm_num)) (zpow_le_zpow_right₀ (by norm_num) (by norm_num))
  obtain ⟨hproduct, hproductnan⟩ := place_mul hquotient (y := 4.0) rfl
  rw [value_four] at hproduct
  obtain ⟨hfinite, hbarlow, hbarhigh⟩ := value_between (a := (2 : ℝ) ^ (-32 : ℤ)) (b := (2 : ℝ) ^ (36 : ℤ))
    hproductnan hproduct (by norm_num at hquotientlow ⊢; linarith) (by norm_num at hquotienthigh ⊢; linarith)
    (zpow_le_zpow_right₀ (by norm_num) (by norm_num)) (zpow_le_zpow_right₀ (by norm_num) (by norm_num))
  refine ⟨hfinite, lt_of_lt_of_le (by positivity) hbarlow, hbarhigh.trans ?_⟩
  norm_num

/-! ## Against the numerator -/

/-- A part of a whole note in quarter notes, with a rounding before and after it is multiplied. -/
noncomputable def quarters (q : ℝ) : ℝ := nearestSigned (nearestSigned q * 4)

theorem quarters_mono : Monotone quarters := fun _ _ h =>
  nearestSigned_mono (mul_le_mul_of_nonneg_right (nearestSigned_mono h) (by norm_num))

/-- Parts of fifty-three bits are not rounded. -/
theorem quarters_of_bits {n e : ℤ} (hn : |n| < 2 ^ 53) (he : -1074 ≤ e) :
    quarters (n * (2 : ℝ) ^ e) = n * (2 : ℝ) ^ (e + 2) := by
  have hfour : (n : ℝ) * (2 : ℝ) ^ e * 4 = n * (2 : ℝ) ^ (e + 2) := by
    rw [zpow_add₀ two_ne_zero]
    ring
  rw [quarters, nearestSigned_of_bits hn he, hfour, nearestSigned_of_bits hn (by omega)]

/-- The length of a bar is rounded once for the division and once for the multiplication. -/
theorem value_barLength (m : Meter) :
    value m.barLength = quarters (m.numerator.toNat / m.denominator.toNat) := by
  obtain ⟨hplace, hnan⟩ := m.place_quotient
  obtain ⟨hlow, hhigh⟩ := m.quotient_bounds
  have hin : InRange (m.numerator.toNat / m.denominator.toNat) := by
    refine inRange_of_abs_le (k := 32) (by norm_num) ?_
    rwa [abs_of_nonneg ((zpow_nonneg (by norm_num) _).trans hlow)]
  obtain ⟨hquotient, hvalue⟩ := value_of_rounded hnan hplace hin
  have hfour : (4.0 : Float).isFinite = true := rfl
  obtain ⟨hproduct, hproductnan⟩ := place_mul hquotient hfour
  have hbar := (value_of_rounded hproductnan hproduct
    ((isFinite_mul_iff hquotient hfour).mp m.barLength_bounds.1)).2
  rwa [hvalue, value_four] at hbar

/-- The numerator times a small number, and a power of two, is not rounded. -/
theorem quarters_part (m : Meter) {k : ℕ} {e : ℤ} (hk : k < 2 ^ 21) (he : -1074 ≤ e) :
    quarters (m.numerator.toNat * (k * (2 : ℝ) ^ e)) = m.numerator.toNat * (k * (2 : ℝ) ^ (e + 2)) := by
  have hbits : m.numerator.toNat * k < 2 ^ 53 :=
    (Nat.mul_lt_mul'' m.numerator.toNat_lt hk).trans_eq (by norm_num)
  have hexact := quarters_of_bits (n := (m.numerator.toNat * k : ℕ)) (e := e)
    (by rw [Nat.abs_cast]; exact_mod_cast hbits) he
  push_cast at hexact
  rwa [mul_assoc, mul_assoc] at hexact

/-- The numerator in quarter notes, if that is what the notes are. -/
theorem quarters_numerator (m : Meter) : quarters (m.numerator.toNat / 4) = m.numerator.toNat := by
  have hexact := m.quarters_part (k := 1) (e := -2) (by norm_num) (by norm_num)
  norm_num at hexact
  rwa [mul_one_div] at hexact

/-- In notes no longer than quarter notes a bar has no more quarter notes than its numerator says. -/
theorem value_barLength_le (hd : 4 ≤ m.denominator.toNat) : value m.barLength ≤ m.numerator.toNat := by
  have hquarter : (4 : ℝ) ≤ m.denominator.toNat := by exact_mod_cast hd
  have hle := quarters_mono
    (div_le_div_of_nonneg_left (Nat.cast_nonneg m.numerator.toNat) (by norm_num) hquarter)
  rwa [quarters_numerator, ← value_barLength] at hle

/-- In notes no shorter than quarter notes it has no fewer. -/
theorem le_value_barLength (hd : m.denominator.toNat ≤ 4) : m.numerator.toNat ≤ value m.barLength := by
  have hpos : (0 : ℝ) < m.denominator.toNat := by exact_mod_cast m.denominator_pos
  have hquarter : (m.denominator.toNat : ℝ) ≤ 4 := by exact_mod_cast hd
  have hle := quarters_mono (div_le_div_of_nonneg_left (Nat.cast_nonneg m.numerator.toNat) hpos hquarter)
  rwa [quarters_numerator, ← value_barLength] at hle

/-- In notes shorter than quarter notes it has fewer. -/
theorem value_barLength_lt (hd : 4 < m.denominator.toNat) : value m.barLength < m.numerator.toNat := by
  have hpos : (0 : ℝ) < m.numerator.toNat := by exact_mod_cast m.numerator_pos
  have hfive : (5 : ℝ) ≤ m.denominator.toNat := by exact_mod_cast hd
  -- A fifth is less than fifteen sixty-fourths.
  have hquotient : (m.numerator.toNat : ℝ) / m.denominator.toNat ≤
      m.numerator.toNat * ((15 : ℕ) * (2 : ℝ) ^ (-6 : ℤ)) := by
    refine (div_le_div_of_nonneg_left hpos.le (by norm_num) hfive).trans ?_
    rw [div_eq_mul_one_div]
    exact mul_le_mul_of_nonneg_left (by norm_num) hpos.le
  have hle := quarters_mono hquotient
  rw [← value_barLength, m.quarters_part (by norm_num) (by norm_num)] at hle
  exact hle.trans_lt (mul_lt_of_lt_one_right hpos (by norm_num))

/-- In notes longer than quarter notes it has more. -/
theorem lt_value_barLength (hd : m.denominator.toNat < 4) : m.numerator.toNat < value m.barLength := by
  have hpos : (0 : ℝ) < m.numerator.toNat := by exact_mod_cast m.numerator_pos
  have hdpos : (0 : ℝ) < m.denominator.toNat := by exact_mod_cast m.denominator_pos
  have hthree : (m.denominator.toNat : ℝ) ≤ 3 := by exact_mod_cast Nat.le_of_lt_succ hd
  -- A third is more than twenty-one sixty-fourths.
  have hquotient : m.numerator.toNat * ((21 : ℕ) * (2 : ℝ) ^ (-6 : ℤ)) ≤
      (m.numerator.toNat : ℝ) / m.denominator.toNat := by
    refine le_trans ?_ (div_le_div_of_nonneg_left hpos.le hdpos hthree)
    rw [div_eq_mul_one_div]
    exact mul_le_mul_of_nonneg_left (by norm_num) hpos.le
  have hle := quarters_mono hquotient
  rw [← value_barLength, m.quarters_part (by norm_num) (by norm_num)] at hle
  exact (lt_mul_of_one_lt_right hpos (by norm_num)).trans_le hle

end Cadence.Meter
