import Mathlib
import Cadence.Proofs.Number.Arithmetic

/-!
# Multiples of a power of two

Every number is a whole multiple of the smallest one, and of the last bit of every number that is not larger.
What is a multiple of the last bit that is kept of it is not changed by rounding, so sums, differences and
multiples of numbers are exact as long as they stay small.

- `OnGrid`: closed under sums, differences and multiples, and on every finer grid, too;
- `onGrid_value`, `onLeastGrid_value`: the grids that a number is on;
- `OnGrid.nearestSigned_eq`: when rounding does not change a multiple, and `nearestSigned_of_bits`,
  `nearestSigned_of_small`: two cases of it.
-/

namespace Cadence.Number

open Float.Model Float.Model.UnpackedFloat

/-- A power of two is a whole multiple of a smaller one. -/
theorem two_zpow_eq {d e : ℤ} (h : d ≤ e) : (2 : ℝ) ^ e = ((2 ^ (e - d).toNat : ℤ) : ℝ) * (2 : ℝ) ^ d :=
  (div_eq_iff (by positivity)).mp (two_zpow_div h)

namespace OnGrid

variable {d e : ℤ} {p q : ℝ}

theorem two_zpow (e : ℤ) : OnGrid e ((2 : ℝ) ^ e) := ⟨1, by simp⟩

theorem zero (e : ℤ) : OnGrid e 0 := ⟨0, by simp⟩

theorem add (hp : OnGrid e p) (hq : OnGrid e q) : OnGrid e (p + q) := by
  obtain ⟨m, rfl⟩ := hp
  obtain ⟨n, rfl⟩ := hq
  exact ⟨m + n, by push_cast; ring⟩

theorem intCast_mul (hp : OnGrid e p) (n : ℤ) : OnGrid e (n * p) := by
  obtain ⟨m, rfl⟩ := hp
  exact ⟨n * m, by push_cast; ring⟩

theorem neg (hp : OnGrid e p) : OnGrid e (-p) := by simpa using hp.intCast_mul (-1)

theorem sub (hp : OnGrid e p) (hq : OnGrid e q) : OnGrid e (p - q) := by
  rw [sub_eq_add_neg]
  exact hp.add hq.neg

theorem finer (h : OnGrid e p) (hd : d ≤ e) : OnGrid d p := by
  obtain ⟨n, rfl⟩ := h
  exact ⟨n * 2 ^ (e - d).toNat, by rw [two_zpow_eq hd]; push_cast; ring⟩

/-- A multiple that is above zero is at least the power of two. -/
theorem two_zpow_le (h : OnGrid e p) (hp : 0 < p) : (2 : ℝ) ^ e ≤ p := by
  obtain ⟨n, rfl⟩ := h
  have hscale : (0 : ℝ) < (2 : ℝ) ^ e := by positivity
  have hn : (0 : ℝ) < n := pos_of_mul_pos_left hp hscale.le
  have hone : (1 : ℝ) ≤ n := by exact_mod_cast Int.add_one_le_of_lt (Int.cast_pos.mp hn)
  linarith [mul_le_mul_of_nonneg_right hone hscale.le]

/-! ## Rounding a multiple -/

/-- A multiple of the last bit that is kept is not changed. -/
theorem nearest_eq (h : OnGrid e q) (he : gridExponent q ≤ e) : nearest q = q := by
  obtain ⟨n, hn⟩ := h.finer he
  have hscale : (0 : ℝ) < (2 : ℝ) ^ gridExponent q := by positivity
  have hwhole : q / (2 : ℝ) ^ gridExponent q = n := (div_eq_iff hscale.ne').mpr hn
  rw [nearest, hwhole, nearestEven_intCast]
  exact hn.symm

/-- Nor is it under a sign. -/
theorem nearestSigned_eq (h : OnGrid e p) (he : p ≠ 0 → gridExponent |p| ≤ e) : nearestSigned p = p := by
  unfold nearestSigned
  split_ifs with hneg
  · have hgrid := he hneg.ne
    rw [abs_of_neg hneg] at hgrid
    rw [h.neg.nearest_eq hgrid, neg_neg]
  · rcases (not_lt.mp hneg).eq_or_lt with rfl | hpos
    · exact nearest_zero
    · have hgrid := he hpos.ne'
      rw [abs_of_pos hpos] at hgrid
      exact h.nearest_eq hgrid

/-- So it is not if it is no larger than the number whose last bit it is a multiple of. -/
theorem nearestSigned_eq_of_le (h : OnGrid (gridExponent q) p) (hle : |p| ≤ q) : nearestSigned p = p :=
  h.nearestSigned_eq fun hp => gridExponent_mono (abs_pos.mpr hp) hle

end OnGrid

/-- A whole number of at most fifty-three bits, times a power of two, is not changed by rounding. -/
theorem nearestSigned_of_bits {n e : ℤ} (hn : |n| < 2 ^ 53) (he : -1074 ≤ e) :
    nearestSigned (n * (2 : ℝ) ^ e) = n * (2 : ℝ) ^ e := by
  refine OnGrid.nearestSigned_eq ⟨n, rfl⟩ fun hzero => ?_
  have hscale : (0 : ℝ) < (2 : ℝ) ^ e := by positivity
  have hlt : |(n : ℝ) * (2 : ℝ) ^ e| < (2 : ℝ) ^ (53 + e) := by
    rw [abs_mul, abs_of_pos hscale, zpow_add₀ two_ne_zero]
    exact mul_lt_mul_of_pos_right (by exact_mod_cast hn) hscale
  have hlog : Int.log 2 |(n : ℝ) * (2 : ℝ) ^ e| < 53 + e :=
    (Int.lt_zpow_iff_log_lt (by norm_num) (abs_pos.mpr hzero)).mp (by exact_mod_cast hlt)
  unfold gridExponent
  omega

/-- Among the smallest numbers nothing is rounded. -/
theorem nearestSigned_of_small {p : ℝ} (h : OnLeastGrid p) (hsmall : |p| < (2 : ℝ) ^ (-1021 : ℤ)) :
    nearestSigned p = p := by
  refine OnGrid.nearestSigned_eq (e := -1074) h fun hzero => ?_
  have hlog : Int.log 2 |p| < -1021 :=
    (Int.lt_zpow_iff_log_lt (by norm_num) (abs_pos.mpr hzero)).mp (by exact_mod_cast hsmall)
  unfold gridExponent
  omega

/-! ## The grids that a number is on -/

variable {x : Float}

/-- A number is a multiple of its last bit, and is zero or has at most fifty-three bits from there. -/
theorem exists_onGrid (x : Float) : value x = 0 ∨
    ∃ e : ℤ, OnGrid e (value x) ∧ -1074 ≤ e ∧ |value x| < (2 : ℝ) ^ (53 + e) := by
  have hcanonical := canonical_unpack x
  rw [value]
  generalize x.toModel.unpack = u at hcanonical ⊢
  cases u with
  | finite s m e hm =>
    obtain ⟨hbits, hleast, -⟩ : CanonicalParts m e := hcanonical
    refine .inr ⟨e, ⟨s.apply m, rfl⟩, hleast, ?_⟩
    have hscale : (0 : ℝ) < (2 : ℝ) ^ e := by positivity
    have hsize : |((s.apply m : ℤ) : ℝ)| = m := by
      rw [apply_cast, abs_mul, Nat.abs_cast]
      cases s <;> simp [Sign.apply]
    rw [valueOf, abs_mul, abs_of_pos hscale, hsize, zpow_add₀ two_ne_zero]
    exact mul_lt_mul_of_pos_right (by exact_mod_cast hbits) hscale
  | _ => exact .inl (by simp [valueOf])

/-- Every number is a multiple of the smallest one. -/
theorem onLeastGrid_value : OnLeastGrid (value x) := by
  rcases exists_onGrid x with hzero | ⟨e, hgrid, hleast, -⟩
  · exact hzero ▸ OnGrid.zero _
  · exact hgrid.finer hleast

/-- A number that is not below a power of two is a multiple of the fifty-third bit from there. -/
theorem onGrid_of_two_zpow_le {k : ℤ} (h : (2 : ℝ) ^ k ≤ |value x|) : OnGrid (k - 52) (value x) := by
  rcases exists_onGrid x with hzero | ⟨e, hgrid, -, hlt⟩
  · exact hzero ▸ OnGrid.zero _
  · have hexponent : k < 53 + e := (zpow_lt_zpow_iff_right₀ (one_lt_two (α := ℝ))).mp (h.trans_lt hlt)
    exact hgrid.finer (by omega)

/-- A number is a multiple of the last bit of every number that is not larger. -/
theorem onGrid_value {q : ℝ} (hq : 0 < q) (hle : q ≤ |value x|) : OnGrid (gridExponent q) (value x) := by
  unfold gridExponent
  rcases le_total (Int.log 2 q - 52) (-1074) with hsmall | hlarge
  · rw [max_eq_right hsmall]
    exact onLeastGrid_value
  · rw [max_eq_left hlarge]
    exact onGrid_of_two_zpow_le (le_trans (by exact_mod_cast Int.zpow_log_le_self (by norm_num) hq) hle)

theorem nearestSigned_value : nearestSigned (value x) = value x := nearestSigned_valueOf (canonical_unpack x)

/-! ## The least grid -/

namespace OnLeastGrid

variable {p q : ℝ}

theorem add (hp : OnLeastGrid p) (hq : OnLeastGrid q) : OnLeastGrid (p + q) := OnGrid.add hp hq

theorem neg (hq : OnLeastGrid q) : OnLeastGrid (-q) := OnGrid.neg hq

theorem intCast_mul (hq : OnLeastGrid q) (n : ℤ) : OnLeastGrid (n * q) := OnGrid.intCast_mul hq n

end OnLeastGrid

end Cadence.Number
