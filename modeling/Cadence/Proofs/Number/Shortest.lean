import Mathlib
import Cadence.Number.Decimal
import Cadence.Proofs.Number.Arithmetic

/-!
# Shortest decimals

The shortest decimal of a number lies among the reals that are rounded to it. The candidates are tested
against the middles between the number and its neighbours, which are exact, so that the test can be read as a
statement on reals.

- `nearest_of_readsBack`: a decimal that passes the test is rounded to the magnitude;
- `nearest_shortest`: so is the shortest decimal, also where no candidate passed.
-/

namespace Cadence.Number

open Float.Model Float.Model.UnpackedFloat

/-! ## Comparing scaled numbers -/

theorem compare_mul_right {a b c : ℝ} (hc : 0 < c) : compare (a * c) (b * c) = compare a b := by
  rcases lt_trichotomy a b with h | rfl | h
  · rw [compare_lt_iff_lt.mpr h, compare_lt_iff_lt.mpr (by gcongr)]
  · rw [compare_eq_iff_eq.mpr rfl, compare_eq_iff_eq.mpr rfl]
  · rw [compare_gt_iff_gt.mpr h, compare_gt_iff_gt.mpr (by gcongr)]

theorem compare_natCast (a b : ℕ) : compare (a : ℝ) b = compare a b := by
  rcases lt_trichotomy a b with h | rfl | h
  · rw [compare_lt_iff_lt.mpr h, compare_lt_iff_lt.mpr (by exact_mod_cast h)]
  · rw [compare_eq_iff_eq.mpr rfl, compare_eq_iff_eq.mpr rfl]
  · rw [compare_gt_iff_gt.mpr h, compare_gt_iff_gt.mpr (by exact_mod_cast h)]

/-- A power with a negative exponent is cleared by the positive one. -/
theorem zpow_mul_pow_neg {b : ℝ} (hb : b ≠ 0) (i : ℤ) : b ^ i * b ^ (-i).toNat = b ^ i.toNat := by
  rw [← zpow_natCast, ← zpow_natCast, ← zpow_add₀ hb]
  congr 1
  omega

/-- The comparison of a decimal with a binary fraction compares the reals. -/
theorem compareScaled_eq (a : ℕ) (i : ℤ) (n : ℕ) (j : ℤ) :
    compareScaled a i n j = compare ((a : ℝ) * (10 : ℝ) ^ i) (n * (2 : ℝ) ^ j) := by
  have hc : (0 : ℝ) < (10 : ℝ) ^ (-i).toNat * (2 : ℝ) ^ (-j).toNat := by positivity
  have hten := zpow_mul_pow_neg (b := 10) (by norm_num) i
  have htwo := zpow_mul_pow_neg (b := 2) (by norm_num) j
  rw [compareScaled, ← compare_natCast, ← compare_mul_right (a := a * (10 : ℝ) ^ i) hc]
  simp only [Nat.pow_eq, Nat.cast_mul, Nat.cast_pow, Nat.cast_ofNat, ← hten, ← htwo]
  congr 1 <;> ring

/-! ## Rounding to a given number -/

/-- A real is rounded to a whole number that it is at most one half away from; at one half the number has to
be even. -/
theorem nearestEven_eq {n : ℤ} {x : ℝ} (h : |x - n| < 1 / 2 ∨ |x - n| = 1 / 2 ∧ n % 2 = 0) :
    nearestEven x = n := by
  have hsum := Int.floor_add_fract x
  have hnonneg := Int.fract_nonneg x
  have hlt := Int.fract_lt_one x
  have hle : |x - n| ≤ 1 / 2 := h.elim le_of_lt fun h => h.1.le
  obtain ⟨hlow, hhigh⟩ := abs_le.mp hle
  have hfloor : ⌊x⌋ = n - 1 ∨ ⌊x⌋ = n := by
    have hbelow : ((n : ℤ) : ℝ) - 2 < ⌊x⌋ := by linarith
    have habove : ((⌊x⌋ : ℤ) : ℝ) < n + 1 := by linarith
    have : n - 2 < ⌊x⌋ := by exact_mod_cast hbelow
    have : ⌊x⌋ < n + 1 := by exact_mod_cast habove
    omega
  unfold nearestEven
  rcases hfloor with hfloor | hfloor <;> rw [hfloor] at hsum ⊢ <;> push_cast at hsum
  · -- From below, at least one half is cut off.
    rw [if_neg (by linarith)]
    split_ifs with hhalf
    · have : |x - n| = 1 / 2 := by rw [abs_of_neg (by linarith)]; linarith
      have := (h.resolve_left this.not_lt).2
      omega
    · omega
  · split_ifs with hbelow hhalf
    · rfl
    · have : |x - n| = 1 / 2 := by rw [abs_of_pos (by linarith)]; linarith
      have := (h.resolve_left this.not_lt).2
      omega
    · exact absurd (le_antisymm (by linarith) (not_lt.mp hbelow)) hhalf

/-- The last bit that is kept of a real in a given binade. -/
theorem gridExponent_eq {q : ℝ} {e : ℤ} (hpos : 0 < q) (he : -1074 ≤ e)
    (hlow : (2 : ℝ) ^ (52 + e) ≤ q ∨ e = -1074) (hhigh : q < (2 : ℝ) ^ (53 + e)) :
    gridExponent q = e := by
  have hupper : Int.log 2 q < 53 + e :=
    (Int.lt_zpow_iff_log_lt (by norm_num) hpos).mp (by exact_mod_cast hhigh)
  unfold gridExponent
  rcases hlow with hlow | rfl
  · have hlower : 52 + e ≤ Int.log 2 q :=
      (Int.zpow_le_iff_le_log (by norm_num) hpos).mp (by exact_mod_cast hlow)
    omega
  · omega

/-- A real is rounded to a multiple of its last bit that it is at most half a bit away from. -/
theorem nearest_eq {q : ℝ} {n : ℕ} {e : ℤ} (hgrid : gridExponent q = e)
    (h : |q - n * (2 : ℝ) ^ e| < (2 : ℝ) ^ e / 2 ∨ |q - n * (2 : ℝ) ^ e| = (2 : ℝ) ^ e / 2 ∧ n % 2 = 0) :
    nearest q = n * (2 : ℝ) ^ e := by
  have hscale : (0 : ℝ) < (2 : ℝ) ^ e := by positivity
  have habs : |q / (2 : ℝ) ^ e - (n : ℤ)| = |q - n * (2 : ℝ) ^ e| / (2 : ℝ) ^ e := by
    rw [← abs_of_pos hscale, ← abs_div, abs_of_pos hscale]
    congr 1
    push_cast
    field_simp
  have hnear : nearestEven (q / (2 : ℝ) ^ e) = n := by
    refine nearestEven_eq (h.imp ?_ (And.imp ?_ ?_))
    · intro h
      rw [habs, div_lt_iff₀ hscale]
      linarith
    · intro h
      rw [habs, h]
      field_simp
    · omega
  rw [nearest, hgrid, hnear, Int.cast_natCast]

/-! ## The test of a decimal -/

variable {m : Magnitude} {d : Decimal}

/-- A real between two bounds is at most so far from the middle. -/
theorem abs_sub_lt_or_eq {a b c : ℝ} {p : Prop} (hc : 0 < c) (hlow : b - c < a ∨ p ∧ a = b - c)
    (hhigh : a < b + c ∨ p ∧ a = b + c) : |a - b| < c ∨ |a - b| = c ∧ p := by
  rcases hlow with hlow | ⟨hp, rfl⟩
  · rcases hhigh with hhigh | ⟨hp, rfl⟩
    · exact .inl (abs_lt.mpr ⟨by linarith, by linarith⟩)
    · exact .inr ⟨by rw [add_sub_cancel_left, abs_of_pos hc], hp⟩
  · exact .inr ⟨by rw [sub_sub_cancel_left, abs_neg, abs_of_pos hc], hp⟩

/-- A decimal that passes the test is at most half a bit away, and half a bit only from even digits. Where the
number below is near, it is at most a quarter of a bit below. -/
theorem readsBack_bounds (hpos : 0 < m.digits) (h : m.readsBack d = true) :
    (|d.real - m.real| < (2 : ℝ) ^ m.exponent / 2 ∨
        |d.real - m.real| = (2 : ℝ) ^ m.exponent / 2 ∧ m.digits % 2 = 0) ∧
      (m.narrowBelow = true → m.real - (2 : ℝ) ^ m.exponent / 4 ≤ d.real) := by
  have hscale : (0 : ℝ) < (2 : ℝ) ^ m.exponent := by positivity
  have hquarter : (2 : ℝ) ^ (m.exponent - 2) = (2 : ℝ) ^ m.exponent / 4 := by
    rw [zpow_sub₀ two_ne_zero]
    norm_num
  simp only [Magnitude.readsBack, compareScaled_eq, Bool.and_eq_true, Bool.or_eq_true, decide_eq_true_eq,
    compare_gt_iff_gt, compare_lt_iff_lt, compare_eq_iff_eq, hquarter] at h
  obtain ⟨hlow, hhigh⟩ := h
  have habove : ((4 * m.digits + 2 : ℕ) : ℝ) * ((2 : ℝ) ^ m.exponent / 4) =
      m.real + (2 : ℝ) ^ m.exponent / 2 := by
    unfold Magnitude.real
    push_cast
    ring
  rw [habove] at hhigh
  by_cases hnarrow : m.narrowBelow = true
  · have hbelow : ((4 * m.digits - 1 : ℕ) : ℝ) * ((2 : ℝ) ^ m.exponent / 4) =
        m.real - (2 : ℝ) ^ m.exponent / 4 := by
      unfold Magnitude.real
      rw [Nat.cast_sub (by omega)]
      push_cast
      ring
    rw [if_pos hnarrow, hbelow] at hlow
    have hle : m.real - (2 : ℝ) ^ m.exponent / 4 ≤ d.real := hlow.elim le_of_lt fun h => h.2.ge
    exact ⟨abs_sub_lt_or_eq (half_pos hscale) (.inl (by linarith)) hhigh, fun _ => hle⟩
  · have hbelow : ((4 * m.digits - 2 : ℕ) : ℝ) * ((2 : ℝ) ^ m.exponent / 4) =
        m.real - (2 : ℝ) ^ m.exponent / 2 := by
      unfold Magnitude.real
      rw [Nat.cast_sub (by omega)]
      push_cast
      ring
    rw [if_neg hnarrow, hbelow] at hlow
    exact ⟨abs_sub_lt_or_eq (half_pos hscale) hlow hhigh, fun h => absurd h hnarrow⟩

/-- Below the least digits of an exponent the last bits are half as large. A real that is near enough there is
still rounded up to those digits. -/
theorem nearest_below_least {q : ℝ} {e : ℤ} (he : -1074 < e)
    (hlow : (2 : ℝ) ^ (52 + e) - (2 : ℝ) ^ e / 4 ≤ q) (hhigh : q < (2 : ℝ) ^ (52 + e)) :
    nearest q = (2 : ℝ) ^ (52 + e) := by
  obtain ⟨k, rfl⟩ : ∃ k, e = k + 1 := ⟨e - 1, by omega⟩
  have hscale : (0 : ℝ) < (2 : ℝ) ^ k := by positivity
  rw [show (52 + (k + 1)) = 53 + k by ring, zpow_add₀ two_ne_zero, zpow_add_one₀ two_ne_zero] at *
  norm_num at hlow hhigh
  have hgrid : gridExponent q = k := by
    refine gridExponent_eq (by linarith) (by omega) (.inl ?_) ?_
    all_goals
      rw [zpow_add₀ two_ne_zero]
      norm_num
      linarith
  have hnear := nearest_eq (n := 2 ^ 53) hgrid (by
    norm_num
    refine (abs_le.mpr ⟨?_, ?_⟩).lt_or_eq <;> linarith)
  rw [hnear]
  norm_num

/-- A decimal that passes the test is rounded to the magnitude. -/
theorem nearest_of_readsBack (hpos : 0 < m.digits) (hc : CanonicalParts m.digits m.exponent)
    (h : m.readsBack d = true) : nearest d.real = m.real := by
  obtain ⟨hlt, hleast, hlead⟩ := hc
  obtain ⟨hnear, hnarrow⟩ := readsBack_bounds hpos h
  have hscale : (0 : ℝ) < (2 : ℝ) ^ m.exponent := by positivity
  have hdigits : (1 : ℝ) ≤ m.digits := by exact_mod_cast hpos
  have hbits : (m.digits : ℝ) + 1 ≤ (2 : ℝ) ^ (53 : ℤ) := by exact_mod_cast hlt
  have hone : (2 : ℝ) ^ m.exponent ≤ m.real := le_mul_of_one_le_left hscale.le hdigits
  obtain ⟨hlow, hhigh⟩ := abs_le.mp (hnear.elim le_of_lt fun h => h.1.le)
  by_cases hbinade : (2 : ℝ) ^ (52 + m.exponent) ≤ d.real ∨ m.exponent = -1074
  · -- In the binade of the magnitude the last bits are the same.
    refine nearest_eq (gridExponent_eq (by linarith) hleast hbinade ?_) hnear
    have := mul_le_mul_of_nonneg_right hbits hscale.le
    rw [zpow_add₀ two_ne_zero]
    unfold Magnitude.real at hhigh
    linarith
  · -- Otherwise the digits are the least ones, and the number below is near.
    obtain ⟨hbinade, hexponent⟩ := not_or.mp hbinade
    have hleastDigits : m.digits = 2 ^ 52 := by
      rw [not_le, zpow_add₀ two_ne_zero] at hbinade
      have hless : m.digits * (2 : ℝ) ^ m.exponent < ((2 ^ 52 + 1 : ℕ) : ℝ) * (2 : ℝ) ^ m.exponent := by
        unfold Magnitude.real at hlow
        norm_num at hbinade ⊢
        linarith
      have : m.digits < 2 ^ 52 + 1 := by exact_mod_cast lt_of_mul_lt_mul_right hless hscale.le
      have := hlead.resolve_right hexponent
      omega
    have hreal : m.real = (2 : ℝ) ^ (52 + m.exponent) := by
      rw [Magnitude.real, hleastDigits, zpow_add₀ two_ne_zero]
      norm_num
    have hnarrow' : m.narrowBelow = true := by
      simp only [Magnitude.narrowBelow, hleastDigits, Bool.and_eq_true, decide_eq_true_eq]
      exact ⟨rfl, by omega⟩
    rw [hreal]
    exact nearest_below_least (by omega) (hreal ▸ hnarrow hnarrow') (not_le.mp hbinade)

/-! ## The shortest decimal -/

/-- What is found on a decimal grid passed the test. -/
theorem readsBack_onDecimalGrid? {tie : Tie} {e : ℤ} (h : m.onDecimalGrid? tie e = some d) :
    m.readsBack d = true := by
  simp only [Magnitude.onDecimalGrid?] at h
  split at h
  all_goals
    first
    | cases h
    | skip
  · assumption
  · assumption
  · split at h
    all_goals
      cases h
      first
      | assumption
      | split_ifs <;> assumption

/-- Trailing zeros can go into the exponent. -/
theorem real_strip (fuel : ℕ) (d : Decimal) : (d.strip fuel).real = d.real := by
  induction fuel generalizing d with
  | zero => rfl
  | succ fuel ih =>
    unfold Decimal.strip
    split_ifs with h
    · have hdigits : (d.digits : ℝ) = (d.digits / 10 : ℕ) * 10 := by
        exact_mod_cast (Nat.div_mul_cancel (Nat.dvd_of_mod_eq_zero h.2)).symm
      rw [ih, Decimal.real, Decimal.real, hdigits, zpow_add_one₀ (by norm_num)]
      ring
    · rfl

theorem real_exact (m : Magnitude) : m.exact.real = m.real := by
  unfold Magnitude.exact Decimal.real Magnitude.real
  split_ifs with h
  · simp only [Nat.pow_eq, Nat.cast_mul, Nat.cast_pow, Nat.cast_ofNat, zpow_zero, mul_one, ← zpow_natCast,
      Int.toNat_of_nonneg h]
  · have hten : (10 : ℝ) ^ m.exponent = (5 : ℝ) ^ m.exponent * (2 : ℝ) ^ m.exponent := by
      rw [← mul_zpow]
      norm_num
    have hfive : (5 : ℝ) ^ (-m.exponent).toNat * (5 : ℝ) ^ m.exponent = 1 := by
      rw [← zpow_natCast, Int.toNat_of_nonneg (by omega), ← zpow_add₀ (by norm_num), neg_add_cancel,
        zpow_zero]
    simp only [Nat.pow_eq, Nat.cast_mul, Nat.cast_pow, Nat.cast_ofNat, hten]
    linear_combination (m.digits * (2 : ℝ) ^ m.exponent) * hfive

/-- The shortest decimal of a magnitude is rounded to it, whether it was found on a grid or is exact. -/
theorem nearest_shortest (hpos : 0 < m.digits) (hc : CanonicalParts m.digits m.exponent) (tie : Tie) :
    nearest (m.shortest tie).real = m.real := by
  simp only [Magnitude.shortest, if_neg hpos.ne', real_strip]
  generalize hfound : (List.range 17).findSome? _ = found
  cases found with
  | none =>
    rw [Option.getD_none, real_exact]
    exact nearest_parts hpos hc
  | some d =>
    obtain ⟨i, -, hi⟩ := List.exists_of_findSome?_eq_some hfound
    exact nearest_of_readsBack hpos hc (readsBack_onDecimalGrid? hi)

end Cadence.Number
