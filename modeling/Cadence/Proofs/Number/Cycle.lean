import Mathlib
import Cadence.Proofs.Number.Range

/-!
# The position within a period

A remainder keeps the sign of what was divided, so a period is added to one below zero. The remainder is
smaller than the period, and rounding is monotone, so the sum is not below zero. The main statements are:

- `place_neg`: the negated number stands at the negated place;
- `neg_abs_le_truncatedRemainder`: a remainder is no further below zero than a period;
- `cycleRemainder_nonneg`: the position within a period is not below zero.
-/

namespace Cadence.Number

open Float.Model Float.Model.UnpackedFloat

/-! ## Signs -/

/-- An unpacked number that is canonical, and whose size is that of a finite number, is packed as it is. -/
theorem isFinite_ofModel_pack {u : UnpackedFloat} {x : Float} (hc : Canonical u) (hu : u.isFinite = true)
    (hx : x.isFinite = true) (hsize : |valueOf u| ≤ |value x|) :
    (Float.ofModel (.pack u)).isFinite = true ∧ value (.ofModel (.pack u)) = valueOf u := by
  obtain ⟨hplace, hnan⟩ := (isRounding_self hc hu).place_eq
  refine isFinite_of_place hnan ?_
  rw [hplace, (rounded_eq_coe_iff _).mpr ((inRange_value hx).of_abs_le hsize), nearestSigned_valueOf hc]

theorem value_neg {x : Float} (hx : x.isFinite = true) :
    (-x).isFinite = true ∧ value (-x) = -value x := by
  obtain ⟨hc, hfinite, hvalue⟩ := neg_unpacked (canonical_unpack x) hx
  have hpack := isFinite_ofModel_pack hc hfinite hx (by rw [hvalue, abs_neg]; rfl)
  rw [hvalue] at hpack
  exact hpack

/-- The negated number stands at the negated place. -/
theorem place_neg {x : Float} (hx : x.isNaN = false) :
    place (-x) = -place x ∧ (-x).isNaN = false := by
  rcases finite_or_infinite hx with hfinite | ⟨s, hs⟩
  · obtain ⟨hneg, hvalue⟩ := value_neg hfinite
    rw [place_eq_value hneg, place_eq_value hfinite, hvalue, EReal.coe_neg]
    exact ⟨rfl, isNaN_of_isFinite hneg⟩
  · have hneg : -x = .ofModel (.pack (.infinity (-s))) := by
      change Float.ofModel (.pack x.toModel.unpack.neg) = _
      rw [hs]
      rfl
    rw [hneg, show place x = placeOf (.infinity s) from congrArg placeOf hs]
    refine ⟨(place_infinity (-s)).1.trans ?_, (place_infinity (-s)).2⟩
    cases s with
    | negative => exact EReal.neg_bot.symm
    | positive => exact EReal.neg_top.symm

/-- The size of a finite number. -/
theorem value_abs {x : Float} (hx : x.isFinite = true) :
    x.abs.isFinite = true ∧ value x.abs = |value x| := by
  have hunpacked {u : UnpackedFloat} (hc : Canonical u) (hu : u.isFinite = true) :
      Canonical u.abs ∧ u.abs.isFinite = true ∧ valueOf u.abs = |valueOf u| := by
    rcases u with _ | _ | s | ⟨s, m, e, hm⟩
    · cases hu
    · cases hu
    · exact ⟨trivial, rfl, abs_zero.symm⟩
    · refine ⟨hc, rfl, ?_⟩
      have := parts_pos e hm
      cases s <;> simp [UnpackedFloat.abs, valueOf, Sign.apply, abs_mul]
  obtain ⟨hc, hfinite, hvalue⟩ := hunpacked (canonical_unpack x) hx
  have hpack := isFinite_ofModel_pack hc hfinite hx (by rw [hvalue, abs_abs]; rfl)
  rw [hvalue] at hpack
  exact hpack

/-! ## Remainders -/

/-- The magnitude of a number is its size. -/
theorem abs_value_of_magnitude? {x : Float} {m : Magnitude} (h : magnitude? x = some m) :
    x.isFinite = true ∧ |value x| = m.digits * (2 : ℝ) ^ m.exponent := by
  unfold magnitude? at h
  change x.toModel.unpack.isFinite = true ∧ |valueOf x.toModel.unpack| = _
  generalize x.toModel.unpack = u at h ⊢
  rcases u with _ | _ | s | ⟨s, digits, exponent, hm⟩
  · cases h
  · cases h
  · cases h
    simp [valueOf, UnpackedFloat.isFinite]
  · cases h
    refine ⟨rfl, ?_⟩
    cases s <;> simp [valueOf, Sign.apply, abs_mul]

/-- A magnitude has no digits exactly if its number is zero. -/
theorem digits_eq_zero_iff {x : Float} {m : Magnitude} (h : magnitude? x = some m) :
    m.digits = 0 ↔ value x = 0 := by
  have hscale : (2 : ℝ) ^ m.exponent ≠ 0 := by positivity
  rw [← abs_eq_zero, (abs_value_of_magnitude? h).2, mul_eq_zero, or_iff_left hscale, Nat.cast_eq_zero]

/-- On a finer grid a magnitude is of the same size. -/
theorem Magnitude.onGrid_mul_zpow (m : Magnitude) {e : ℤ} (h : e ≤ m.exponent) :
    (m.onGrid e : ℝ) * (2 : ℝ) ^ e = m.digits * (2 : ℝ) ^ m.exponent := by
  have hsplit : (2 : ℝ) ^ m.exponent = (2 : ℝ) ^ (m.exponent - e).toNat * (2 : ℝ) ^ e := by
    rw [← zpow_natCast, ← zpow_add₀ two_ne_zero]
    congr 1
    omega
  rw [hsplit, ← mul_assoc]
  congr 1
  simp [onGrid]

/-- What is put together from parts is their rounded product. -/
theorem place_ofParts (negative : Bool) (digits : ℕ) (exponent : ℤ) :
    place (ofParts negative digits exponent) =
        rounded ((if negative then -1 else 1) * (digits * (2 : ℝ) ^ exponent)) ∧
      (ofParts negative digits exponent).isNaN = false := by
  unfold ofParts
  by_cases hdigits : digits = 0
  · rw [if_pos hdigits, hdigits, Nat.cast_zero, zero_mul, mul_zero]
    exact (isRounding_zero _).place_eq
  · rw [if_neg hdigits]
    refine ((nearest_round _ (by omega) exponent).isRounding (by positivity) ?_).place_eq
    cases negative <;> simp [Sign.apply]

/-- A finite number has a magnitude. -/
theorem magnitude?_of_isFinite {x : Float} (h : x.isFinite = true) : ∃ m, magnitude? x = some m := by
  unfold magnitude?
  change x.toModel.unpack.isFinite = true at h
  generalize x.toModel.unpack = u at h ⊢
  cases u with
  | notANumber | infinity => cases h
  | zero s => exact ⟨_, rfl⟩
  | finite s m e hm => exact ⟨_, rfl⟩

/-- The remainder by a period is undefined, or a whole factor smaller than that of the period on a common
grid. -/
theorem truncatedRemainder_eq {x y : Float} {d : Magnitude} (hd : magnitude? y = some d)
    (h : (truncatedRemainder x y).isNaN = false) :
    ∃ digits e, digits < d.onGrid e ∧ e ≤ d.exponent ∧
      truncatedRemainder x y = ofParts (isNegative x) digits e := by
  have hundefined : (0.0 / 0.0 : Float).isNaN = true := by decide +kernel
  unfold truncatedRemainder at h ⊢
  rw [hd] at h ⊢
  cases hm : magnitude? x with
  | none =>
    rw [hm] at h
    exact absurd (h.symm.trans hundefined) Bool.false_ne_true
  | some m =>
    rw [hm] at h
    simp only at h ⊢
    split_ifs at h ⊢ with hzero
    · exact absurd (h.symm.trans hundefined) Bool.false_ne_true
    · refine ⟨_, min m.exponent d.exponent, Nat.mod_lt _ ?_, min_le_right _ _, rfl⟩
      exact Nat.mul_pos (Nat.pos_of_ne_zero hzero) (Nat.pow_pos (by decide))

/-- A remainder is no further below zero than a period. -/
theorem neg_abs_le_truncatedRemainder {x y : Float} (hy : y.isFinite = true)
    (h : (truncatedRemainder x y).isNaN = false) : -y.abs ≤ truncatedRemainder x y := by
  obtain ⟨habs, hvalue⟩ := value_abs hy
  obtain ⟨hneg, hsame⟩ := value_neg habs
  -- On the common grid the whole factor of the remainder is smaller than that of the period.
  obtain ⟨d, hd⟩ := magnitude?_of_isFinite hy
  obtain ⟨digits, e, hlt, he, heq⟩ := truncatedRemainder_eq hd h
  obtain ⟨-, hsize⟩ := abs_value_of_magnitude? hd
  have hle : digits * (2 : ℝ) ^ e ≤ |value y| := by
    rw [hsize, ← d.onGrid_mul_zpow he]
    gcongr
  have hnonneg : 0 ≤ digits * (2 : ℝ) ^ e := by positivity
  refine le_iff.mpr ⟨isNaN_of_isFinite hneg, h, ?_⟩
  rw [heq, (place_ofParts _ _ _).1, ← rounded_value hneg, hsame, hvalue]
  refine rounded_mono ?_
  split_ifs <;> linarith

/-- The position within a period is not below zero. -/
theorem cycleRemainder_nonneg {x y : Float} (hy : y.isFinite = true)
    (h : (cycleRemainder x y).isNaN = false) : 0.0 ≤ cycleRemainder x y := by
  unfold cycleRemainder at h ⊢
  simp only at h ⊢
  split_ifs at h ⊢ with hbelow
  · obtain ⟨habs, -⟩ := value_abs hy
    obtain ⟨hneg, hvalue⟩ := value_neg habs
    -- The remainder is at least minus a period, and with a period added that rounds to zero.
    have hsum := add_le_add_finite
      (neg_abs_le_truncatedRemainder hy (lt_iff.mp hbelow).1) habs
    obtain ⟨hplace, hnan⟩ := place_add hneg habs
    rw [hvalue, neg_add_cancel] at hplace
    obtain ⟨hfinite, hzero⟩ := isFinite_of_rounded_zero hnan hplace
    have hstart : 0.0 ≤ -y.abs + y.abs := by
      refine le_iff.mpr ⟨rfl, hnan, ?_⟩
      rw [place_zero, place_eq_value hfinite, hzero, EReal.coe_zero]
    exact atMost_trans hstart hsum
  · exact le_of_not_lt h rfl hbelow

end Cadence.Number
