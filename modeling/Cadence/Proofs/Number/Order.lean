import Mathlib
import Cadence.Proofs.Number.Pattern
import Cadence.Proofs.Number.Real

/-!
# The order of binary64 numbers

A number that is not undefined has a place among the reals and the two infinities. Comparing two
such numbers compares their places, and so does comparing bit patterns in their total order, up to
the sign of zero. The main statements are:

- `le_iff` and `lt_iff`: the comparisons of numbers in terms of their places;
- `le_of_patternRank_le`: the total order of patterns refines the comparison of finite numbers.
-/

namespace Cadence.Number

open Float.Model Float.Model.UnpackedFloat

/-! ## Comparing unpacked numbers -/

theorem canonical_unpack (x : Float) : Canonical x.toModel.unpack := unpack_canonical _

/-- A canonical number with the smaller exponent is the smaller one. -/
theorem parts_lt {m n : ℕ} {d e : ℤ} (hm : CanonicalParts m d) (hn : CanonicalParts n e)
    (h : d < e) : (m : ℝ) * (2 : ℝ) ^ d < n * (2 : ℝ) ^ e := by
  have hlead : 2 ^ 52 ≤ n := by
    have := hm.2.1
    have := hn.2.2
    omega
  calc (m : ℝ) * (2 : ℝ) ^ d
      < (2 : ℝ) ^ (53 : ℕ) * (2 : ℝ) ^ d := by
        have : (m : ℝ) < (2 : ℝ) ^ (53 : ℕ) := by exact_mod_cast hm.1
        gcongr
    _ = (2 : ℝ) ^ (52 : ℕ) * (2 : ℝ) ^ (d + 1) := by
        rw [zpow_add₀ (by norm_num)]
        ring
    _ ≤ (2 : ℝ) ^ (52 : ℕ) * (2 : ℝ) ^ e := by
        gcongr
        · norm_num
        · omega
    _ ≤ n * (2 : ℝ) ^ e := by
        have : (2 : ℝ) ^ (52 : ℕ) ≤ n := by exact_mod_cast hlead
        gcongr

/-- Exponent first, then whole factor: that is the order of positive canonical numbers. -/
theorem compare_parts {m n : ℕ} {d e : ℤ} (hm : CanonicalParts m d) (hn : CanonicalParts n e) :
    (compare d e).then (compare m n) =
      compare ((m : ℝ) * (2 : ℝ) ^ d) (n * (2 : ℝ) ^ e) := by
  rcases lt_trichotomy d e with h | rfl | h
  · rw [compare_lt_iff_lt.mpr h, compare_lt_iff_lt.mpr (parts_lt hm hn h)]
    rfl
  · have hpos : (0 : ℝ) < (2 : ℝ) ^ d := by positivity
    rw [compare_eq_iff_eq.mpr rfl, Ordering.then]
    rcases lt_trichotomy m n with h | rfl | h
    · rw [compare_lt_iff_lt.mpr h, compare_lt_iff_lt.mpr]
      gcongr
    · rw [compare_eq_iff_eq.mpr rfl, compare_eq_iff_eq.mpr rfl]
    · rw [compare_gt_iff_gt.mpr h, compare_gt_iff_gt.mpr]
      gcongr
  · rw [compare_gt_iff_gt.mpr h, compare_gt_iff_gt.mpr (parts_lt hn hm h)]
    rfl

theorem placeOf_positive (m : ℕ) (e : ℤ) (h : 0 < m) :
    placeOf (.finite .positive m e h) = ((m * (2 : ℝ) ^ e : ℝ) : EReal) := by
  simp [placeOf, Sign.apply]

theorem placeOf_negative (m : ℕ) (e : ℤ) (h : 0 < m) :
    placeOf (.finite .negative m e h) = ((-(m * (2 : ℝ) ^ e) : ℝ) : EReal) := by
  simp [placeOf, Sign.apply]

theorem parts_pos {m : ℕ} (e : ℤ) (h : 0 < m) : (0 : ℝ) < m * (2 : ℝ) ^ e := by
  have : (0 : ℝ) < m := by exact_mod_cast h
  positivity

theorem placeOf_positive_pos (m : ℕ) (e : ℤ) (h : 0 < m) :
    0 < placeOf (.finite .positive m e h) := by
  rw [placeOf_positive]
  exact_mod_cast parts_pos e h

theorem placeOf_negative_neg (m : ℕ) (e : ℤ) (h : 0 < m) :
    placeOf (.finite .negative m e h) < 0 := by
  rw [placeOf_negative]
  have := parts_pos e h
  exact_mod_cast (by linarith : -((m : ℝ) * (2 : ℝ) ^ e) < 0)

theorem placeOf_finite_lt_top (s : Sign) (m : ℕ) (e : ℤ) (h : 0 < m) :
    placeOf (.finite s m e h) < ⊤ := EReal.coe_lt_top _

theorem bot_lt_placeOf_finite (s : Sign) (m : ℕ) (e : ℤ) (h : 0 < m) :
    ⊥ < placeOf (.finite s m e h) := EReal.bot_lt_coe _

/-- Comparing numbers as extended reals compares them as reals. -/
theorem compare_coe (a b : ℝ) : compare (a : EReal) b = compare a b := by
  rcases lt_trichotomy a b with h | rfl | h
  · rw [compare_lt_iff_lt.mpr h, compare_lt_iff_lt.mpr (EReal.coe_lt_coe_iff.mpr h)]
  · rw [compare_eq_iff_eq.mpr rfl, compare_eq_iff_eq.mpr rfl]
  · rw [compare_gt_iff_gt.mpr h, compare_gt_iff_gt.mpr (EReal.coe_lt_coe_iff.mpr h)]

/-- Comparing negatives turns the comparison around. -/
theorem compare_neg (a b : ℝ) : compare (-a) (-b) = (compare a b).swap := by
  rcases lt_trichotomy a b with h | rfl | h
  · rw [compare_lt_iff_lt.mpr h, compare_gt_iff_gt.mpr (neg_lt_neg h)]
    rfl
  · rw [compare_eq_iff_eq.mpr rfl, compare_eq_iff_eq.mpr rfl]
    rfl
  · rw [compare_gt_iff_gt.mpr h, compare_lt_iff_lt.mpr (neg_lt_neg h)]
    rfl

/-- Comparing canonical numbers compares their places. -/
theorem compare_eq_compare_placeOf {u v : UnpackedFloat} (hu : Canonical u) (hv : Canonical v)
    (hnu : u.isNaN = false) (hnv : v.isNaN = false) :
    UnpackedFloat.compare u v = some (compare (placeOf u) (placeOf v)) := by
  rcases u with (_ | _) | _ | s | ⟨_ | _, m, d, hm⟩ <;>
    rcases v with (_ | _) | _ | t | ⟨_ | _, n, e, hn⟩ <;>
    first
    | exact absurd hnu (by decide)
    | exact absurd hnv (by decide)
    | refine congrArg some (Eq.symm ?_)
  -- Two finite numbers of one sign are compared by their parts, all others by their kind.
  case finite.negative.finite.negative =>
    rw [placeOf_negative, placeOf_negative, compare_coe, compare_neg, compare_parts hu hv]
  case finite.positive.finite.positive =>
    rw [placeOf_positive, placeOf_positive, compare_coe, compare_parts hu hv]
  all_goals
    first
    | exact compare_eq_iff_eq.mpr rfl
    | refine compare_lt_iff_lt.mpr ?_
      first
      | exact bot_lt_top
      | exact EReal.bot_lt_zero
      | exact EReal.zero_lt_top
      | exact bot_lt_placeOf_finite _ _ _ _
      | exact placeOf_finite_lt_top _ _ _ _
      | exact placeOf_negative_neg _ _ _
      | exact placeOf_positive_pos _ _ _
      | exact (placeOf_negative_neg _ _ _).trans (placeOf_positive_pos _ _ _)
    | refine compare_gt_iff_gt.mpr ?_
      first
      | exact bot_lt_top
      | exact EReal.bot_lt_zero
      | exact EReal.zero_lt_top
      | exact bot_lt_placeOf_finite _ _ _ _
      | exact placeOf_finite_lt_top _ _ _ _
      | exact placeOf_negative_neg _ _ _
      | exact placeOf_positive_pos _ _ _
      | exact (placeOf_negative_neg _ _ _).trans (placeOf_positive_pos _ _ _)

/-! ## Comparing numbers -/

theorem isNaN_unpack (x : Float) : x.toModel.unpack.isNaN = x.isNaN := rfl

/-- An undefined number compares with nothing. -/
theorem compare_eq_none {u v : UnpackedFloat} (h : u.isNaN = true ∨ v.isNaN = true) :
    UnpackedFloat.compare u v = none := by
  cases u <;> cases v <;> simp_all [UnpackedFloat.compare, UnpackedFloat.isNaN]

/-- Two numbers compare as their places do, if both are defined. -/
theorem compare_eq_some_iff {x y : Float} {o : Ordering} :
    UnpackedFloat.compare x.toModel.unpack y.toModel.unpack = some o ↔
      x.isNaN = false ∧ y.isNaN = false ∧ compare (place x) (place y) = o := by
  by_cases h : x.isNaN = true ∨ y.isNaN = true
  · rw [compare_eq_none h]
    constructor
    · intro hnone
      cases hnone
    · rintro ⟨hx, hy, -⟩
      rcases h with h | h
      · exact absurd (h.symm.trans hx) (by decide)
      · exact absurd (h.symm.trans hy) (by decide)
  · obtain ⟨hx, hy⟩ := not_or.mp h
    rw [Bool.not_eq_true] at hx hy
    rw [compare_eq_compare_placeOf (canonical_unpack x) (canonical_unpack y) hx hy, Option.some_inj]
    simp only [hx, hy, true_and]
    rfl

/-- A number is at most another one when both are defined and their places are so ordered. -/
theorem le_iff {x y : Float} :
    x ≤ y ↔ x.isNaN = false ∧ y.isNaN = false ∧ place x ≤ place y := by
  change decide (UnpackedFloat.le x.toModel.unpack y.toModel.unpack = true) = true ↔ _
  rw [decide_eq_true_iff, UnpackedFloat.le, Option.any_eq_true]
  simp only [compare_eq_some_iff, ← compare_le_iff_le, Ordering.ne_gt_iff_isLE]
  constructor
  · rintro ⟨o, ⟨hx, hy, rfl⟩, hle⟩
    exact ⟨hx, hy, hle⟩
  · rintro ⟨hx, hy, hle⟩
    exact ⟨_, ⟨hx, hy, rfl⟩, hle⟩

/-- A number is below another one when both are defined and their places are so ordered. -/
theorem lt_iff {x y : Float} :
    x < y ↔ x.isNaN = false ∧ y.isNaN = false ∧ place x < place y := by
  change decide (UnpackedFloat.lt x.toModel.unpack y.toModel.unpack = true) = true ↔ _
  rw [decide_eq_true_iff, UnpackedFloat.lt, beq_iff_eq, compare_eq_some_iff, compare_lt_iff_lt]

/-- Two numbers are equal when both are defined and have one place. -/
theorem beq_iff {x y : Float} :
    (x == y) = true ↔ x.isNaN = false ∧ y.isNaN = false ∧ place x = place y := by
  change (UnpackedFloat.compare x.toModel.unpack y.toModel.unpack == some .eq) = true ↔ _
  rw [beq_iff_eq, compare_eq_some_iff, compare_eq_iff_eq]

/-- A finite number is not undefined. -/
theorem isNaN_of_isFinite {x : Float} (h : x.isFinite = true) : x.isNaN = false := by
  change x.toModel.unpack.isFinite = true at h
  change x.toModel.unpack.isNaN = false
  generalize x.toModel.unpack = u at h ⊢
  cases u with
  | notANumber => cases h
  | infinity s => rfl
  | zero s => rfl
  | finite s m e hm => rfl

/-- A number that is not below another one is at least as large, unless one of them is
undefined. -/
theorem le_of_not_lt {x y : Float} (hx : x.isNaN = false) (hy : y.isNaN = false)
    (h : ¬ x < y) : y ≤ x := by
  rw [lt_iff] at h
  exact le_iff.mpr ⟨hy, hx, not_lt.mp fun hlt => h ⟨hx, hy, hlt⟩⟩

theorem not_lt_of_le {x y : Float} (h : x ≤ y) : ¬ y < x := by
  intro hlt
  exact absurd (le_iff.mp h).2.2 (not_le.mpr (lt_iff.mp hlt).2.2)

theorem atMost_trans {x y z : Float} (hxy : x ≤ y) (hyz : y ≤ z) : x ≤ z := by
  rw [le_iff] at *
  exact ⟨hxy.1, hyz.2.1, hxy.2.2.trans hyz.2.2⟩

theorem below_of_below_of_atMost {x y z : Float} (hxy : x < y) (hyz : y ≤ z) : x < z := by
  rw [lt_iff] at *
  rw [le_iff] at hyz
  exact ⟨hxy.1, hyz.2.1, hxy.2.2.trans_le hyz.2.2⟩

theorem below_of_atMost_of_below {x y z : Float} (hxy : x ≤ y) (hyz : y < z) : x < z := by
  rw [lt_iff] at *
  rw [le_iff] at hxy
  exact ⟨hxy.1, hyz.2.1, hxy.2.2.trans_lt hyz.2.2⟩

theorem atMost_of_below {x y : Float} (h : x < y) : x ≤ y := by
  rw [lt_iff] at h
  exact le_iff.mpr ⟨h.1, h.2.1, h.2.2.le⟩

theorem atMost_refl {x : Float} (h : x.isNaN = false) : x ≤ x := le_iff.mpr ⟨h, h, le_rfl⟩

/-! ## The total order of patterns -/

/-- A pattern that stands for a finite number is the pattern of that number. -/
theorem toBits_ofBits {bits : UInt64} (h : (Float.ofBits bits).isFinite = true) :
    (Float.ofBits bits).toBits = bits := by
  have hunpack : (Float.ofBits bits).toModel.unpack =
      saturate (UnpackedFloat.unpack .binary64 bits.toBitVec) := unpack_pack (unpack_canonical _)
  -- Only undefined numbers have patterns that are not in use, and the number is finite.
  have hvalid : Format.binary64.Valid bits.toBitVec := by
    refine ⟨fun htop _ => ?_⟩
    have hfield : exponentField bits.toBitVec = 2047 := by
      rw [← toNat_unpackExponent, htop]
      rfl
    change (Float.ofBits bits).toModel.unpack.isFinite = true at h
    rw [hunpack, unpack_eq_ofFields, ofFields, if_pos hfield] at h
    split_ifs at h <;> cases h
  have hpack := pack_unpack hvalid
  simp only [Float.ofBits, Float.toBits, Float.Model.ofBits, Float.Model.pack]
  rw [hpack]

theorem sizeOfFields_nonneg (exponent fraction : ℕ) : 0 ≤ sizeOfFields exponent fraction := by
  unfold sizeOfFields
  split_ifs <;> positivity

/-- The place of a finite number is its size under its sign. -/
theorem placeOf_ofFields (s : Sign) {exponent : ℕ} (fraction : ℕ) (h : exponent ≠ 2047) :
    placeOf (ofFields s exponent fraction) =
      (((s.apply 1 : ℤ) * sizeOfFields exponent fraction : ℝ) : EReal) := by
  unfold ofFields sizeOfFields
  rw [if_neg h]
  split_ifs with _ h0
  · cases s <;> simp [placeOf, h0]
  · cases s <;> simp [placeOf, Sign.apply]
  · cases s
    · refine congrArg (fun r : ℝ => (r : EReal)) ?_
      simp only [Sign.apply]
      push_cast
      ring
    · simp [placeOf, Sign.apply]

/-- The larger exponent has the larger size, and so has the larger fraction under one exponent. -/
theorem sizeOfFields_le {d e m n : ℕ} (hm : m < 2 ^ 52) (hn : n < 2 ^ 52)
    (h : d * 2 ^ 52 + m ≤ e * 2 ^ 52 + n) : sizeOfFields d m ≤ sizeOfFields e n := by
  have hcanonical (k f : ℕ) (hk : k ≠ 0) (hf : f < 2 ^ 52) :
      CanonicalParts (2 ^ 52 + f) ((k : ℤ) - 1075) :=
    ⟨by omega, by omega, .inl (by omega)⟩
  unfold sizeOfFields
  -- A number without the leading bit lies below all that have one.
  split_ifs with hd he he
  · have : (m : ℝ) ≤ n := by exact_mod_cast (by omega : m ≤ n)
    gcongr
  · have hle : (m : ℝ) ≤ ((2 ^ 52 + n : ℕ) : ℝ) := by exact_mod_cast (by omega : m ≤ 2 ^ 52 + n)
    have hexp : (2 : ℝ) ^ (-1074 : ℤ) ≤ (2 : ℝ) ^ ((e : ℤ) - 1075) :=
      zpow_le_zpow_right₀ (by norm_num) (by omega)
    gcongr
  · omega
  · rcases (show d ≤ e by omega).lt_or_eq with hlt | rfl
    · exact (parts_lt (hcanonical d m hd hm) (hcanonical e n he hn) (by omega)).le
    · have : ((2 ^ 52 + m : ℕ) : ℝ) ≤ ((2 ^ 52 + n : ℕ) : ℝ) := by
        exact_mod_cast (by omega : 2 ^ 52 + m ≤ 2 ^ 52 + n)
      gcongr

/-- The place of a finite number, read off its pattern. -/
theorem place_eq_sizeOfFields {x : Float} (h : x.isFinite = true) :
    place x = (((signField x.toBits.toBitVec).apply 1 : ℤ) *
      sizeOfFields (exponentField x.toBits.toBitVec) (fractionField x.toBits.toBitVec) : ℝ) := by
  have hunpack : x.toModel.unpack = ofFields (signField x.toBits.toBitVec)
      (exponentField x.toBits.toBitVec) (fractionField x.toBits.toBitVec) :=
    unpack_eq_ofFields _
  rw [place, hunpack]
  apply placeOf_ofFields
  -- With every exponent bit set the number would be no finite one.
  intro htop
  change x.toModel.unpack.isFinite = true at h
  rw [hunpack, ofFields, if_pos htop] at h
  split_ifs at h <;> cases h

/-- The total order of patterns refines the comparison of finite numbers. -/
theorem le_of_patternRank_le {x y : Float} (hx : x.isFinite = true) (hy : y.isFinite = true)
    (h : patternRank x.toBits ≤ patternRank y.toBits) : x ≤ y := by
  refine le_iff.mpr ⟨isNaN_of_isFinite hx, isNaN_of_isFinite hy, ?_⟩
  rw [place_eq_sizeOfFields hx, place_eq_sizeOfFields hy, EReal.coe_le_coe_iff]
  have hxb : x.toBits.toBitVec.toNat < 2 ^ 64 := x.toBits.toBitVec.isLt
  have hyb : y.toBits.toBitVec.toNat < 2 ^ 64 := y.toBits.toBitVec.isLt
  have hfx := fractionField_lt x.toBits.toBitVec
  have hfy := fractionField_lt y.toBits.toBitVec
  have hsx := sizeOfFields_nonneg (exponentField x.toBits.toBitVec)
    (fractionField x.toBits.toBitVec)
  have hsy := sizeOfFields_nonneg (exponentField y.toBits.toBitVec)
    (fractionField y.toBits.toBitVec)
  have hcount : countLimit = 2 ^ 64 - 1 := rfl
  unfold patternRank at h
  rw [hcount, show Nat.pow 2 63 = 2 ^ 63 from rfl] at h
  change (if x.toBits.toBitVec.toNat < 2 ^ 63 then x.toBits.toBitVec.toNat + 2 ^ 63
      else 2 ^ 64 - 1 - x.toBits.toBitVec.toNat) ≤
    if y.toBits.toBitVec.toNat < 2 ^ 63 then y.toBits.toBitVec.toNat + 2 ^ 63
      else 2 ^ 64 - 1 - y.toBits.toBitVec.toNat at h
  -- The size grows with the pattern above zero and falls with it below.
  unfold signField
  by_cases hxs : x.toBits.toBitVec.toNat < 2 ^ 63 <;>
    by_cases hys : y.toBits.toBitVec.toNat < 2 ^ 63
  · rw [if_pos hxs, if_pos hys] at h ⊢
    have hle := sizeOfFields_le (d := exponentField x.toBits.toBitVec)
      (e := exponentField y.toBits.toBitVec) hfx hfy (by
        unfold exponentField fractionField
        omega)
    simpa [Sign.apply] using hle
  · rw [if_pos hxs, if_neg hys] at h
    omega
  · rw [if_neg hxs, if_pos hys]
    simp only [Sign.apply]
    push_cast
    linarith
  · rw [if_neg hxs, if_neg hys] at h ⊢
    have hle := sizeOfFields_le (d := exponentField y.toBits.toBitVec)
      (e := exponentField x.toBits.toBitVec) hfy hfx (by
        unfold exponentField fractionField
        omega)
    simpa [Sign.apply] using hle

end Cadence.Number
