import Mathlib
import Cadence.Proofs.Number.Order

/-!
# Rounding to binary64

Every operation on finite numbers works out its exact result, cuts it down to fifty-three bits and
rounds to nearest, halves to the even neighbour. This file proves that of that rounding:

- `rounded_mono`: the rounding is monotone;
- `placeOf_saturate`: packing a canonical number clips its place;
- `nearest_roundWithAccuracy` and `nearest_round`: the two ways in which an exact result is cut down
  give the nearest canonical number.
-/

namespace Cadence.Number

open Float.Model Float.Model.UnpackedFloat

/-! ## Rounding to a whole number -/

theorem floor_le_nearestEven (x : ℝ) : ⌊x⌋ ≤ nearestEven x := by
  unfold nearestEven
  split_ifs <;> omega

theorem nearestEven_le_floor_add_one (x : ℝ) : nearestEven x ≤ ⌊x⌋ + 1 := by
  unfold nearestEven
  split_ifs <;> omega

@[simp]
theorem nearestEven_intCast (n : ℤ) : nearestEven n = n := by
  simp [nearestEven]

/-- Rounding to a whole number is monotone. -/
theorem nearestEven_mono : Monotone nearestEven := by
  intro x y hxy
  rcases (Int.floor_le_floor hxy).lt_or_eq with hlt | heq
  · calc nearestEven x ≤ ⌊x⌋ + 1 := nearestEven_le_floor_add_one x
      _ ≤ ⌊y⌋ := hlt
      _ ≤ nearestEven y := floor_le_nearestEven y
  · -- With the same whole part, the larger fraction is rounded up whenever the smaller one is.
    have hfract : Int.fract x ≤ Int.fract y := by
      rw [Int.fract, Int.fract, heq]
      linarith
    unfold nearestEven
    rw [heq]
    split_ifs with _ _ _ hx
    all_goals first | omega | exfalso
    all_goals first | linarith | exact hx (le_antisymm (by linarith) (by linarith))

/-! ## What the residual bits stand for -/

/-- The part that was cut off is less than one. -/
theorem Residue.bounds {round sticky : Bool} {r : ℝ} (h : Residue round sticky r) :
    0 ≤ r ∧ r < 1 := by
  cases round <;> cases sticky <;> simp only [Residue] at h <;> constructor <;> linarith

/-- The mantissa is the whole part. -/
theorem Truncates.floor_eq {em : ExtendedMantissa} {x : ℝ} (h : Truncates em x) :
    ⌊x⌋ = em.mantissa := by
  obtain ⟨hlow, hhigh⟩ := Residue.bounds h
  rw [Int.floor_eq_iff]
  push_cast
  constructor <;> linarith

/-- Rounding by the residual bits is rounding to the nearest whole number. -/
theorem Truncates.roundedMantissa_eq {em : ExtendedMantissa} {x : ℝ} (h : Truncates em x) :
    (em.roundedMantissa : ℤ) = nearestEven x := by
  have hfract : Int.fract x = x - em.mantissa := by
    rw [Int.fract, h.floor_eq]
    simp
  unfold nearestEven
  rw [hfract, h.floor_eq]
  obtain ⟨m, round, sticky⟩ := em
  unfold Truncates at h
  unfold ExtendedMantissa.roundedMantissa
  cases round <;> cases sticky <;>
    simp only [Residue, ExtendedMantissa.accuracy, Accuracy.roundToNearestEven] at h ⊢
  · rw [if_pos (by linarith)]
  · rw [if_pos (by linarith)]
  · rw [if_neg (by linarith), if_pos h]
    push_cast
    rfl
  · rw [if_neg (by linarith), if_neg (by linarith)]
    push_cast
    rfl

/-- Shifting an extended mantissa halves the real. -/
theorem Truncates.shiftRightOne {em : ExtendedMantissa} {x : ℝ} (h : Truncates em x) :
    Truncates em.shiftRightOne (x / 2) := by
  obtain ⟨m, round, sticky⟩ := em
  have hbounds := Residue.bounds h
  have hsplit : (m : ℝ) = 2 * (m / 2 : ℕ) + (m % 2 : ℕ) := by
    exact_mod_cast (Nat.div_add_mod m 2).symm
  unfold Truncates at h ⊢
  simp only [ExtendedMantissa.shiftRightOne] at h hbounds ⊢
  -- The bit that leaves the mantissa becomes the round bit.
  rcases Nat.mod_two_eq_zero_or_one m with hbit | hbit
  · rw [hbit] at hsplit
    push_cast at hsplit
    cases round <;> cases sticky <;> simp [Residue, hbit] at h ⊢ <;>
      first | linarith | (constructor <;> linarith)
  · rw [hbit] at hsplit
    push_cast at hsplit
    cases round <;> cases sticky <;> simp [Residue, hbit] at h ⊢ <;>
      first | linarith | (constructor <;> linarith)

/-- Shifting an extended mantissa divides the real by a power of two. -/
theorem Truncates.shiftRight {em : ExtendedMantissa} {x : ℝ} (h : Truncates em x) (n : ℕ) :
    Truncates (em >>> n) (x / 2 ^ n) := by
  change Truncates (n.repeat ExtendedMantissa.shiftRightOne em) _
  induction n with
  | zero => simpa [Nat.repeat] using h
  | succ n ih =>
    rw [pow_succ, ← div_div]
    exact ih.shiftRightOne

theorem truncates_exact (m : ℕ) : Truncates (.ofMantissaAndAccuracy m .exact) m := by
  simp [Truncates, ExtendedMantissa.ofMantissaAndAccuracy, Residue]

/-! ## Rounding a real -/

theorem neg_le_gridExponent (q : ℝ) : -1074 ≤ gridExponent q := le_max_right _ _

theorem gridExponent_mono {p q : ℝ} (hp : 0 < p) (h : p ≤ q) : gridExponent p ≤ gridExponent q := by
  have := Int.log_mono_right (b := 2) hp h
  unfold gridExponent
  omega

/-- A power of two that is a multiple of the last bit is a whole number of such bits. -/
theorem two_zpow_div {d e : ℤ} (h : e ≤ d) :
    (2 : ℝ) ^ d / (2 : ℝ) ^ e = ((2 ^ (d - e).toNat : ℤ) : ℝ) := by
  rw [← zpow_sub₀ (by norm_num)]
  push_cast
  rw [← zpow_natCast, Int.toNat_of_nonneg (by omega)]

/-- Rounding to a last bit does not change a power of two that is a multiple of it. -/
theorem nearestEven_two_zpow {d e : ℤ} (h : e ≤ d) :
    (nearestEven ((2 : ℝ) ^ d / (2 : ℝ) ^ e) : ℝ) * (2 : ℝ) ^ e = (2 : ℝ) ^ d := by
  rw [two_zpow_div h, nearestEven_intCast, ← two_zpow_div h, div_mul_cancel₀]
  positivity

/-- Rounding does not carry a number above a power of two that is a multiple of its last bit. -/
theorem nearest_le_two_zpow {q : ℝ} {d : ℤ} (hd : gridExponent q ≤ d) (h : q ≤ (2 : ℝ) ^ d) :
    nearest q ≤ (2 : ℝ) ^ d := by
  rw [← nearestEven_two_zpow hd]
  unfold nearest
  have : nearestEven (q / (2 : ℝ) ^ gridExponent q) ≤
      nearestEven ((2 : ℝ) ^ d / (2 : ℝ) ^ gridExponent q) := nearestEven_mono (by gcongr)
  gcongr

/-- Nor does it carry one below such a power of two. -/
theorem two_zpow_le_nearest {q : ℝ} {d : ℤ} (hd : gridExponent q ≤ d) (h : (2 : ℝ) ^ d ≤ q) :
    (2 : ℝ) ^ d ≤ nearest q := by
  rw [← nearestEven_two_zpow hd]
  unfold nearest
  have : nearestEven ((2 : ℝ) ^ d / (2 : ℝ) ^ gridExponent q) ≤
      nearestEven (q / (2 : ℝ) ^ gridExponent q) := nearestEven_mono (by gcongr)
  gcongr

@[simp]
theorem nearest_zero : nearest 0 = 0 := by
  have := nearestEven_intCast 0
  simp only [Int.cast_zero] at this
  simp [nearest, this]

theorem nearest_nonneg {q : ℝ} (h : 0 ≤ q) : 0 ≤ nearest q := by
  have hfloor : (0 : ℤ) ≤ ⌊q / (2 : ℝ) ^ gridExponent q⌋ := Int.floor_nonneg.mpr (by positivity)
  have hnearest : (0 : ℝ) ≤ nearestEven (q / (2 : ℝ) ^ gridExponent q) := by
    exact_mod_cast hfloor.trans (floor_le_nearestEven _)
  unfold nearest
  positivity

/-- A positive number lies between two powers of two. -/
theorem log_bounds {q : ℝ} (h : 0 < q) :
    (2 : ℝ) ^ Int.log 2 q ≤ q ∧ q < (2 : ℝ) ^ (Int.log 2 q + 1) := by
  have hlow := Int.zpow_log_le_self (b := 2) (by norm_num) h
  have hhigh := Int.lt_zpow_succ_log_self (b := 2) (by norm_num) q
  exact ⟨by exact_mod_cast hlow, by exact_mod_cast hhigh⟩

/-- Rounding is monotone on numbers that are not negative. -/
theorem nearest_le_nearest {p q : ℝ} (hp : 0 ≤ p) (hpq : p ≤ q) : nearest p ≤ nearest q := by
  rcases hp.eq_or_lt with rfl | hpos
  · rw [nearest_zero]
    exact nearest_nonneg hpq
  · rcases (gridExponent_mono hpos hpq).eq_or_lt with heq | hlt
    · unfold nearest
      rw [heq]
      have := nearestEven_mono (show p / (2 : ℝ) ^ gridExponent q ≤ q / (2 : ℝ) ^ gridExponent q by
        gcongr)
      gcongr
    · -- A power of two lies between the two, and it is a multiple of both last bits.
      have hgrid : gridExponent q = Int.log 2 q - 52 := by
        unfold gridExponent at hlt ⊢
        omega
      have hlog : Int.log 2 p + 1 ≤ Int.log 2 q := by
        unfold gridExponent at hlt
        omega
      have hp2 : p ≤ (2 : ℝ) ^ Int.log 2 q :=
        (log_bounds hpos).2.le.trans (zpow_le_zpow_right₀ (by norm_num) hlog)
      calc nearest p ≤ (2 : ℝ) ^ Int.log 2 q := nearest_le_two_zpow (by omega) hp2
        _ ≤ nearest q := two_zpow_le_nearest (by omega) (log_bounds (hpos.trans_le hpq)).1

theorem nearestSigned_of_nonneg {p : ℝ} (h : 0 ≤ p) : nearestSigned p = nearest p := if_neg (not_lt.mpr h)

theorem nearestSigned_zero : nearestSigned 0 = 0 := by rw [nearestSigned_of_nonneg le_rfl, nearest_zero]

theorem nearestSigned_nonneg {p : ℝ} (h : 0 ≤ p) : 0 ≤ nearestSigned p := by
  rw [nearestSigned_of_nonneg h]
  exact nearest_nonneg h

theorem nearestSigned_mono : Monotone nearestSigned := by
  intro p q hpq
  unfold nearestSigned
  split_ifs with hp hq hq
  · exact neg_le_neg (nearest_le_nearest (by linarith) (by linarith))
  · have := nearest_nonneg (show 0 ≤ -p by linarith)
    have := nearest_nonneg (not_lt.mp hq)
    linarith
  · exact absurd (hpq.trans_lt hq) hp
  · exact nearest_le_nearest (not_lt.mp hp) hpq

theorem clip_mono : Monotone clip := by
  intro v w hvw
  unfold clip
  split_ifs with hv hw hw hv' hw' hw' <;>
    first | exact bot_le | exact le_top | exact EReal.coe_le_coe_iff.mpr hvw | (exfalso; linarith)

theorem rounded_mono : Monotone rounded := clip_mono.comp nearestSigned_mono

/-! ## Packing a nearest number -/

theorem overflow_pos : 0 < overflow := by
  unfold overflow
  positivity

/-- A canonical number is too large exactly when its exponent is. -/
theorem overflow_le_iff {m : ℕ} {e : ℤ} (hc : CanonicalParts m e) :
    overflow ≤ m * (2 : ℝ) ^ e ↔ 971 < e := by
  have hscale (d : ℤ) : (0 : ℝ) < (2 : ℝ) ^ d := by positivity
  constructor
  · intro h
    by_contra hle
    -- Fifty-three bits at the largest exponent stay below the bound.
    have hm : (m : ℝ) < (2 : ℝ) ^ (53 : ℤ) := by exact_mod_cast hc.1
    have : (m : ℝ) * (2 : ℝ) ^ e < overflow := by
      calc (m : ℝ) * (2 : ℝ) ^ e < (2 : ℝ) ^ (53 : ℤ) * (2 : ℝ) ^ e := by
            have := hscale e
            gcongr
        _ ≤ (2 : ℝ) ^ (53 : ℤ) * (2 : ℝ) ^ (971 : ℤ) := by
            have := hscale 53
            have := zpow_le_zpow_right₀ (by norm_num : (1 : ℝ) ≤ 2) (not_lt.mp hle)
            gcongr
        _ = overflow := by
            rw [overflow, ← zpow_add₀ (by norm_num)]
            norm_num
    linarith
  · intro h
    -- Above the least exponent the leading bit is set, and it alone reaches the bound.
    have hm : (2 : ℝ) ^ (52 : ℤ) ≤ m := by
      have hlead : 2 ^ 52 ≤ m := by
        have := hc.2.2
        omega
      exact_mod_cast hlead
    calc overflow = (2 : ℝ) ^ (52 : ℤ) * (2 : ℝ) ^ (972 : ℤ) := by
          rw [overflow, ← zpow_add₀ (by norm_num)]
          norm_num
      _ ≤ (2 : ℝ) ^ (52 : ℤ) * (2 : ℝ) ^ e := by
          have := hscale 52
          have := zpow_le_zpow_right₀ (by norm_num : (1 : ℝ) ≤ 2) (show (972 : ℤ) ≤ e by omega)
          gcongr
      _ ≤ m * (2 : ℝ) ^ e := by
          have := hscale e
          gcongr

theorem unpack_ofModel_pack {u : UnpackedFloat} (hc : Canonical u) :
    (Float.ofModel (.pack u)).toModel.unpack = saturate u := unpack_pack hc

/-- An unpacked number is the nearest one to a size under a sign. -/
structure IsNearest (u : UnpackedFloat) (s : Sign) (q : ℝ) : Prop where
  /-- It is in canonical form. -/
  canonical : Canonical u
  /-- It is no infinity and not undefined. -/
  isFinite : u.isFinite = true
  /-- Its place is the rounded size. -/
  placeOf_eq : placeOf u = (((s.apply 1 : ℤ) * nearest q : ℝ) : EReal)

/-- Saturating a finite canonical number clips its place. -/
theorem placeOf_saturate {u : UnpackedFloat} {v : ℝ} (hc : Canonical u)
    (hfinite : u.isFinite = true) (hv : placeOf u = v) :
    placeOf (saturate u) = clip v ∧ (saturate u).isNaN = false := by
  have hover := overflow_pos
  cases u with
  | notANumber => cases hfinite
  | infinity s => cases hfinite
  | zero s =>
    have hv0 : v = 0 := EReal.coe_eq_zero.mp hv.symm
    subst hv0
    rw [clip, if_neg (by linarith), if_neg (by linarith)]
    exact ⟨rfl, rfl⟩
  | finite s m e hm =>
    have hsat : saturate (.finite s m e hm) = if 971 < e then .infinity s else .finite s m e hm :=
      rfl
    have hiff := overflow_le_iff hc
    have hpos := parts_pos e hm
    have hsize : v = m * (2 : ℝ) ^ e ∧ s = .positive ∨ v = -(m * (2 : ℝ) ^ e) ∧ s = .negative := by
      cases s with
      | negative => exact .inr ⟨EReal.coe_injective (hv.symm.trans (placeOf_negative m e hm)), rfl⟩
      | positive => exact .inl ⟨EReal.coe_injective (hv.symm.trans (placeOf_positive m e hm)), rfl⟩
    rw [hsat]
    by_cases he : 971 < e
    · have hlarge := hiff.mpr he
      rw [if_pos he]
      refine ⟨?_, rfl⟩
      rcases hsize with ⟨rfl, rfl⟩ | ⟨rfl, rfl⟩
      · rw [clip, if_neg (by linarith), if_pos hlarge]
        rfl
      · rw [clip, if_pos (by linarith)]
        rfl
    · have hsmall := not_le.mp (mt hiff.mp he)
      rw [if_neg he, hv]
      refine ⟨?_, rfl⟩
      rcases hsize with ⟨rfl, rfl⟩ | ⟨rfl, rfl⟩ <;>
        rw [clip, if_neg (by linarith), if_neg (by linarith)]

/-! ## Cutting an exact result down -/

/-- The exponent that a mantissa is cut down to. -/
theorem targetExponent_eq (m : ℕ) (e : ℤ) :
    Format.binary64.targetExponent (totalExponent m e) = max (m.log2 + e - 52) (-1074) := by
  simp only [Format.targetExponent, totalExponent, Format.mantissaBits, Format.minExponent]
  norm_num
  congr 1
  ring

/-- Cutting down shifts by as many bits as the target exponent lies above the exponent. -/
theorem shiftToTargetExponent_eq (m : ℕ) (e : ℤ) (acc : Accuracy) :
    shiftToTargetExponent .binary64 m e acc =
      (ExtendedMantissa.ofMantissaAndAccuracy m acc >>>
          (max ((m.log2 : ℤ) + e - 52) (-1074) - e).toNat,
        e + (max ((m.log2 : ℤ) + e - 52) (-1074) - e).toNat) := by
  simp only [shiftToTargetExponent, shiftToExponent, targetExponent_eq]

/-- A factor of a power of two adds its bits. -/
theorem log2_shiftLeft {m : ℕ} (hm : 0 < m) (k : ℕ) : (m <<< k).log2 = m.log2 + k := by
  rw [Nat.shiftLeft_eq, Nat.log2_eq_iff (by positivity)]
  constructor
  · rw [pow_add]
    gcongr
    exact Nat.log2_self_le hm.ne'
  · rw [show m.log2 + k + 1 = m.log2 + 1 + k by ring, pow_add]
    gcongr
    exact Nat.lt_log2_self

/-- The bits of a mantissa and its exponent give the logarithm of the real it was cut from. -/
theorem log_of_floor {m : ℕ} (e : ℤ) {x : ℝ} (hm : 0 < m) (hx : ⌊x⌋ = m) :
    Int.log 2 (x * (2 : ℝ) ^ e) = m.log2 + e := by
  have hbounds := Int.floor_eq_iff.mp hx
  push_cast at hbounds
  have hlow : (2 : ℝ) ^ (m.log2 : ℤ) ≤ x := by
    have : ((2 ^ m.log2 : ℕ) : ℝ) ≤ m := by exact_mod_cast Nat.log2_self_le hm.ne'
    push_cast at this
    rw [zpow_natCast]
    linarith
  have hhigh : x < (2 : ℝ) ^ ((m.log2 : ℤ) + 1) := by
    have : ((m + 1 : ℕ) : ℝ) ≤ (2 ^ (m.log2 + 1) : ℕ) := by
      exact_mod_cast Nat.lt_log2_self
    push_cast at this
    rw [show (m.log2 : ℤ) + 1 = ((m.log2 + 1 : ℕ) : ℤ) by push_cast; ring, zpow_natCast]
    linarith
  have hscale : (0 : ℝ) < (2 : ℝ) ^ e := by positivity
  have hpos : 0 < x * (2 : ℝ) ^ e := by
    have : (0 : ℝ) < (2 : ℝ) ^ (m.log2 : ℤ) := by positivity
    exact mul_pos (this.trans_le hlow) hscale
  -- The whole part has its leading bit where the real has it.
  apply le_antisymm
  · refine Int.lt_add_one_iff.mp ((Int.lt_zpow_iff_log_lt (by norm_num) hpos).mp ?_)
    push_cast
    rw [show (m.log2 : ℤ) + e + 1 = m.log2 + 1 + e by ring, zpow_add₀ (by norm_num)]
    gcongr
  · refine (Int.zpow_le_iff_le_log (by norm_num) hpos).mp ?_
    push_cast
    rw [zpow_add₀ (by norm_num)]
    gcongr

/-- The whole factor that rounding arrives at, before it is brought back to fifty-three bits. -/
structure RoundedFactor (q : ℝ) (r : ℕ) (e : ℤ) : Prop where
  /-- It is the rounded size in units of the exponent. -/
  nearest_eq : nearest q = r * (2 : ℝ) ^ e
  /-- It has at most one bit too many, and then it is a power of two. -/
  le_two_pow : r ≤ 2 ^ 53
  /-- It has enough bits, unless the exponent is the least one. -/
  fills : 2 ^ 52 ≤ r ∨ e = -1074
  /-- The exponent is not too small. -/
  least_le : -1074 ≤ e

/-- Rounding at the last bit of a positive number. -/
theorem roundedFactor_of_grid {q : ℝ} {r : ℕ} (hq : 0 < q)
    (hr : (r : ℤ) = nearestEven (q / (2 : ℝ) ^ gridExponent q)) :
    RoundedFactor q r (gridExponent q) := by
  have hscale : (0 : ℝ) < (2 : ℝ) ^ gridExponent q := by positivity
  obtain ⟨hlow, hhigh⟩ := log_bounds hq
  refine ⟨?_, ?_, ?_, neg_le_gridExponent q⟩
  · rw [nearest, ← hr]
    push_cast
    rfl
  · -- The power of two above the number is a multiple of the last bit, so rounding stops there.
    have hle : q / (2 : ℝ) ^ gridExponent q ≤ ((2 ^ 53 : ℤ) : ℝ) := by
      rw [div_le_iff₀ hscale, Int.cast_pow, Int.cast_ofNat, ← zpow_natCast,
        ← zpow_add₀ (by norm_num)]
      refine hhigh.le.trans (zpow_le_zpow_right₀ (by norm_num) ?_)
      unfold gridExponent
      push_cast
      omega
    have := nearestEven_mono hle
    rw [nearestEven_intCast, ← hr] at this
    exact_mod_cast this
  · by_cases hleast : gridExponent q = -1074
    · exact .inr hleast
    · left
      -- So is the power of two below it, unless the last bit is the least one.
      have hgrid : gridExponent q = Int.log 2 q - 52 := by
        unfold gridExponent at hleast ⊢
        omega
      have hle : ((2 ^ 52 : ℤ) : ℝ) ≤ q / (2 : ℝ) ^ gridExponent q := by
        rw [le_div_iff₀ hscale, Int.cast_pow, Int.cast_ofNat, ← zpow_natCast,
          ← zpow_add₀ (by norm_num)]
        refine le_trans (zpow_le_zpow_right₀ (by norm_num) ?_) hlow
        push_cast
        omega
      have := nearestEven_mono hle
      rw [nearestEven_intCast, ← hr] at this
      exact_mod_cast this

/-- Shifting right and rounding by the residual bits is rounding at the higher exponent. -/
theorem roundedMantissa_shiftRight {m : ℕ} {acc : Accuracy} {x : ℝ}
    (hx : Truncates (.ofMantissaAndAccuracy m acc) x) {e t : ℤ} (ht : e ≤ t) :
    ((ExtendedMantissa.ofMantissaAndAccuracy m acc >>> (t - e).toNat).roundedMantissa : ℤ) =
      nearestEven (x * (2 : ℝ) ^ e / (2 : ℝ) ^ t) := by
  rw [(hx.shiftRight _).roundedMantissa_eq, ← zpow_natCast, Int.toNat_of_nonneg (by omega),
    zpow_sub₀ (by norm_num)]
  congr 1
  field_simp

/-- Less than one unit of the least exponent: one bit may come out of rounding up. -/
theorem roundedFactor_of_floor_eq_zero {x : ℝ} {e : ℤ} {r : ℕ} (hx : ⌊x⌋ = 0) (he : e ≤ -1074)
    (hr : (r : ℤ) = nearestEven (x * (2 : ℝ) ^ e / (2 : ℝ) ^ (-1074 : ℤ))) :
    RoundedFactor (x * (2 : ℝ) ^ e) r (-1074) := by
  obtain ⟨hnonneg, hlt⟩ := Int.floor_eq_iff.mp hx
  push_cast at hnonneg hlt
  rcases hnonneg.eq_or_lt with rfl | hpos
  · have hzero : nearestEven (0 * (2 : ℝ) ^ e / (2 : ℝ) ^ (-1074 : ℤ)) = 0 := by
      have := nearestEven_intCast 0
      simp only [Int.cast_zero] at this
      simp [this]
    rw [hzero] at hr
    obtain rfl : r = 0 := by exact_mod_cast hr
    exact ⟨by simp, by norm_num, .inr rfl, le_rfl⟩
  · have hq : 0 < x * (2 : ℝ) ^ e := by positivity
    have hgrid : gridExponent (x * (2 : ℝ) ^ e) = -1074 := by
      have hlog : Int.log 2 (x * (2 : ℝ) ^ e) < e := by
        refine (Int.lt_zpow_iff_log_lt (by norm_num) hq).mp ?_
        push_cast
        have : (0 : ℝ) < (2 : ℝ) ^ e := by positivity
        nlinarith
      unfold gridExponent
      omega
    have := roundedFactor_of_grid hq (hgrid ▸ hr)
    rwa [hgrid] at this

/-- Rounding what was cut down to the target exponent. -/
theorem roundedFactor_of_truncates {m : ℕ} {e : ℤ} {acc : Accuracy} {x : ℝ}
    (hx : Truncates (.ofMantissaAndAccuracy m acc) x)
    (he : e ≤ max (m.log2 + e - 52) (-1074)) (hempty : m = 0 → e ≤ -1074) :
    RoundedFactor (x * (2 : ℝ) ^ e)
      ((ExtendedMantissa.ofMantissaAndAccuracy m acc >>>
        (max (m.log2 + e - 52) (-1074) - e).toNat).roundedMantissa)
      (max (m.log2 + e - 52) (-1074)) := by
  have hmantissa : (ExtendedMantissa.ofMantissaAndAccuracy m acc).mantissa = m := by
    rcases acc with _ | _ | _ | _ <;> rfl
  have hfloor : ⌊x⌋ = m := by rw [hx.floor_eq, hmantissa]
  rcases Nat.eq_zero_or_pos m with rfl | hm
  · have hmax : max (((0 : ℕ).log2 : ℤ) + e - 52) (-1074) = -1074 := by
      have := hempty rfl
      simp only [Nat.log2_zero]
      omega
    rw [hmax]
    exact roundedFactor_of_floor_eq_zero hfloor (hempty rfl)
      (roundedMantissa_shiftRight hx (hempty rfl))
  · -- The bits of the mantissa give the exponent of the last bit that is kept.
    have hscale : (0 : ℝ) < (2 : ℝ) ^ e := by positivity
    have hxpos : 0 < x := by
      have := (Int.floor_eq_iff.mp hfloor).1
      have : (0 : ℝ) < m := by exact_mod_cast hm
      push_cast at *
      linarith
    have hgrid : gridExponent (x * (2 : ℝ) ^ e) = max (m.log2 + e - 52) (-1074) := by
      rw [gridExponent, log_of_floor e hm hfloor]
    rw [← hgrid] at he ⊢
    exact roundedFactor_of_grid (mul_pos hxpos hscale) (roundedMantissa_shiftRight hx he)

/-- The number with a whole factor that is brought back to fifty-three bits. -/
def ofRounded (s : Sign) (r : ℕ) (e : ℤ) : UnpackedFloat :=
  let cut := shiftToTargetExponent .binary64 r e .exact
  if h : cut.1.mantissa = 0 then .zero s else .finite s cut.1.mantissa cut.2 (Nat.pos_of_ne_zero h)

/-- A whole factor and an exponent that are canonical are left as they are. -/
theorem isNearest_of_parts {s : Sign} {q : ℝ} {u : UnpackedFloat} {r : ℕ} {e : ℤ}
    (hu : u = if h : r = 0 then .zero s else .finite s r e (Nat.pos_of_ne_zero h))
    (hc : CanonicalParts r e) (hq : nearest q = r * (2 : ℝ) ^ e) : IsNearest u s q := by
  rcases Nat.eq_zero_or_pos r with rfl | hr
  · rw [dif_pos rfl] at hu
    subst hu
    refine ⟨trivial, rfl, ?_⟩
    rw [hq]
    simp [placeOf]
  · rw [dif_neg hr.ne'] at hu
    subst hu
    refine ⟨hc, rfl, ?_⟩
    rw [hq]
    cases s
    · rw [placeOf_negative]
      simp [Sign.apply]
    · rw [placeOf_positive]
      simp [Sign.apply]

/-- Bringing a whole factor back to fifty-three bits does not change the number. -/
theorem nearest_ofRounded (s : Sign) {q : ℝ} {r : ℕ} {e : ℤ} (h : RoundedFactor q r e) :
    IsNearest (ofRounded s r e) s q := by
  obtain ⟨hnearest, hle, hfills, hleast⟩ := h
  rcases hle.lt_or_eq with hlt | rfl
  · have hlog : r.log2 ≤ 52 := by
      rcases Nat.eq_zero_or_pos r with rfl | hr
      · simp
      · exact Nat.lt_succ_iff.mp ((Nat.log2_lt hr.ne').mpr hlt)
    -- Fifty-three bits or fewer are not shifted.
    have hcut : shiftToTargetExponent .binary64 r e .exact =
        (ExtendedMantissa.ofMantissaAndAccuracy r .exact, e) := by
      rw [shiftToTargetExponent_eq,
        show (max ((r.log2 : ℤ) + e - 52) (-1074) - e).toNat = 0 by omega, Nat.cast_zero, add_zero]
      rfl
    refine isNearest_of_parts ?_ ⟨hlt, hleast, hfills⟩ hnearest
    unfold ofRounded
    simp only [hcut]
    rfl
  · -- A power of two with one bit too many is halved once.
    have hcut : shiftToTargetExponent .binary64 (2 ^ 53) e .exact =
        ((ExtendedMantissa.ofMantissaAndAccuracy (2 ^ 53) .exact).shiftRightOne, e + 1) := by
      rw [shiftToTargetExponent_eq, Nat.log2_two_pow,
        show (max (((53 : ℕ) : ℤ) + e - 52) (-1074) - e).toNat = 1 by omega]
      rfl
    have hhalf : nearest q = (2 ^ 52 : ℕ) * (2 : ℝ) ^ (e + 1) := by
      rw [hnearest, zpow_add₀ (by norm_num)]
      push_cast
      ring
    refine isNearest_of_parts ?_ ⟨by norm_num, by omega, .inl le_rfl⟩ hhalf
    unfold ofRounded
    simp only [hcut]
    rfl

/-- Cutting an exact result down gives the nearest canonical number. -/
theorem nearest_roundWithAccuracy (s : Sign) {m : ℕ} {e : ℤ} {acc : Accuracy} {x : ℝ}
    (hx : Truncates (.ofMantissaAndAccuracy m acc) x)
    (he : e ≤ max (m.log2 + e - 52) (-1074)) (hempty : m = 0 → e ≤ -1074) :
    IsNearest (roundWithAccuracy .binary64 s m e acc) s (x * (2 : ℝ) ^ e) := by
  have hfactor := roundedFactor_of_truncates hx he hempty
  have hshift : e + ((max ((m.log2 : ℤ) + e - 52) (-1074) - e).toNat : ℤ) =
      max (m.log2 + e - 52) (-1074) := by omega
  have hcut : shiftToTargetExponent .binary64 m e acc =
      (ExtendedMantissa.ofMantissaAndAccuracy m acc >>>
        (max ((m.log2 : ℤ) + e - 52) (-1074) - e).toNat, max ((m.log2 : ℤ) + e - 52) (-1074)) := by
    rw [shiftToTargetExponent_eq, hshift]
  have hround : roundWithAccuracy .binary64 s m e acc =
      ofRounded s (shiftToTargetExponent .binary64 m e acc).1.roundedMantissa
        (shiftToTargetExponent .binary64 m e acc).2 := rfl
  rw [hround, hcut]
  exact nearest_ofRounded s hfactor

/-- Rounding a whole number times a power of two gives the nearest canonical number. -/
theorem nearest_round (s : Sign) {m : ℕ} (hm : 0 < m) (e : ℤ) :
    IsNearest (UnpackedFloat.round .binary64 s m e) s (m * (2 : ℝ) ^ e) := by
  have hround : UnpackedFloat.round .binary64 s m e =
      roundWithAccuracy .binary64 s (m <<< (e - max ((m.log2 : ℤ) + e - 52) (-1074)).toNat)
        (e - (e - max ((m.log2 : ℤ) + e - 52) (-1074)).toNat) .exact := by
    rw [← targetExponent_eq]
    rfl
  rw [hround]
  generalize hk : (e - max ((m.log2 : ℤ) + e - 52) (-1074)).toNat = k
  have hvalue : (m : ℝ) * (2 : ℝ) ^ e = ((m <<< k : ℕ) : ℝ) * (2 : ℝ) ^ (e - k) := by
    rw [Nat.shiftLeft_eq, zpow_sub₀ (by norm_num), zpow_natCast]
    push_cast
    field_simp
  have hpos : 0 < m <<< k := by
    rw [Nat.shiftLeft_eq]
    positivity
  rw [hvalue]
  refine nearest_roundWithAccuracy s (truncates_exact _) ?_ (fun h => absurd h hpos.ne')
  rw [log2_shiftLeft hm k]
  push_cast
  omega

end Cadence.Number
