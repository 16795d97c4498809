import Mathlib
import Cadence.Proofs.Number.Cycle
import Cadence.Proofs.Number.Digits
import Cadence.Proofs.Number.Exact
import Cadence.Proofs.Number.Range
import Cadence.Proofs.Number.Shortest

/-!
# Reading numbers back

A decimal is read as its value, rounded, also where it is far beyond the largest number or far below the
smallest one. The shortest decimal of a number is rounded to that number, so it is read as the number again,
and so is every other decimal of the same value.

- `place_ofScientific`: what a whole number and a power of ten are read as;
- `place_ofDecimal`: what a decimal is read as;
- `ofDecimal_of_shortest`: a number is read back from its shortest decimal, under its sign.
-/

namespace Cadence.Number

open Float.Model Float.Model.UnpackedFloat

variable {m : Magnitude} {d : Decimal} {x : Float}

/-! ## Reading a decimal -/

/-- A power of ten of the table is that power. -/
theorem exact_powerOfTen : ∀ e : Fin Float.exactlyRepresentablePowersOfTen.size,
    Float.exactlyRepresentablePowersOfTen[e].isFinite = true ∧
      exact Float.exactlyRepresentablePowersOfTen[e] = (10 : ℚ) ^ (e : ℕ) := by
  decide +kernel

theorem value_powerOfTen {e : ℕ} (he : e < Float.exactlyRepresentablePowersOfTen.size) :
    Float.exactlyRepresentablePowersOfTen[e].isFinite = true ∧
      value Float.exactlyRepresentablePowersOfTen[e] = (10 : ℝ) ^ e := by
  obtain ⟨hfinite, hvalue⟩ := exact_powerOfTen ⟨e, he⟩
  refine ⟨hfinite, ?_⟩
  rw [← cast_exact]
  exact_mod_cast congrArg (Rat.cast (K := ℝ)) hvalue

/-- From the first power of two beyond the largest number on, a result is infinite. -/
theorem rounded_eq_top {q : ℝ} (h : overflow ≤ q) : rounded q = ⊤ := by
  have hpos := overflow_pos
  have hnearest : overflow ≤ nearest q := by
    by_contra hlt
    have := (nearest_lt_overflow_iff (by linarith)).mp (not_le.mp hlt)
    linarith [overflowBound_lt_overflow]
  rw [rounded, nearestSigned, if_neg (by linarith), clip, if_neg (by linarith), if_pos hnearest]

/-- Below half of the smallest number, a result is zero. -/
theorem rounded_eq_zero {q : ℝ} (h : 0 ≤ q) (hlt : q < (2 : ℝ) ^ (-1075 : ℤ)) : rounded q = 0 := by
  have hnearest : nearest q = 0 := by
    rcases h.eq_or_lt with rfl | hpos
    · exact nearest_zero
    · have hgrid : gridExponent q = -1074 :=
        gridExponent_eq hpos le_rfl (.inr rfl)
          (hlt.trans_le (zpow_le_zpow_right₀ (by norm_num) (by norm_num)))
      have hhalf : (2 : ℝ) ^ (-1074 : ℤ) / 2 = (2 : ℝ) ^ (-1075 : ℤ) := by
        rw [div_eq_mul_inv, ← zpow_sub_one₀ (two_ne_zero' ℝ)]
        norm_num
      have := nearest_eq (n := 0) hgrid (.inl (by
        rw [hhalf, Nat.cast_zero, zero_mul, sub_zero, abs_of_pos hpos]
        exact hlt))
      simpa using this
  have hpos := overflow_pos
  rw [rounded, nearestSigned, if_neg (by linarith), hnearest, clip, if_neg (by linarith),
    if_neg (by linarith), EReal.coe_zero]

/-- A positive power of ten is larger than the same power of eight. -/
theorem two_zpow_le_ten_zpow {e : ℤ} (he : 0 ≤ e) : (2 : ℝ) ^ (3 * e) ≤ (10 : ℝ) ^ e := by
  rw [zpow_mul]
  exact zpow_le_zpow_left₀ he (by norm_num) (by norm_num)

/-- A negative one is smaller. -/
theorem ten_zpow_le_two_zpow {e : ℤ} (he : e ≤ 0) : (10 : ℝ) ^ e ≤ (2 : ℝ) ^ (3 * e) := by
  have h := inv_anti₀ (by positivity) (two_zpow_le_ten_zpow (Int.neg_nonneg.mpr he))
  rwa [← zpow_neg, ← zpow_neg, neg_neg, show -(3 * -e) = 3 * e by ring] at h

/-- A whole number times a power of ten is read as the product, rounded. -/
theorem place_ofScientificModel (n : ℕ) (e : ℤ) :
    place (.ofModel (Float.Model.ofScientific n e)) = rounded (n * (10 : ℝ) ^ e) ∧
      (Float.ofModel (Float.Model.ofScientific n e)).isNaN = false := by
  have hbound : (2 : ℤ) ^ Format.binary64.exponentBits = 2048 := rfl
  unfold Float.Model.ofScientific UnpackedFloat.ofScientific
  rw [hbound]
  split_ifs with hn hlarge hsmall he
  · rw [hn, Nat.cast_zero, zero_mul]
    exact (isRounding_zero .positive).place_eq
  · -- Powers of ten so large are infinite.
    have hone : (1 : ℝ) ≤ n := by exact_mod_cast Nat.one_le_iff_ne_zero.mpr hn
    have hover : overflow ≤ n * (10 : ℝ) ^ e := by
      calc overflow ≤ (2 : ℝ) ^ (3 * e) := zpow_le_zpow_right₀ (by norm_num) (by omega)
        _ ≤ (10 : ℝ) ^ e := two_zpow_le_ten_zpow (by omega)
        _ ≤ n * (10 : ℝ) ^ e := le_mul_of_one_le_left (by positivity) hone
    rw [rounded_eq_top hover]
    exact place_infinity .positive
  · -- Powers of ten so small make any whole number of these bits zero.
    have hbits : (n : ℝ) < (2 : ℝ) ^ ((n.log2 : ℤ) + 1) := by exact_mod_cast Nat.lt_log2_self
    have hless : n * (10 : ℝ) ^ e < (2 : ℝ) ^ (-1075 : ℤ) := by
      calc n * (10 : ℝ) ^ e ≤ n * (2 : ℝ) ^ (3 * e) := by
            gcongr
            exact ten_zpow_le_two_zpow (by omega)
        _ < (2 : ℝ) ^ ((n.log2 : ℤ) + 1) * (2 : ℝ) ^ (3 * e) := by gcongr
        _ = (2 : ℝ) ^ ((n.log2 : ℤ) + 1 + 3 * e) := (zpow_add₀ two_ne_zero _ _).symm
        _ ≤ (2 : ℝ) ^ (-1075 : ℤ) := zpow_le_zpow_right₀ (by norm_num) (by omega)
    have hzero := (isRounding_zero .positive).place_eq
    rwa [rounded_eq_zero le_rfl (by positivity), ← rounded_eq_zero (by positivity) hless] at hzero
  · -- The whole number is multiplied with enough zero bits behind it.
    have hpos : 0 < n := Nat.pos_of_ne_zero hn
    have hmul := isRounding_mul_of_bits .positive .positive (m := n <<< 53) (n := 10 ^ e.toNat) (d := -53)
      (e := 0)
      (by rw [Nat.shiftLeft_eq]; positivity) (by positivity) (by
        have : 53 ≤ (n <<< 53 * 10 ^ e.toNat).log2 := by
          rw [Nat.le_log2 (by rw [Nat.shiftLeft_eq]; positivity), Nat.shiftLeft_eq]
          calc 2 ^ 53 ≤ n * 2 ^ 53 := Nat.le_mul_of_pos_left _ hpos
            _ ≤ n * 2 ^ 53 * 10 ^ e.toNat := Nat.le_mul_of_pos_right _ (by positivity)
        omega)
    have hvalue : valueOf (.finite .positive (n <<< 53) (-53) (by rw [Nat.shiftLeft_eq]; positivity)) *
        valueOf (.finite .positive (10 ^ e.toNat) 0 (by positivity)) = n * (10 : ℝ) ^ e := by
      simp only [valueOf, Sign.apply, Nat.shiftLeft_eq]
      push_cast
      rw [← zpow_natCast 10, Int.toNat_of_nonneg he, zpow_zero, mul_one, mul_assoc (n : ℝ),
        show (9007199254740992 : ℝ) * (2 : ℝ) ^ (-53 : ℤ) = 1 by norm_num, mul_one]
    rw [hvalue] at hmul
    exact hmul.place_eq
  · have hvalue : valueOf (.finite .positive n 0 (Nat.pos_of_ne_zero hn)) /
        valueOf (.finite .positive (10 ^ (-e).toNat) 0 (by positivity)) = n * (10 : ℝ) ^ e := by
      simp only [valueOf, Sign.apply]
      push_cast
      rw [← zpow_natCast, Int.toNat_of_nonneg (by omega), zpow_neg]
      norm_num
    have hdiv := isRounding_div (u := .finite .positive n 0 (Nat.pos_of_ne_zero hn))
      (v := .finite .positive (10 ^ (-e).toNat) 0 (by positivity)) rfl rfl (by
        simp [valueOf, Sign.apply])
    rw [hvalue] at hdiv
    exact hdiv.place_eq

/-- A whole number of at most fifty-three bits is a number. -/
theorem value_toFloat {n : ℕ} (hn : n < 2 ^ 53) :
    n.toUInt64.toFloat.isFinite = true ∧ value n.toUInt64.toFloat = n := by
  obtain ⟨hplace, hnan⟩ := place_toFloat n.toUInt64
  have hcast : n.toUInt64.toNat = n := UInt64.toNat_ofNat_of_lt (by norm_num [UInt64.size] at *; omega)
  rw [hcast] at hplace
  have hle : (n : ℝ) ≤ (2 : ℝ) ^ (64 : ℤ) := by
    have : n ≤ 2 ^ 64 := by omega
    exact_mod_cast this
  obtain ⟨hfinite, hvalue⟩ := isFinite_of_rounded hnan hplace (Nat.cast_nonneg n) hle
  refine ⟨hfinite, hvalue.trans ?_⟩
  rcases Nat.eq_zero_or_pos n with rfl | hpos
  · simp
  · -- With zero bits behind it, the whole number has all fifty-three.
    have hlog : n.log2 ≤ 52 := Nat.lt_succ_iff.mp ((Nat.log2_lt hpos.ne').mpr hn)
    have hsplit : 2 ^ 53 = 2 ^ (n.log2 + 1) * 2 ^ (52 - n.log2) := by
      rw [← pow_add]
      congr 1
      omega
    have hc : CanonicalParts (n * 2 ^ (52 - n.log2)) (-((52 - n.log2 : ℕ) : ℤ)) := by
      refine ⟨?_, by omega, .inl ?_⟩
      · rw [hsplit]
        exact Nat.mul_lt_mul_of_pos_right Nat.lt_log2_self (by positivity)
      · calc 2 ^ 52 = 2 ^ n.log2 * 2 ^ (52 - n.log2) := by
              rw [← pow_add]
              congr 1
              omega
          _ ≤ n * 2 ^ (52 - n.log2) := Nat.mul_le_mul_right _ (Nat.log2_self_le hpos.ne')
    have hnearest := nearest_parts (by positivity) hc
    have hreal : ((n * 2 ^ (52 - n.log2) : ℕ) : ℝ) * (2 : ℝ) ^ (-((52 - n.log2 : ℕ) : ℤ)) = n := by
      push_cast
      rw [zpow_neg, zpow_natCast]
      field_simp
    rwa [hreal] at hnearest

/-- What a whole number and a power of ten are read as. -/
theorem place_ofScientific (n : ℕ) (negative : Bool) (e : ℕ) :
    place (Float.ofScientific n negative e) =
        rounded (n * (10 : ℝ) ^ (if negative then -(e : ℤ) else e)) ∧
      (Float.ofScientific n negative e).isNaN = false := by
  unfold Float.ofScientific
  split_ifs with h hnegative hnegative
  · -- On the short way both operands are exact.
    obtain ⟨hfinite, hvalue⟩ := value_toFloat h.1
    obtain ⟨hpower, hten⟩ := value_powerOfTen (e := e)
      (by simp [Float.exactlyRepresentablePowersOfTen]; omega)
    have hdiv := place_div hfinite hpower (by rw [hten]; positivity)
    rwa [hvalue, hten, div_eq_mul_inv, ← zpow_natCast, ← zpow_neg] at hdiv
  · obtain ⟨hfinite, hvalue⟩ := value_toFloat h.1
    obtain ⟨hpower, hten⟩ := value_powerOfTen (e := e)
      (by simp [Float.exactlyRepresentablePowersOfTen]; omega)
    have hmul := place_mul hfinite hpower
    rwa [hvalue, hten, ← zpow_natCast] at hmul
  · have := place_ofScientificModel n (Int.negOfNat e)
    rwa [Int.negOfNat_eq] at this
  · exact place_ofScientificModel n e

/-- The exponent of the leading digit tells the size of a decimal. -/
theorem real_bounds (h : 0 < d.digits) :
    (10 : ℝ) ^ d.leading ≤ d.real ∧ d.real < (10 : ℝ) ^ (d.leading + 1) := by
  obtain ⟨hlow, hhigh⟩ := toDigits_bounds h
  have hlength := Nat.length_toDigits_pos (b := 10) (n := d.digits)
  have hleading : d.leading = ((Nat.toDigits 10 d.digits).length - 1 : ℕ) + d.exponent := by
    simp only [Decimal.leading, Nat.toString_eq_repr, ← String.length_toList, Nat.toList_repr]
    omega
  have hleading' : d.leading + 1 = (Nat.toDigits 10 d.digits).length + d.exponent := by omega
  rw [hleading', hleading, zpow_add₀ (by norm_num), zpow_add₀ (by norm_num), zpow_natCast, zpow_natCast]
  have hlow' : (10 : ℝ) ^ ((Nat.toDigits 10 d.digits).length - 1) ≤ d.digits := by exact_mod_cast hlow
  have hhigh' : (d.digits : ℝ) < (10 : ℝ) ^ (Nat.toDigits 10 d.digits).length := by exact_mod_cast hhigh
  unfold Decimal.real
  exact ⟨by gcongr, by gcongr⟩

/-- A decimal is read as its value, rounded. -/
theorem place_ofDecimal (d : Decimal) :
    place (ofDecimal d) = rounded d.real ∧ (ofDecimal d).isNaN = false := by
  have hzero : place (0.0 : Float) = 0 ∧ (0.0 : Float).isNaN = false := ⟨place_zero, rfl⟩
  unfold ofDecimal
  split_ifs with hsmall hlarge
  · have hreal : d.real < (2 : ℝ) ^ (-1075 : ℤ) := by
      rcases Nat.eq_zero_or_pos d.digits with hdigits | hpos
      · rw [Decimal.real, hdigits, Nat.cast_zero, zero_mul]
        positivity
      · have hleading := hsmall.resolve_left hpos.ne'
        calc d.real < (10 : ℝ) ^ (d.leading + 1) := (real_bounds hpos).2
          _ ≤ (2 : ℝ) ^ (3 * (d.leading + 1)) := ten_zpow_le_two_zpow (by omega)
          _ ≤ (2 : ℝ) ^ (-1075 : ℤ) := zpow_le_zpow_right₀ (by norm_num) (by omega)
    rwa [rounded_eq_zero (by unfold Decimal.real; positivity) hreal]
  · have hpos : 0 < d.digits := by omega
    have hover : overflow ≤ d.real := by
      calc overflow ≤ (2 : ℝ) ^ (3 * d.leading) := zpow_le_zpow_right₀ (by norm_num) (by omega)
        _ ≤ (10 : ℝ) ^ d.leading := two_zpow_le_ten_zpow (by omega)
        _ ≤ d.real := (real_bounds hpos).1
    rw [rounded_eq_top hover]
    exact place_infinity .positive
  · have hread := place_ofScientific d.digits (d.exponent < 0) d.exponent.natAbs
    have hexponent :
        (if decide (d.exponent < 0) = true then -(d.exponent.natAbs : ℤ) else d.exponent.natAbs) =
        d.exponent := by
      split_ifs with h
      · have := of_decide_eq_true h
        omega
      · have := of_decide_eq_false (Bool.not_eq_true _ ▸ h)
        omega
    rwa [hexponent] at hread

/-! ## Reading a number back -/

/-- Canonical numbers of one value above zero have the same parts. -/
theorem parts_eq {a b : ℕ} {e f : ℤ} (ha : CanonicalParts a e) (hb : CanonicalParts b f)
    (h : (a : ℝ) * (2 : ℝ) ^ e = b * (2 : ℝ) ^ f) : a = b ∧ e = f := by
  rcases lt_trichotomy e f with hlt | rfl | hlt
  · exact absurd h (parts_lt ha hb hlt).ne
  · have hscale : (2 : ℝ) ^ e ≠ 0 := by positivity
    exact ⟨by exact_mod_cast mul_right_cancel₀ hscale h, rfl⟩
  · exact absurd h (parts_lt hb ha hlt).ne'

/-- The sign bit is set exactly if unpacking finds the negative sign. -/
theorem isNegative_eq (x : Float) : isNegative x = true ↔ signField x.toBits.toBitVec = .negative := by
  have hsign : isNegative x = decide (2 ^ 63 ≤ x.toBits.toBitVec.toNat) := rfl
  rw [hsign, decide_eq_true_eq, signField]
  split_ifs with h
  · exact iff_of_false (by omega) (by decide)
  · exact iff_of_true (by omega) rfl

/-- The sign that unpacking finds. -/
theorem isNegative_of_unpack {u : UnpackedFloat} {s : Sign} (hx : x.toModel.unpack = u)
    (hu : u = .zero s ∨ u = .infinity s ∨ ∃ n e h, u = .finite s n e h) :
    isNegative x = true ↔ s = .negative := by
  have hfields : u = ofFields (signField x.toBits.toBitVec) (exponentField x.toBits.toBitVec)
      (fractionField x.toBits.toBitVec) := hx.symm.trans (unpack_eq_ofFields _)
  rw [isNegative_eq]
  unfold ofFields at hfields
  split_ifs at hfields
  all_goals
    rcases hu with rfl | rfl | ⟨n, e, h, rfl⟩ <;> cases hfields <;> rfl

theorem isInf_of_isFinite (h : x.isFinite = true) : x.isInf = false := by
  change x.toModel.unpack.isFinite = true at h
  change x.toModel.unpack.isInf = false
  generalize x.toModel.unpack = u at h ⊢
  cases u with
  | notANumber => cases h
  | infinity s => cases h
  | zero s => rfl
  | finite s n e hn => rfl

/-- There is only one undefined number. -/
theorem eq_of_isNaN {y : Float} (hx : x.isNaN = true) (hy : y.isNaN = true) : x = y := by
  rw [← ofModel_pack_unpack x, ← ofModel_pack_unpack y, unpack_of_isNaN hx, unpack_of_isNaN hy]

/-- A decimal that is rounded to the size of a number is read as that size. -/
theorem unpack_ofDecimal {n : ℕ} {e : ℤ} (hn : 0 < n) (hc : CanonicalParts n e)
    (hd : nearest d.real = n * (2 : ℝ) ^ e) (hx : x.isFinite = true)
    (habs : |value x| = n * (2 : ℝ) ^ e) :
    (ofDecimal d).toModel.unpack = .finite .positive n e hn := by
  obtain ⟨hplace, hnan⟩ := place_ofDecimal d
  obtain ⟨hfinite, hvalue⟩ := value_abs hx
  have hsize := parts_pos e hn
  have hreal : 0 ≤ d.real := by
    unfold Decimal.real
    positivity
  -- The size is a number itself, so that it is not clipped.
  have hsame : rounded d.real = rounded (n * (2 : ℝ) ^ e) := by
    rw [rounded, rounded, nearestSigned, nearestSigned, if_neg hreal.not_gt, if_neg hsize.not_gt, hd,
      nearest_parts hn hc]
  rw [hsame, ← habs, ← hvalue, rounded_value hfinite, place_eq_value hfinite, hvalue, habs] at hplace
  obtain ⟨hread, hreadValue⟩ := isFinite_of_place hnan hplace
  obtain ⟨k, f, hk, hunpack⟩ := unpack_of_pos hread (hreadValue ▸ hsize)
  have hparts : (k : ℝ) * (2 : ℝ) ^ f = n * (2 : ℝ) ^ e := by
    rw [← hreadValue, value, hunpack]
    simp [valueOf, Sign.apply]
  have hcanonical := canonical_unpack (ofDecimal d)
  rw [hunpack] at hcanonical
  obtain ⟨rfl, rfl⟩ := parts_eq hcanonical hc hparts
  exact hunpack

/-- A number is read back from any decimal of the value of its shortest one, under its sign. -/
theorem ofDecimal_of_shortest {tie : Tie} (hx : magnitude? x = some m)
    (hd : d.real = (m.shortest tie).real) :
    (if isNegative x then -ofDecimal d else ofDecimal d) = x := by
  have hback := ofModel_pack_unpack x
  have hcanonical := canonical_unpack x
  unfold magnitude? at hx
  split at hx
  all_goals cases hx
  next s hu =>
    -- Both zeros are written with the digit zero.
    have hdigits : d.digits = 0 := by
      have hreal : d.real = 0 := by simpa [Magnitude.shortest, Decimal.real] using hd
      simpa [Decimal.real, zpow_ne_zero] using hreal
    have hread : ofDecimal d = 0.0 := if_pos (.inl hdigits)
    rw [hu] at hback
    have hnegative := isNegative_of_unpack hu (.inl rfl)
    rw [hread]
    cases s
    · rw [if_pos (hnegative.mpr rfl), ← hback]
      rfl
    · rw [if_neg (by simp [hnegative]), ← hback]
      rfl
  next s n e hn hu =>
    rw [hu] at hback hcanonical
    have hnearest := nearest_shortest (m := ⟨n, e⟩) hn hcanonical tie
    rw [← hd] at hnearest
    have hfinite : x.isFinite = true := by
      change x.toModel.unpack.isFinite = true
      rw [hu]
      rfl
    have habs : |value x| = n * (2 : ℝ) ^ e := by
      rw [value, hu]
      cases s <;> simp [valueOf, Sign.apply]
    have hread := unpack_ofDecimal hn hcanonical hnearest hfinite habs
    have hnegative := isNegative_of_unpack hu (.inr (.inr ⟨n, e, hn, rfl⟩))
    cases s
    · rw [if_pos (hnegative.mpr rfl), ← hback]
      change Float.ofModel (.pack (ofDecimal d).toModel.unpack.neg) = _
      rw [hread]
      rfl
    · rw [if_neg (by simp [hnegative]), ← hback, ← hread, ofModel_pack_unpack]

end Cadence.Number
