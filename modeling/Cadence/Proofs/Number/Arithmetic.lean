import Mathlib
import Cadence.Proofs.Number.Rounding

/-!
# The arithmetic of binary64 numbers

A sum, a difference, a product and a quotient of finite numbers are the exact results rounded. Since
rounding is monotone, so are the operations, and that carries over to the infinities. The main
statements are:

- `place_add`, `place_sub`, `place_mul` and `place_div`: the place of a result;
- `sum_le_sum`, `difference_le_difference`, `product_le_product` and `quotient_le_quotient`: the
  operations are monotone in one operand;
- `count_le_count`: so is the conversion of a count;
- `place_add_zero`: adding zero does not move a number.
-/

namespace Cadence.Number

open Float.Model Float.Model.UnpackedFloat

/-! ## Values of finite numbers -/

theorem placeOf_eq_valueOf {u : UnpackedFloat} (h : u.isFinite = true) : placeOf u = valueOf u := by
  cases u with
  | notANumber => cases h
  | infinity s => cases h
  | zero s => rfl
  | finite s m e hm => rfl

theorem place_eq_value {x : Float} (h : x.isFinite = true) : place x = value x :=
  placeOf_eq_valueOf h

/-- Packing a number that was unpacked gives it back. -/
theorem ofModel_pack_unpack (x : Float) : Float.ofModel (.pack x.toModel.unpack) = x := by
  obtain ⟨⟨bits, hvalid⟩⟩ := x
  have hpack := pack_unpack hvalid
  simp only [Float.Model.pack, Float.Model.unpack, hpack]

/-- A finite number is its own rounding. -/
theorem clip_value {x : Float} (h : x.isFinite = true) : clip (value x) = place x := by
  have hsat : saturate x.toModel.unpack = x.toModel.unpack := by
    rw [← unpack_ofModel_pack (canonical_unpack x), ofModel_pack_unpack]
  have hplace := (placeOf_saturate (canonical_unpack x) h (place_eq_value h)).1
  rw [hsat] at hplace
  exact hplace.symm

/-- Rounding leaves a multiple of the last bit as it is. -/
theorem nearest_parts {m : ℕ} {e : ℤ} (hm : 0 < m) (hc : CanonicalParts m e) :
    nearest (m * (2 : ℝ) ^ e) = m * (2 : ℝ) ^ e := by
  have hlog : Int.log 2 ((m : ℝ) * (2 : ℝ) ^ e) = m.log2 + e :=
    log_of_floor e hm (by simp)
  have hbits : m.log2 ≤ 52 := Nat.lt_succ_iff.mp ((Nat.log2_lt hm.ne').mpr hc.1)
  have hgrid : gridExponent (m * (2 : ℝ) ^ e) ≤ e := by
    have := hc.2.1
    unfold gridExponent
    omega
  unfold nearest
  -- In units of the last bit the number is whole.
  generalize gridExponent (m * (2 : ℝ) ^ e) = g at hgrid
  rw [mul_div_assoc, two_zpow_div hgrid, ← Int.cast_natCast (R := ℝ) m, ← Int.cast_mul,
    nearestEven_intCast, Int.cast_mul, ← two_zpow_div hgrid]
  have : (2 : ℝ) ^ g ≠ 0 := by positivity
  field_simp

/-- A canonical number is its own rounding under either sign. -/
theorem nearestSigned_valueOf {u : UnpackedFloat} (hc : Canonical u) :
    nearestSigned (valueOf u) = valueOf u := by
  cases u with
  | notANumber => simp [valueOf, nearestSigned]
  | infinity s => simp [valueOf, nearestSigned]
  | zero s => simp [valueOf, nearestSigned]
  | finite s m e hm =>
    have hpos := parts_pos e hm
    cases s with
    | negative =>
      have hval : valueOf (.finite .negative m e hm) = -(m * (2 : ℝ) ^ e) := by
        simp [valueOf, Sign.apply]
      rw [hval, nearestSigned, if_pos (by linarith), neg_neg, nearest_parts hm hc]
    | positive =>
      have hval : valueOf (.finite .positive m e hm) = m * (2 : ℝ) ^ e := by
        simp [valueOf, Sign.apply]
      rw [hval, nearestSigned, if_neg (by linarith), nearest_parts hm hc]

theorem rounded_value {x : Float} (h : x.isFinite = true) : rounded (value x) = place x := by
  rw [rounded, value, nearestSigned_valueOf (canonical_unpack x)]
  exact clip_value h

/-! ## Exact results -/

/-- An unpacked number is an exact result after rounding. -/
def IsRounding (u : UnpackedFloat) (q : ℝ) : Prop :=
  Canonical u ∧ u.isFinite = true ∧ valueOf u = nearestSigned q

/-- A number that was packed from a rounding is placed at the rounded exact result. -/
theorem IsRounding.place_eq {u : UnpackedFloat} {q : ℝ} (h : IsRounding u q) :
    place (.ofModel (.pack u)) = rounded q ∧ (Float.ofModel (.pack u)).isNaN = false := by
  obtain ⟨hc, hfinite, hvalue⟩ := h
  have hplace : placeOf u = nearestSigned q := by rw [placeOf_eq_valueOf hfinite, hvalue]
  obtain ⟨hsat, hnan⟩ := placeOf_saturate hc hfinite hplace
  rw [place, ← isNaN_unpack, unpack_ofModel_pack hc]
  exact ⟨hsat, hnan⟩

/-- The nearest number to a size under a sign is the rounding of the signed size. -/
theorem IsNearest.isRounding {u : UnpackedFloat} {s : Sign} {q r : ℝ} (hq : 0 ≤ q)
    (h : IsNearest u s q) (hr : r = (s.apply 1 : ℤ) * q) : IsRounding u r := by
  refine ⟨h.canonical, h.isFinite, ?_⟩
  have hvalue : valueOf u = (s.apply 1 : ℤ) * nearest q :=
    EReal.coe_injective ((placeOf_eq_valueOf h.isFinite).symm.trans h.placeOf_eq)
  rw [hvalue, hr]
  have := nearest_nonneg hq
  unfold nearestSigned
  cases s <;> simp only [Sign.apply] <;> push_cast
  · rcases hq.eq_or_lt with rfl | hpos
    · simp
    · rw [if_pos (by linarith)]
      ring_nf
  · rw [if_neg (by linarith)]
    ring_nf

theorem isRounding_self {u : UnpackedFloat} (hc : Canonical u) (h : u.isFinite = true) :
    IsRounding u (valueOf u) := ⟨hc, h, (nearestSigned_valueOf hc).symm⟩

theorem isRounding_zero (s : Sign) : IsRounding (.zero s) 0 :=
  ⟨trivial, rfl, by simp [valueOf, nearestSigned]⟩

/-- Rounding a whole number times a power of two. -/
theorem isRounding_normalize (n e : ℤ) :
    IsRounding (UnpackedFloat.normalize .binary64 n e .positive) (n * (2 : ℝ) ^ e) := by
  rcases lt_trichotomy n 0 with h | rfl | h
  · have hnorm : UnpackedFloat.normalize .binary64 n e .positive =
        UnpackedFloat.round .binary64 .negative (-n).toNat e := by
      unfold UnpackedFloat.normalize
      rw [compare_lt_iff_lt.mpr h]
    have hcast : (((-n).toNat : ℕ) : ℝ) = -n := by
      exact_mod_cast Int.toNat_of_nonneg (show 0 ≤ -n by omega)
    rw [hnorm]
    refine (nearest_round .negative (by omega) e).isRounding (by positivity) ?_
    rw [hcast]
    simp [Sign.apply]
  · have hnorm : UnpackedFloat.normalize .binary64 0 e .positive = .zero .positive := rfl
    rw [hnorm]
    simpa using isRounding_zero .positive
  · have hnorm : UnpackedFloat.normalize .binary64 n e .positive =
        UnpackedFloat.round .binary64 .positive n.toNat e := by
      unfold UnpackedFloat.normalize
      rw [compare_gt_iff_gt.mpr h]
    have hcast : ((n.toNat : ℕ) : ℝ) = n := by
      exact_mod_cast Int.toNat_of_nonneg h.le
    rw [hnorm]
    refine (nearest_round .positive (by omega) e).isRounding (by positivity) ?_
    rw [hcast]
    simp [Sign.apply]

/-- A signed whole factor times a power of two is the sign times the size. -/
theorem apply_cast (s : Sign) (m : ℕ) : ((s.apply m : ℤ) : ℝ) = ((s.apply 1 : ℤ) : ℝ) * m := by
  cases s <;> simp [Sign.apply]

/-- Lowering the exponent of a whole factor does not change the product. -/
theorem shiftLeft_mul_zpow (m : ℕ) {e t : ℤ} (h : t ≤ e) :
    ((m <<< (e - t).toNat : ℕ) : ℝ) * (2 : ℝ) ^ t = m * (2 : ℝ) ^ e := by
  rw [Nat.shiftLeft_eq, Nat.cast_mul, Nat.cast_pow, Nat.cast_ofNat, ← zpow_natCast,
    Int.toNat_of_nonneg (by omega), zpow_sub₀ (by norm_num)]
  field_simp

/-- A sum is the exact sum rounded. -/
theorem isRounding_add {u v : UnpackedFloat} (hu : Canonical u) (hv : Canonical v)
    (hfu : u.isFinite = true) (hfv : v.isFinite = true) :
    IsRounding (UnpackedFloat.add .binary64 u v) (valueOf u + valueOf v) := by
  rcases u with _ | _ | s | ⟨s, m, d, hm⟩
  · cases hfu
  · cases hfu
  · rcases v with _ | _ | t | ⟨t, n, e, hn⟩
    · cases hfv
    · cases hfv
    · have hvalue : valueOf (.zero s) + valueOf (.zero t) = 0 := add_zero 0
      rw [hvalue, UnpackedFloat.add]
      split_ifs <;> exact isRounding_zero _
    · rw [show valueOf (.zero s) = 0 from rfl, zero_add]
      exact isRounding_self hv hfv
  · rcases v with _ | _ | t | ⟨t, n, e, hn⟩
    · cases hfv
    · cases hfv
    · rw [show valueOf (.zero t) = 0 from rfl, add_zero]
      exact isRounding_self hu hfu
    · -- Both are brought to the smaller exponent and added as whole numbers.
      have hsum := isRounding_normalize
        (s.apply (m <<< (d - min d e).toNat : ℕ) + t.apply (n <<< (e - min d e).toNat : ℕ))
        (min d e)
      have hvalue : valueOf (.finite s m d hm) + valueOf (.finite t n e hn) =
          ((s.apply (m <<< (d - min d e).toNat : ℕ) +
            t.apply (n <<< (e - min d e).toNat : ℕ) : ℤ) : ℝ) * (2 : ℝ) ^ min d e := by
        rw [Int.cast_add, apply_cast, apply_cast, add_mul, mul_assoc, mul_assoc,
          shiftLeft_mul_zpow m (min_le_left d e), shiftLeft_mul_zpow n (min_le_right d e)]
        simp only [valueOf, apply_cast]
        ring
      rw [hvalue]
      exact hsum

/-- A difference is the sum with the negated right operand. -/
theorem unpackedSub_eq (u v : UnpackedFloat) :
    UnpackedFloat.sub .binary64 u v = UnpackedFloat.add .binary64 u v.neg := by
  have hsub (s t : Sign) (a b : ℤ) : s.apply a - t.apply b = s.apply a + (-t).apply b := by
    cases t
    · exact sub_neg_eq_add _ _
    · exact sub_eq_add_neg _ _
  rcases u with _ | _ | s | ⟨s, m, d, hm⟩ <;> rcases v with _ | _ | t | ⟨t, n, e, hn⟩ <;>
    first
    | rfl
    | simp only [UnpackedFloat.sub, UnpackedFloat.add, UnpackedFloat.neg, hsub]

theorem apply_mul (s t : Sign) :
    (((s * t).apply 1 : ℤ) : ℝ) = ((s.apply 1 : ℤ) : ℝ) * ((t.apply 1 : ℤ) : ℝ) := by
  have h : (s * t).apply 1 = s.apply 1 * t.apply 1 := by cases s <;> cases t <;> rfl
  rw [h, Int.cast_mul]

/-- A product of whole factors that has all the bits that are kept is the exact product rounded. -/
theorem isRounding_mul_of_bits (s t : Sign) {m n : ℕ} {d e : ℤ} (hm : 0 < m) (hn : 0 < n)
    (hbits : d + e ≤ max (((m * n).log2 : ℤ) + (d + e) - 52) (-1074)) :
    IsRounding (UnpackedFloat.mul .binary64 (.finite s m d hm) (.finite t n e hn))
      (valueOf (.finite s m d hm) * valueOf (.finite t n e hn)) := by
  have hpos : 0 < m * n := Nat.mul_pos hm hn
  refine (nearest_roundWithAccuracy (s * t) (truncates_exact (m * n)) hbits
    (fun h => absurd h hpos.ne')).isRounding (by positivity) ?_
  rw [apply_mul, zpow_add₀ (by norm_num)]
  simp only [valueOf, apply_cast]
  push_cast
  ring

/-- A product is the exact product rounded. -/
theorem isRounding_mul {u v : UnpackedFloat} (hu : Canonical u) (hv : Canonical v)
    (hfu : u.isFinite = true) (hfv : v.isFinite = true) :
    IsRounding (UnpackedFloat.mul .binary64 u v) (valueOf u * valueOf v) := by
  rcases u with _ | _ | s | ⟨s, m, d, hm⟩
  · cases hfu
  · cases hfu
  · rcases v with _ | _ | t | ⟨t, n, e, hn⟩
    · cases hfv
    · cases hfv
    all_goals
      rw [show valueOf (.zero s) = 0 from rfl, zero_mul]
      exact isRounding_zero _
  · rcases v with _ | _ | t | ⟨t, n, e, hn⟩
    · cases hfv
    · cases hfv
    · rw [show valueOf (.zero t) = 0 from rfl, mul_zero]
      exact isRounding_zero _
    · refine isRounding_mul_of_bits s t hm hn ?_
      -- The product has all the bits that are kept, unless it is below the least exponent.
      have hlarge (h : 2 ^ 52 ≤ m * n) : 52 ≤ (m * n).log2 :=
        (Nat.le_log2 (Nat.mul_pos hm hn).ne').mpr h
      rcases hu.2.2 with h | h
      · have := hlarge (h.trans (Nat.le_mul_of_pos_right m hn))
        omega
      · rcases hv.2.2 with h' | h'
        · have := hlarge (h'.trans (Nat.le_mul_of_pos_left n hm))
          omega
        · omega

theorem div_sign_eq_mul (s t : Sign) : s / t = s * t := by cases s <;> cases t <;> rfl

/-- The accuracy of a whole quotient tells where the exact one lies. -/
theorem truncates_quotient (a : ℕ) {n : ℕ} (hn : 0 < n) :
    Truncates (.ofMantissaAndAccuracy (a / n) (accuracyOfFraction (a % n) n)) (a / n : ℝ) := by
  have hn' : (0 : ℝ) < n := by exact_mod_cast hn
  have hrest : (a / n : ℝ) - (a / n : ℕ) = (a % n : ℕ) / n := by
    have : ((n * (a / n) + a % n : ℕ) : ℝ) = a := by exact_mod_cast Nat.div_add_mod a n
    push_cast at this
    field_simp
    linarith
  have hlt : ((a % n : ℕ) : ℝ) < n := by exact_mod_cast Nat.mod_lt a hn
  unfold accuracyOfFraction
  split_ifs with h0
  · simp [Truncates, ExtendedMantissa.ofMantissaAndAccuracy, Residue, hrest, h0]
  · have hpos : (0 : ℝ) < (a % n : ℕ) := by exact_mod_cast Nat.pos_of_ne_zero h0
    -- Twice the remainder against the divisor tells on which side of one half the cut part lies.
    rcases lt_trichotomy (2 * (a % n)) n with h | h | h
    · have h' : 2 * ((a % n : ℕ) : ℝ) < n := by exact_mod_cast h
      rw [compare_lt_iff_lt.mpr h]
      simp only [Truncates, ExtendedMantissa.ofMantissaAndAccuracy, Residue, hrest]
      exact ⟨by positivity, by rw [div_lt_iff₀ hn']; linarith⟩
    · have h' : 2 * ((a % n : ℕ) : ℝ) = n := by exact_mod_cast h
      rw [compare_eq_iff_eq.mpr h]
      simp only [Truncates, ExtendedMantissa.ofMantissaAndAccuracy, Residue, hrest]
      rw [div_eq_iff hn'.ne']
      linarith
    · have h' : (n : ℝ) < 2 * ((a % n : ℕ) : ℝ) := by exact_mod_cast h
      rw [compare_gt_iff_gt.mpr h]
      simp only [Truncates, ExtendedMantissa.ofMantissaAndAccuracy, Residue, hrest]
      exact ⟨by rw [lt_div_iff₀ hn']; linarith, by rw [div_lt_iff₀ hn']; linarith⟩

/-- A whole quotient has at most one bit less than its operands make expect. -/
theorem log2_le_log2_div {a n : ℕ} (ha : 0 < a) (hn : 0 < n) (h : n.log2 + 1 ≤ a.log2) :
    a.log2 ≤ (a / n).log2 + n.log2 + 1 := by
  have hquot : 0 < a / n := by
    apply Nat.div_pos _ hn
    calc n ≤ 2 ^ (n.log2 + 1) := Nat.lt_log2_self.le
      _ ≤ 2 ^ a.log2 := Nat.pow_le_pow_right (by norm_num) h
      _ ≤ a := Nat.log2_self_le ha.ne'
  -- The power of two below the dividend, over the one above the divisor, is a lower bound.
  have hpow : 2 ^ (a.log2 - (n.log2 + 1)) ≤ a / n := by
    rw [Nat.le_div_iff_mul_le hn]
    calc 2 ^ (a.log2 - (n.log2 + 1)) * n
        ≤ 2 ^ (a.log2 - (n.log2 + 1)) * 2 ^ (n.log2 + 1) :=
          Nat.mul_le_mul_left _ Nat.lt_log2_self.le
      _ = 2 ^ a.log2 := by rw [← pow_add, Nat.sub_add_cancel h]
      _ ≤ a := Nat.log2_self_le ha.ne'
  have := (Nat.le_log2 hquot.ne').mpr hpow
  omega

/-- The exponent of a whole quotient, low enough for it to have all the bits that are kept. -/
def quotientExponent (m : ℕ) (d : ℤ) (n : ℕ) (e : ℤ) : ℤ :=
  min (d - e) (max ((m.log2 : ℤ) - n.log2 + d - e - 53) (-1074))

/-- The whole quotient that is rounded. -/
theorem divCore_eq (m : ℕ) (d : ℤ) (n : ℕ) (e : ℤ) :
    divCore .binary64 m d n e =
      ((m <<< (d - e - quotientExponent m d n e).toNat) / n, quotientExponent m d n e,
        accuracyOfFraction ((m <<< (d - e - quotientExponent m d n e).toNat) % n) n) := by
  have htarget : min (d - e)
      (Format.binary64.targetExponent (totalExponent m d - totalExponent n e)) =
        quotientExponent m d n e := by
    simp only [Format.targetExponent, totalExponent, Format.mantissaBits, Format.minExponent,
      quotientExponent]
    norm_num
    congr 2
    ring
  simp only [divCore, htarget]

/-- A whole quotient has all the bits that are kept, unless its exponent is the least one or below. -/
theorem quotient_fills {m n : ℕ} (hm : 0 < m) (hn : 0 < n) (d e : ℤ) :
    quotientExponent m d n e ≤ -1074 ∨
      52 ≤ ((m <<< (d - e - quotientExponent m d n e).toNat) / n).log2 := by
  obtain ⟨c, hc⟩ : ∃ c, c = quotientExponent m d n e := ⟨_, rfl⟩
  rw [← hc]
  unfold quotientExponent at hc
  have hlog := log2_shiftLeft hm (d - e - c).toNat
  have hpos : 0 < m <<< (d - e - c).toNat := by
    rw [Nat.shiftLeft_eq]
    positivity
  by_cases hlow : c ≤ -1074
  · exact .inl hlow
  · have := log2_le_log2_div hpos hn (by omega)
    exact .inr (by omega)

/-- A quotient of finite numbers, with the exponent lowered before the whole factors are divided. -/
theorem valueOf_div_valueOf (s t : Sign) {m n : ℕ} (hm : 0 < m) (hn : 0 < n) {d e c : ℤ}
    (hc : c ≤ d - e) :
    valueOf (.finite s m d hm) / valueOf (.finite t n e hn) =
      (((s / t).apply 1 : ℤ) : ℝ) *
        (((m <<< (d - e - c).toNat : ℕ) : ℝ) / n * (2 : ℝ) ^ c) := by
  have hn' : (n : ℝ) ≠ 0 := by exact_mod_cast hn.ne'
  rw [div_mul_eq_mul_div, shiftLeft_mul_zpow m hc, div_sign_eq_mul, apply_mul,
    zpow_sub₀ (by norm_num)]
  simp only [valueOf, apply_cast]
  -- A sign is its own inverse.
  have ht : ((t.apply 1 : ℤ) : ℝ) * ((t.apply 1 : ℤ) : ℝ) = 1 := by
    cases t <;> simp [Sign.apply]
  have ht' : ((t.apply 1 : ℤ) : ℝ) ≠ 0 := by
    intro h
    rw [h] at ht
    norm_num at ht
  field_simp
  linear_combination (-((s.apply 1 : ℤ) : ℝ)) * ht

/-- A quotient is the exact quotient rounded. -/
theorem isRounding_div {u v : UnpackedFloat} (hfu : u.isFinite = true) (hfv : v.isFinite = true)
    (hzero : valueOf v ≠ 0) :
    IsRounding (UnpackedFloat.div .binary64 u v) (valueOf u / valueOf v) := by
  rcases v with _ | _ | t | ⟨t, n, e, hn⟩
  · cases hfv
  · cases hfv
  · exact absurd rfl hzero
  · rcases u with _ | _ | s | ⟨s, m, d, hm⟩
    · cases hfu
    · cases hfu
    · rw [show valueOf (.zero s) = 0 from rfl, zero_div]
      exact isRounding_zero _
    · have hdiv : UnpackedFloat.div .binary64 (.finite s m d hm) (.finite t n e hn) =
          roundWithAccuracy .binary64 (s / t)
            ((m <<< (d - e - quotientExponent m d n e).toNat) / n) (quotientExponent m d n e)
            (accuracyOfFraction ((m <<< (d - e - quotientExponent m d n e).toNat) % n) n) := by
        simp only [UnpackedFloat.div, divCore_eq]
      have hbits := quotient_fills hm hn d e
      have hvalue := valueOf_div_valueOf s t hm hn (d := d) (e := e) (min_le_left (d - e)
        (max ((m.log2 : ℤ) - n.log2 + d - e - 53) (-1074)))
      rw [hdiv]
      refine (nearest_roundWithAccuracy (s / t) (truncates_quotient _ hn) ?_ ?_).isRounding
        (by positivity) hvalue
      · omega
      · intro hempty
        rcases hbits with h | h
        · exact h
        · rw [hempty] at h
          simp at h

/-! ## Places of results -/

/-- The place of a sum of finite numbers. -/
theorem place_add {x y : Float} (hx : x.isFinite = true) (hy : y.isFinite = true) :
    place (x + y) = rounded (value x + value y) ∧ (x + y).isNaN = false :=
  (isRounding_add (canonical_unpack x) (canonical_unpack y) hx hy).place_eq

theorem place_mul {x y : Float} (hx : x.isFinite = true) (hy : y.isFinite = true) :
    place (x * y) = rounded (value x * value y) ∧ (x * y).isNaN = false :=
  (isRounding_mul (canonical_unpack x) (canonical_unpack y) hx hy).place_eq

theorem place_div {x y : Float} (hx : x.isFinite = true) (hy : y.isFinite = true)
    (hzero : value y ≠ 0) :
    place (x / y) = rounded (value x / value y) ∧ (x / y).isNaN = false :=
  (isRounding_div hx hy hzero).place_eq

/-- The negated number is canonical, finite and of the negated value if the number is. -/
theorem neg_unpacked {u : UnpackedFloat} (hc : Canonical u) (h : u.isFinite = true) :
    Canonical u.neg ∧ u.neg.isFinite = true ∧ valueOf u.neg = -valueOf u := by
  rcases u with _ | _ | s | ⟨_ | _, m, e, hm⟩
  · cases h
  · cases h
  · exact ⟨trivial, rfl, neg_zero.symm⟩
  · exact ⟨hc, rfl, by simp [UnpackedFloat.neg, valueOf, Sign.apply]⟩
  · exact ⟨hc, rfl, by simp [UnpackedFloat.neg, valueOf, Sign.apply]⟩

theorem place_sub {x y : Float} (hx : x.isFinite = true) (hy : y.isFinite = true) :
    place (x - y) = rounded (value x - value y) ∧ (x - y).isNaN = false := by
  obtain ⟨hc, hfinite, hvalue⟩ := neg_unpacked (canonical_unpack y) hy
  have hround := isRounding_add (canonical_unpack x) hc hx hfinite
  rw [← unpackedSub_eq, hvalue, ← sub_eq_add_neg] at hround
  exact hround.place_eq

/-- The place of a count. -/
theorem place_toFloat (n : UInt64) :
    place n.toFloat = rounded n.toNat ∧ n.toFloat.isNaN = false := by
  have hround := isRounding_normalize n.toNat 0
  rw [zpow_zero, mul_one, Int.cast_natCast] at hround
  exact hround.place_eq

/-- A larger count is not a smaller number. -/
theorem count_le_count {m n : UInt64} (h : m ≤ n) : m.toFloat ≤ n.toFloat := by
  refine le_iff.mpr ⟨(place_toFloat m).2, (place_toFloat n).2, ?_⟩
  rw [(place_toFloat m).1, (place_toFloat n).1]
  apply rounded_mono
  exact_mod_cast UInt64.le_iff_toNat_le.mp h

/-! ## Infinite operands -/

/-- A function on the reals, kept at the infinities. -/
noncomputable def liftPlace (f : ℝ → EReal) (p : EReal) : EReal :=
  if p = ⊤ then ⊤ else if p = ⊥ then ⊥ else f p.toReal

@[simp]
theorem liftPlace_coe (f : ℝ → EReal) (q : ℝ) : liftPlace f q = f q := by
  simp [liftPlace]

theorem liftPlace_mono {f : ℝ → EReal} (hf : Monotone f) : Monotone (liftPlace f) := by
  intro p q hpq
  unfold liftPlace
  by_cases hq : q = ⊤
  · rw [if_pos hq]
    exact le_top
  by_cases hp : p = ⊥
  · rw [if_neg (by rw [hp]; exact bot_ne_top), if_pos hp]
    exact bot_le
  have hp' : p ≠ ⊤ := fun h => hq (top_le_iff.mp (h ▸ hpq))
  have hq' : q ≠ ⊥ := fun h => hp (le_bot_iff.mp (h ▸ hpq))
  rw [if_neg hp', if_neg hp, if_neg hq, if_neg hq']
  exact hf (EReal.toReal_le_toReal hpq hp hq)

/-- A number that is not undefined is finite or one of the infinities. -/
theorem finite_or_infinite {x : Float} (h : x.isNaN = false) :
    x.isFinite = true ∨ ∃ s, x.toModel.unpack = .infinity s := by
  change x.toModel.unpack.isNaN = false at h
  change x.toModel.unpack.isFinite = true ∨ _
  generalize x.toModel.unpack = u at h ⊢
  cases u with
  | notANumber => cases h
  | infinity s => exact .inr ⟨s, rfl⟩
  | zero s => exact .inl rfl
  | finite s m e hm => exact .inl rfl

theorem liftPlace_infinity (f : ℝ → EReal) (s : Sign) :
    liftPlace f (placeOf (.infinity s)) = placeOf (.infinity s) := by
  cases s <;> simp [liftPlace, placeOf]

theorem place_infinity (s : Sign) :
    place (.ofModel (.pack (.infinity s))) = placeOf (.infinity s) ∧
      (Float.ofModel (.pack (.infinity s))).isNaN = false := by
  rw [place, ← isNaN_unpack, unpack_ofModel_pack (u := .infinity s) trivial]
  exact ⟨rfl, rfl⟩

/-- An operation that keeps an infinity is lifted to it. -/
theorem place_of_infinite {x r : Float} {s : Sign} {f : ℝ → EReal}
    (hx : x.toModel.unpack = .infinity s) (hr : r = .ofModel (.pack (.infinity s))) :
    place r = liftPlace f (place x) ∧ r.isNaN = false := by
  rw [hr, show place x = placeOf (.infinity s) from congrArg placeOf hx, liftPlace_infinity]
  exact place_infinity s

/-- Adding to a finite number. -/
theorem place_add_right {o x : Float} (ho : o.isFinite = true) (hx : x.isNaN = false) :
    place (o + x) = liftPlace (fun q => rounded (value o + q)) (place x) ∧
      (o + x).isNaN = false := by
  rcases finite_or_infinite hx with hfinite | ⟨s, hs⟩
  · rw [place_eq_value hfinite, liftPlace_coe]
    exact place_add ho hfinite
  · have hsum : o + x = .ofModel (.pack (.infinity s)) := by
      change Float.ofModel (.pack (UnpackedFloat.add .binary64 o.toModel.unpack x.toModel.unpack)) =
        _
      change o.toModel.unpack.isFinite = true at ho
      rw [hs]
      generalize o.toModel.unpack = u at ho
      cases u with
      | notANumber => cases ho
      | infinity t => cases ho
      | zero t => rfl
      | finite t m e hm => rfl
    exact place_of_infinite hs hsum

/-- Taking a finite number away. -/
theorem place_sub_left {x o : Float} (hx : x.isNaN = false) (ho : o.isFinite = true) :
    place (x - o) = liftPlace (fun q => rounded (q - value o)) (place x) ∧
      (x - o).isNaN = false := by
  rcases finite_or_infinite hx with hfinite | ⟨s, hs⟩
  · rw [place_eq_value hfinite, liftPlace_coe]
    exact place_sub hfinite ho
  · have hdiff : x - o = .ofModel (.pack (.infinity s)) := by
      change Float.ofModel (.pack (UnpackedFloat.sub .binary64 x.toModel.unpack o.toModel.unpack)) =
        _
      change o.toModel.unpack.isFinite = true at ho
      rw [hs]
      generalize o.toModel.unpack = u at ho
      cases u with
      | notANumber => cases ho
      | infinity t => cases ho
      | zero t => rfl
      | finite t m e hm => rfl
    exact place_of_infinite hs hdiff

/-- A finite number above zero has a positive whole factor. -/
theorem unpack_of_pos {b : Float} (hb : b.isFinite = true) (hpos : 0 < value b) :
    ∃ m e h, b.toModel.unpack = .finite .positive m e h := by
  unfold value at hpos
  change b.toModel.unpack.isFinite = true at hb
  generalize b.toModel.unpack = u at hb hpos ⊢
  rcases u with _ | _ | s | ⟨_ | _, m, e, hm⟩
  · cases hb
  · cases hb
  · exact absurd hpos (lt_irrefl _)
  · have := parts_pos e hm
    simp only [valueOf, Sign.apply] at hpos
    push_cast at hpos
    linarith
  · exact ⟨m, e, hm, rfl⟩

/-- Multiplying by a finite number above zero. -/
theorem place_mul_left {x b : Float} (hx : x.isNaN = false) (hb : b.isFinite = true)
    (hpos : 0 < value b) :
    place (x * b) = liftPlace (fun q => rounded (q * value b)) (place x) ∧
      (x * b).isNaN = false := by
  rcases finite_or_infinite hx with hfinite | ⟨s, hs⟩
  · rw [place_eq_value hfinite, liftPlace_coe]
    exact place_mul hfinite hb
  · have hprod : x * b = .ofModel (.pack (.infinity s)) := by
      obtain ⟨m, e, hm, hu⟩ := unpack_of_pos hb hpos
      change Float.ofModel (.pack (UnpackedFloat.mul .binary64 x.toModel.unpack b.toModel.unpack)) =
        _
      rw [hs, hu]
      cases s <;> rfl
    exact place_of_infinite hs hprod

/-- Dividing by a finite number above zero. -/
theorem place_div_left {x b : Float} (hx : x.isNaN = false) (hb : b.isFinite = true)
    (hpos : 0 < value b) :
    place (x / b) = liftPlace (fun q => rounded (q / value b)) (place x) ∧
      (x / b).isNaN = false := by
  rcases finite_or_infinite hx with hfinite | ⟨s, hs⟩
  · rw [place_eq_value hfinite, liftPlace_coe]
    exact place_div hfinite hb hpos.ne'
  · have hquot : x / b = .ofModel (.pack (.infinity s)) := by
      obtain ⟨m, e, hm, hu⟩ := unpack_of_pos hb hpos
      change Float.ofModel (.pack (UnpackedFloat.div .binary64 x.toModel.unpack b.toModel.unpack)) =
        _
      rw [hs, hu]
      cases s <;> rfl
    exact place_of_infinite hs hquot

theorem isNaN_notANumber : (Float.ofModel (.pack .notANumber)).isNaN = true := by
  rw [← isNaN_unpack, unpack_ofModel_pack (u := .notANumber) trivial]
  rfl

/-- Adding to an infinite number leaves it alone, or the sum is undefined. -/
theorem place_add_infinite {o x : Float} {s : Sign} (ho : o.toModel.unpack = .infinity s)
    (hsum : (o + x).isNaN = false) : place (o + x) = placeOf (.infinity s) := by
  have hadd : o + x = .ofModel (.pack (UnpackedFloat.add .binary64 (.infinity s)
      x.toModel.unpack)) := by
    rw [← ho]
    rfl
  have hresult (u : UnpackedFloat) :
      UnpackedFloat.add .binary64 (.infinity s) u = .infinity s ∨
        UnpackedFloat.add .binary64 (.infinity s) u = .notANumber := by
    rcases u with t | _ | t | ⟨t, m, e, hm⟩
    · simp only [UnpackedFloat.add]
      split_ifs
      · exact .inl rfl
      · exact .inr rfl
    · exact .inr rfl
    · exact .inl rfl
    · exact .inl rfl
  rw [hadd] at hsum ⊢
  rcases hresult x.toModel.unpack with h | h
  · rw [h]
    exact (place_infinity s).1
  · rw [h, isNaN_notANumber] at hsum
    cases hsum

theorem unpack_of_isNaN {x : Float} (h : x.isNaN = true) : x.toModel.unpack = .notANumber := by
  change x.toModel.unpack.isNaN = true at h
  generalize x.toModel.unpack = u at h ⊢
  cases u with
  | notANumber => rfl
  | infinity s => cases h
  | zero s => cases h
  | finite s m e hm => cases h

/-- Adding to an undefined number gives an undefined one. -/
theorem isNaN_add {o x : Float} (ho : o.isNaN = true) : (o + x).isNaN = true := by
  change (Float.ofModel (.pack (UnpackedFloat.add .binary64 o.toModel.unpack
    x.toModel.unpack))).isNaN = true
  rw [unpack_of_isNaN ho]
  exact isNaN_notANumber

/-- So does taking away from one. -/
theorem isNaN_sub {x o : Float} (hx : x.isNaN = true) : (x - o).isNaN = true := by
  change (Float.ofModel (.pack (UnpackedFloat.sub .binary64 x.toModel.unpack
    o.toModel.unpack))).isNaN = true
  rw [unpack_of_isNaN hx]
  exact isNaN_notANumber

/-- So does multiplying one. -/
theorem isNaN_mul {x b : Float} (hx : x.isNaN = true) : (x * b).isNaN = true := by
  change (Float.ofModel (.pack (UnpackedFloat.mul .binary64 x.toModel.unpack
    b.toModel.unpack))).isNaN = true
  rw [unpack_of_isNaN hx]
  exact isNaN_notANumber

/-! ## Monotonicity -/

/-- Adding to a number is monotone. -/
theorem sum_le_sum {o x y : Float} (h : x ≤ y) (hx : (o + x).isNaN = false)
    (hy : (o + y).isNaN = false) : o + x ≤ o + y := by
  obtain ⟨hxnan, hynan, hplace⟩ := le_iff.mp h
  refine le_iff.mpr ⟨hx, hy, ?_⟩
  by_cases ho : o.isNaN = true
  · rw [isNaN_add ho] at hx
    cases hx
  · rw [Bool.not_eq_true] at ho
    rcases finite_or_infinite ho with hfinite | ⟨s, hs⟩
    · rw [(place_add_right hfinite hxnan).1, (place_add_right hfinite hynan).1]
      refine liftPlace_mono (fun p q hpq => rounded_mono ?_) hplace
      linarith
    · rw [place_add_infinite hs hx, place_add_infinite hs hy]

/-- Taking a finite number away is monotone. -/
theorem difference_le_difference {x y o : Float} (h : x ≤ y) (ho : o.isFinite = true) :
    x - o ≤ y - o := by
  obtain ⟨hx, hy, hplace⟩ := le_iff.mp h
  obtain ⟨hpx, hnx⟩ := place_sub_left hx ho
  obtain ⟨hpy, hny⟩ := place_sub_left hy ho
  refine le_iff.mpr ⟨hnx, hny, ?_⟩
  rw [hpx, hpy]
  exact liftPlace_mono (fun p q hpq => rounded_mono (by linarith)) hplace

/-- Multiplying by a finite number above zero is monotone. -/
theorem product_le_product {x y b : Float} (h : x ≤ y) (hb : b.isFinite = true)
    (hpos : 0 < value b) : x * b ≤ y * b := by
  obtain ⟨hx, hy, hplace⟩ := le_iff.mp h
  obtain ⟨hpx, hnx⟩ := place_mul_left hx hb hpos
  obtain ⟨hpy, hny⟩ := place_mul_left hy hb hpos
  refine le_iff.mpr ⟨hnx, hny, ?_⟩
  rw [hpx, hpy]
  refine liftPlace_mono (fun p q hpq => rounded_mono ?_) hplace
  gcongr

/-- Dividing by a finite number above zero is monotone. -/
theorem quotient_le_quotient {x y b : Float} (h : x ≤ y) (hb : b.isFinite = true)
    (hpos : 0 < value b) : x / b ≤ y / b := by
  obtain ⟨hx, hy, hplace⟩ := le_iff.mp h
  obtain ⟨hpx, hnx⟩ := place_div_left hx hb hpos
  obtain ⟨hpy, hny⟩ := place_div_left hy hb hpos
  refine le_iff.mpr ⟨hnx, hny, ?_⟩
  rw [hpx, hpy]
  refine liftPlace_mono (fun p q hpq => rounded_mono ?_) hplace
  gcongr

/-! ## Finite results -/

/-- A number that is placed at a real number is finite, and that is its value. -/
theorem isFinite_of_place {x : Float} {q : ℝ} (hnan : x.isNaN = false) (h : place x = q) :
    x.isFinite = true ∧ value x = q := by
  rcases finite_or_infinite hnan with hfinite | ⟨s, hs⟩
  · refine ⟨hfinite, EReal.coe_injective ?_⟩
    rw [← place_eq_value hfinite, h]
  · rw [show place x = placeOf (.infinity s) from congrArg placeOf hs] at h
    cases s
    · exact absurd h (EReal.coe_ne_bot q).symm
    · exact absurd h (EReal.coe_ne_top q).symm

/-- An exact result that is not larger than a power of two is not rounded beyond it. -/
theorem isFinite_of_rounded {x : Float} {q : ℝ} (hnan : x.isNaN = false) (h : place x = rounded q)
    (hq : 0 ≤ q) (hle : q ≤ (2 : ℝ) ^ (64 : ℤ)) :
    x.isFinite = true ∧ value x = nearest q := by
  have hpower : nearest ((2 : ℝ) ^ (64 : ℤ)) = (2 : ℝ) ^ (64 : ℤ) := by
    have hparts := nearest_parts (m := 2 ^ 52) (e := 12) (by norm_num)
      ⟨by norm_num, by norm_num, .inl le_rfl⟩
    norm_num at hparts ⊢
    exact hparts
  have hupper : nearest q < overflow := by
    calc nearest q ≤ (2 : ℝ) ^ (64 : ℤ) := hpower ▸ nearest_le_nearest hq hle
      _ < overflow := zpow_lt_zpow_right₀ (by norm_num) (by norm_num)
  have hlower := nearest_nonneg hq
  have hpos := overflow_pos
  refine isFinite_of_place hnan ?_
  rw [h, rounded, nearestSigned, if_neg (not_lt.mpr hq), clip, if_neg (by linarith),
    if_neg (not_le.mpr hupper)]

theorem isFinite_toFloat (n : UInt64) : n.toFloat.isFinite = true := by
  obtain ⟨hplace, hnan⟩ := place_toFloat n
  refine (isFinite_of_rounded hnan hplace (Nat.cast_nonneg _) ?_).1
  have hlt : n.toNat ≤ 2 ^ 64 := n.toNat_lt.le
  exact_mod_cast hlt

theorem place_zero : place 0.0 = 0 := by
  rw [place, show (0.0 : Float).toModel.unpack = .zero .positive from rfl]
  rfl

theorem value_zero : value 0.0 = 0 := by
  rw [value, show (0.0 : Float).toModel.unpack = .zero .positive from rfl]
  rfl

theorem value_one : value 1.0 = 1 := by
  rw [value, show (1.0 : Float).toModel.unpack =
    .finite .positive (2 ^ 52) (-52) (by norm_num) from rfl]
  norm_num [valueOf, Sign.apply]

theorem value_two : value 2.0 = 2 := by
  rw [value, show (2.0 : Float).toModel.unpack =
    .finite .positive (2 ^ 52) (-51) (by norm_num) from rfl]
  norm_num [valueOf, Sign.apply]

theorem value_four : value 4.0 = 4 := by
  rw [value, show (4.0 : Float).toModel.unpack =
    .finite .positive (2 ^ 52) (-50) (by norm_num) from rfl]
  norm_num [valueOf, Sign.apply]

/-- A number that is above zero has a value above zero. -/
theorem value_pos {x : Float} (hx : x.isFinite = true) (h : 0.0 < x) : 0 < value x := by
  have hplace := (lt_iff.mp h).2.2
  rw [place_zero, place_eq_value hx] at hplace
  exact_mod_cast hplace

/-- The exact result zero gives a finite number of that value. -/
theorem isFinite_of_rounded_zero {x : Float} (hnan : x.isNaN = false) (h : place x = rounded 0) :
    x.isFinite = true ∧ value x = 0 := by
  obtain ⟨hfinite, hvalue⟩ := isFinite_of_rounded hnan h le_rfl (by positivity)
  exact ⟨hfinite, hvalue.trans nearest_zero⟩

theorem sub_self_zero {x : Float} (hx : x.isFinite = true) :
    (x - x).isFinite = true ∧ value (x - x) = 0 := by
  obtain ⟨hplace, hnan⟩ := place_sub hx hx
  rw [sub_self] at hplace
  exact isFinite_of_rounded_zero hnan hplace

theorem zero_product {x b : Float} (hx : x.isFinite = true) (hzero : value x = 0)
    (hb : b.isFinite = true) : (x * b).isFinite = true ∧ value (x * b) = 0 := by
  obtain ⟨hplace, hnan⟩ := place_mul hx hb
  rw [hzero, zero_mul] at hplace
  exact isFinite_of_rounded_zero hnan hplace

theorem zero_quotient {x b : Float} (hx : x.isFinite = true) (hzero : value x = 0)
    (hb : b.isFinite = true) (hpos : 0 < value b) :
    (x / b).isFinite = true ∧ value (x / b) = 0 := by
  obtain ⟨hplace, hnan⟩ := place_div hx hb hpos.ne'
  rw [hzero, zero_div] at hplace
  exact isFinite_of_rounded_zero hnan hplace

/-- Adding a finite number to an infinite one leaves it alone. -/
theorem infinite_add {o x : Float} {s : Sign} (ho : o.toModel.unpack = .infinity s)
    (hx : x.isFinite = true) : o + x = .ofModel (.pack (.infinity s)) := by
  change Float.ofModel (.pack (UnpackedFloat.add .binary64 o.toModel.unpack x.toModel.unpack)) = _
  change x.toModel.unpack.isFinite = true at hx
  rw [ho]
  generalize x.toModel.unpack = u at hx
  cases u with
  | notANumber => cases hx
  | infinity t => cases hx
  | zero t => rfl
  | finite t m e hm => rfl

/-- Adding zero does not move a number. -/
theorem place_add_zero {o x : Float} (ho : o.isNaN = false) (hx : x.isFinite = true)
    (hzero : value x = 0) : place (o + x) = place o ∧ (o + x).isNaN = false := by
  rcases finite_or_infinite ho with hfinite | ⟨s, hs⟩
  · obtain ⟨hplace, hnan⟩ := place_add hfinite hx
    rw [hzero, add_zero, rounded_value hfinite] at hplace
    exact ⟨hplace, hnan⟩
  · rw [infinite_add hs hx, show place o = placeOf (.infinity s) from congrArg placeOf hs]
    exact place_infinity s

/-- A sum that is a number, and not the least of all, stays a number when it grows. -/
theorem isNaN_add_of_le {o x y : Float} (h : x ≤ y) (hsum : (o + x).isNaN = false)
    (hbot : place (o + x) ≠ ⊥) : (o + y).isNaN = false := by
  obtain ⟨hx, hy, hplace⟩ := le_iff.mp h
  have ho : o.isNaN = false := by
    by_contra hnan
    rw [isNaN_add (Bool.not_eq_false _ ▸ hnan)] at hsum
    cases hsum
  rcases finite_or_infinite ho with hfinite | ⟨s, hs⟩
  · exact (place_add_right hfinite hy).2
  have hadd (z : Float) : o + z = .ofModel (.pack (UnpackedFloat.add .binary64 (.infinity s)
      z.toModel.unpack)) := by
    rw [← hs]
    rfl
  rw [place_add_infinite hs hsum] at hbot
  cases s with
  | negative => exact absurd rfl hbot
  | positive =>
    rcases finite_or_infinite hy with hfinite | ⟨t, ht⟩
    · rw [infinite_add hs hfinite]
      exact (place_infinity .positive).2
    · cases t with
      | positive =>
        rw [hadd, ht]
        exact (place_infinity .positive).2
      | negative =>
        -- Then the smaller number is the least of all as well, and the sum was undefined.
        rw [show place y = ⊥ from congrArg placeOf ht, le_bot_iff] at hplace
        rcases finite_or_infinite hx with hfinite | ⟨r, hr⟩
        · rw [place_eq_value hfinite] at hplace
          exact absurd hplace (EReal.coe_ne_bot _)
        · cases r with
          | positive =>
            rw [show place x = ⊤ from congrArg placeOf hr] at hplace
            exact absurd hplace top_ne_bot
          | negative =>
            rw [hadd, hr] at hsum
            exact absurd (hsum.symm.trans isNaN_notANumber) (by decide)

/-! ## Adding a finite number -/

/-- Adding a finite number to any. -/
theorem place_add_left {x o : Float} (hx : x.isNaN = false) (ho : o.isFinite = true) :
    place (x + o) = liftPlace (fun q => rounded (q + value o)) (place x) ∧
      (x + o).isNaN = false := by
  rcases finite_or_infinite hx with hfinite | ⟨s, hs⟩
  · rw [place_eq_value hfinite, liftPlace_coe]
    exact place_add hfinite ho
  · exact place_of_infinite hs (infinite_add hs ho)

/-- Adding a finite number is monotone. -/
theorem add_le_add_finite {x y o : Float} (h : x ≤ y) (ho : o.isFinite = true) : x + o ≤ y + o := by
  obtain ⟨hx, hy, hplace⟩ := le_iff.mp h
  obtain ⟨hpx, hnx⟩ := place_add_left hx ho
  obtain ⟨hpy, hny⟩ := place_add_left hy ho
  refine le_iff.mpr ⟨hnx, hny, ?_⟩
  rw [hpx, hpy]
  exact liftPlace_mono (fun p q hpq => rounded_mono (by linarith)) hplace

/-- Adding a finite number that is not below zero does not lead to a smaller one. -/
theorem le_add_finite {x o : Float} (hx : x.isNaN = false) (ho : o.isFinite = true)
    (hnonneg : 0 ≤ value o) : x ≤ x + o := by
  refine le_iff.mpr ⟨hx, (place_add_left hx ho).2, ?_⟩
  rcases finite_or_infinite hx with hfinite | ⟨s, hs⟩
  · rw [(place_add hfinite ho).1, ← rounded_value hfinite]
    exact rounded_mono (by linarith)
  · rw [infinite_add hs ho, (place_infinity s).1]
    exact (congrArg placeOf hs).le

/-- A number between a finite one and one that lies below another one is finite. -/
theorem isFinite_of_between {x y r z : Float} (hx : x.isFinite = true) (hxy : x ≤ y) (hyr : y ≤ r)
    (hrz : r < z) : y.isFinite = true := by
  obtain ⟨-, hnan, hlow⟩ := le_iff.mp hxy
  have hhigh : place y < ⊤ := ((le_iff.mp hyr).2.2.trans_lt (lt_iff.mp hrz).2.2).trans_le le_top
  rw [place_eq_value hx] at hlow
  have hbot : place y ≠ ⊥ := ((EReal.bot_lt_coe _).trans_le hlow).ne'
  exact (isFinite_of_place hnan (EReal.coe_toReal hhigh.ne hbot).symm).1

end Cadence.Number
