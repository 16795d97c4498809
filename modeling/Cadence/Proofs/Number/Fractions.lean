import Mathlib
import Cadence.Proofs.Number.Ratio

/-!
# What is asked of fractions

Fractions are left open where the grid is computed. What is asked of them is that each stands for a rational,
that an operation is exact or has no answer, and that a number is taken for the shortest decimal that it is
written as.

- `Fractions.Exact`: operations are exact or have no answer;
- `Fractions.Lawful`: what stands for nothing leads to nothing, and numbers come back up to rounding;
- `Fractions.Reads`: a number is taken for its shortest decimal, and `decimal_error`: how far that is from it;
- `Ratio.exact`, `Ratio.lawful`: the laws for ratios of 64-bit counts, and `Ratio.div?_isSome_iff` and its
  like: operations have an answer exactly if it fits.
-/

namespace Cadence.Number

/-! ## Laws -/

/-- What a fraction stands for. -/
inductive Quantity where
  /-- A rational. -/
  | rational (q : ℚ)
  /-- More than any rational. -/
  | infinite
  /-- Nothing at all. -/
  | undefined
deriving DecidableEq

/-- In lowest terms both parts of a rational fit in 64 bits. It is not below zero. -/
structure Expressible (q : ℚ) : Prop where
  /-- It is not below zero. -/
  nonneg : 0 ≤ q
  /-- The numerator fits. -/
  num_le : q.num.natAbs ≤ countLimit
  /-- The denominator fits. -/
  den_le : q.den ≤ countLimit

instance (q : ℚ) : Decidable (Expressible q) :=
  decidable_of_iff (0 ≤ q ∧ q.num.natAbs ≤ countLimit ∧ q.den ≤ countLimit)
    ⟨fun ⟨hnonneg, hnum, hden⟩ => ⟨hnonneg, hnum, hden⟩, fun h => ⟨h.nonneg, h.num_le, h.den_le⟩⟩

/-- The rational that a decimal denotes. -/
def Decimal.rational (d : Decimal) : ℚ := d.digits * (10 : ℚ) ^ d.exponent

/-- The shortest decimal that reads back as a number, as it is written, without its sign. -/
def decimal (x : Float) : ℚ :=
  match magnitude? x with
  | some m => (m.shortest .upwards).rational
  | none => 0

namespace Fractions

/-- Operations on what stands for a rational are exact or have no answer. -/
structure Exact (F : Fractions) (meaning : F.Carrier → Quantity) : Prop where
  /-- One is one. -/
  one : meaning F.one = .rational 1
  /-- A quotient by what is not zero is exact. -/
  div? : ∀ {a b c : F.Carrier} {p q : ℚ}, meaning a = .rational p → meaning b = .rational q → q ≠ 0 →
    F.div? a b = some c → meaning c = .rational (p / q)
  /-- A sum is exact. -/
  add? : ∀ {a b c : F.Carrier} {p q : ℚ}, meaning a = .rational p → meaning b = .rational q →
    F.add? a b = some c → meaning c = .rational (p + q)
  /-- A product is exact. -/
  mul? : ∀ {a b c : F.Carrier} {p q : ℚ}, meaning a = .rational p → meaning b = .rational q →
    F.mul? a b = some c → meaning c = .rational (p * q)
  /-- A whole part is exact. -/
  floor : ∀ {a : F.Carrier} {q : ℚ}, meaning a = .rational q → meaning (F.floor a) = .rational ⌊q⌋

/-- Besides, what stands for nothing leads to nothing, and fractions have parts of 64 bits that are rounded when
a number is made of them. -/
structure Lawful (F : Fractions) (meaning : F.Carrier → Quantity) : Prop extends F.Exact meaning where
  /-- Both parts fit in 64 bits. -/
  expressible : ∀ {a : F.Carrier} {q : ℚ}, meaning a = .rational q → Expressible q
  /-- The parts and their quotient are rounded, which is an error of four roundings at most. -/
  toFloat? : ∀ {a : F.Carrier} {q : ℚ} {t : Float}, meaning a = .rational q → F.toFloat? a = some t →
    t.isFinite = true ∧ |value t - q| ≤ 4 * roundoff * q
  /-- There is no quotient of nothing or by nothing. -/
  div?_undefined : ∀ {a b c : F.Carrier}, meaning a = .undefined ∨ meaning b = .undefined →
    F.div? a b = some c → meaning c = .undefined
  /-- Nothing can be added to nothing. -/
  add?_undefined : ∀ {a b c : F.Carrier}, meaning a = .undefined → F.add? a b = some c → meaning c = .undefined
  /-- There is no multiple of nothing. -/
  mul?_undefined : ∀ {a b c : F.Carrier}, meaning a = .undefined → F.mul? a b = some c → meaning c = .undefined
  /-- Nothing has no whole part. -/
  floor_undefined : ∀ {a : F.Carrier}, meaning a = .undefined → meaning (F.floor a) = .undefined
  /-- No finite number is made of nothing. -/
  toFloat?_undefined : ∀ {a : F.Carrier} {t : Float}, meaning a = .undefined → F.toFloat? a = some t →
    t.isFinite = false

/-- A number that is not below zero is taken for its shortest decimal, or for nothing if that is too large. -/
def Reads (F : Fractions) (meaning : F.Carrier → Quantity) (x : Float) : Prop :=
  0.0 ≤ x → meaning (F.ofFloat x) = .rational (decimal x) ∨ meaning (F.ofFloat x) = .undefined

instance (F : Fractions) (meaning : F.Carrier → Quantity) (x : Float) : Decidable (F.Reads meaning x) :=
  inferInstanceAs (Decidable (_ → _ ∨ _))

end Fractions

/-! ## The shortest decimal of a number -/

variable {x : Float}

theorem Decimal.cast_rational (d : Decimal) : (d.rational : ℝ) = d.real := by
  rw [Decimal.rational, Decimal.real]
  push_cast
  rfl

theorem nearest_decimal (hx : x.isFinite = true) (hpos : 0 < value x) : nearest (decimal x) = value x := by
  obtain ⟨m, hm⟩ := magnitude?_of_isFinite hx
  have hreal := (abs_value_of_magnitude? hm).2
  rw [abs_of_pos hpos] at hreal
  have hdigits : 0 < m.digits := Nat.pos_of_ne_zero fun hzero => hpos.ne' ((digits_eq_zero_iff hm).mp hzero)
  rw [decimal, hm, Decimal.cast_rational, nearest_shortest hdigits (canonical_of_magnitude? hm hdigits)]
  exact hreal.symm

theorem decimal_zero (hx : x.isFinite = true) (hzero : value x = 0) : decimal x = 0 := by
  obtain ⟨m, hm⟩ := magnitude?_of_isFinite hx
  have hdigits : m.digits = 0 := (digits_eq_zero_iff hm).mpr hzero
  simp [decimal, hm, Magnitude.shortest, hdigits, Decimal.rational]

theorem decimal_nonneg (x : Float) : 0 ≤ decimal x := by
  unfold decimal
  split
  · unfold Decimal.rational
    positivity
  · exact le_rfl

/-- The shortest decimal of a number is above zero if the number is. -/
theorem decimal_pos (hx : x.isFinite = true) (hpos : 0 < value x) : 0 < decimal x := by
  refine lt_of_le_of_ne (decimal_nonneg x) fun hzero => hpos.ne ?_
  rw [← nearest_decimal hx hpos, ← hzero, Rat.cast_zero, nearest_zero]

/-- It is at most two roundings away. -/
theorem decimal_error (hx : x.isFinite = true) (hnonneg : 0 ≤ value x) (h : Expressible (decimal x)) :
    |(decimal x : ℝ) - value x| ≤ 2 * roundoff * value x := by
  rcases hnonneg.eq_or_lt with hzero | hpos
  · rw [decimal_zero hx hzero.symm, ← hzero]
    simp
  · -- A denominator of 64 bits keeps it away from the least numbers, where no rounding is relative.
    have hdecimal := decimal_pos hx hpos
    have hparts : (decimal x : ℝ) = ((decimal x).num.natAbs : ℕ) / ((decimal x).den : ℕ) := by
      rw [Nat.cast_natAbs, abs_of_pos (Rat.num_pos.mpr hdecimal), Rat.cast_def]
    have hnum : (decimal x).num.natAbs ≠ 0 := Int.natAbs_ne_zero.mpr (Rat.num_pos.mpr hdecimal).ne'
    refine Ratio.abs_sub_le_of_nearest ?_ (nearest_decimal hx hpos)
    rw [hparts]
    exact Ratio.least_le_div hnum (decimal x).den_pos h.den_le

/-! ## Ratios -/

namespace Ratio

/-- What a ratio stands for. -/
def meaning : Option Ratio → Quantity
  | some a => .rational a.rational
  | none => .undefined

theorem den_ne_zero (a : Ratio) : (a.den : ℚ) ≠ 0 := Nat.cast_ne_zero.mpr a.den_pos.ne'

variable {num den : ℕ} {a b r : Ratio}

/-- Dividing both parts by what they have in common leads to lowest terms. -/
theorem parts_div (num : ℕ) (hden : den ≠ 0) :
    (num / den : ℚ).num.natAbs = num / Nat.gcd num den ∧ (num / den : ℚ).den = den / Nat.gcd num den := by
  -- The two parts that are left have nothing in common, so they are those of the rational.
  have hcommon : 0 < Nat.gcd num den := Nat.gcd_pos_of_pos_right _ (Nat.pos_of_ne_zero hden)
  have hpos : (0 : ℤ) < (den / Nat.gcd num den : ℕ) := by
    exact_mod_cast Nat.div_pos (Nat.gcd_le_right _ (Nat.pos_of_ne_zero hden)) hcommon
  have hcoprime := Nat.coprime_div_gcd_div_gcd hcommon
  have hcancel : (num / den : ℚ) =
      ((num / Nat.gcd num den : ℕ) : ℤ) / ((den / Nat.gcd num den : ℕ) : ℤ) := by
    rw [Int.cast_natCast, Int.cast_natCast,
      Nat.cast_div_div_div_cancel_right (Nat.gcd_dvd_right num den) (Nat.gcd_dvd_left num den)]
  have hdenominator := Rat.den_div_eq_of_coprime hpos (a := (num / Nat.gcd num den : ℕ)) hcoprime
  refine ⟨?_, ?_⟩
  · rw [hcancel, Rat.num_div_eq_of_coprime hpos (a := (num / Nat.gcd num den : ℕ)) hcoprime, Int.natAbs_natCast]
  · rw [hcancel]
    exact Int.natCast_inj.mp hdenominator

theorem reduced?_isSome_iff : (reduced? num den).isSome = true ↔ den ≠ 0 ∧ Expressible (num / den) := by
  by_cases hden : den = 0
  · simp [reduced?, hden]
  · obtain ⟨hnumerator, hdenominator⟩ := parts_div num hden
    have hpositive : 0 < den / Nat.gcd num den := by
      rw [← hdenominator]
      exact Rat.den_pos _
    rw [reduced?, and_iff_right hden]
    split_ifs with hfits
    · exact iff_of_true rfl ⟨by positivity, hnumerator.trans_le hfits.2.1, hdenominator.trans_le hfits.2.2⟩
    · refine iff_of_false Bool.false_ne_true fun h => hfits ⟨hpositive, ?_, ?_⟩
      · exact hnumerator.symm.trans_le h.num_le
      · exact hdenominator.symm.trans_le h.den_le

/-- In lowest terms the parts are no larger. -/
theorem expressible_rational (a : Ratio) : Expressible a.rational := by
  obtain ⟨hnumerator, hdenominator⟩ := parts_div a.num a.den_pos.ne'
  refine ⟨?_, ?_, ?_⟩
  · unfold rational
    positivity
  · exact hnumerator.trans_le ((Nat.div_le_self _ _).trans a.num_le)
  · exact hdenominator.trans_le ((Nat.div_le_self _ _).trans a.den_le)

/-! ### Operations -/

theorem quotient_eq (a b : Ratio) :
    ((a.num * b.den : ℕ) : ℚ) / (a.den * b.num : ℕ) = a.rational / b.rational := by
  rw [rational, rational, div_div_div_eq]
  push_cast
  rfl

theorem sum_eq (a b : Ratio) :
    ((a.num * b.den + b.num * a.den : ℕ) : ℚ) / (a.den * b.den : ℕ) = a.rational + b.rational := by
  rw [rational, rational, div_add_div _ _ a.den_ne_zero b.den_ne_zero]
  push_cast
  ring

theorem product_eq (a b : Ratio) :
    ((a.num * b.num : ℕ) : ℚ) / (a.den * b.den : ℕ) = a.rational * b.rational := by
  rw [rational, rational, div_mul_div_comm]
  push_cast
  rfl

theorem rational_div? (h : a.div? b = some r) : r.rational = a.rational / b.rational :=
  (rational_reduced? h).trans (quotient_eq a b)

theorem rational_add? (h : a.add? b = some r) : r.rational = a.rational + b.rational :=
  (rational_reduced? h).trans (sum_eq a b)

theorem rational_mul? (h : a.mul? b = some r) : r.rational = a.rational * b.rational :=
  (rational_reduced? h).trans (product_eq a b)

theorem rational_ofCount {n : ℕ} (h : n ≤ countLimit) : (ofCount n h).rational = n := by
  simp [ofCount, rational]

theorem rational_floor (a : Ratio) : a.floor.rational = ⌊a.rational⌋ := by
  rw [floor, rational_ofCount, rational, ← Int.cast_natCast (a.num / a.den)]
  exact congrArg _ (Rat.floor_intCast_div_natCast a.num a.den).symm

/-- A quotient has an answer if there is one and it fits. -/
theorem div?_isSome_iff :
    (a.div? b).isSome = true ↔ b.rational ≠ 0 ∧ Expressible (a.rational / b.rational) := by
  have hzero : a.den * b.num ≠ 0 ↔ b.rational ≠ 0 := by
    rw [rational]
    simp [a.den_pos.ne', b.den_pos.ne']
  rw [div?, reduced?_isSome_iff, quotient_eq, hzero]

/-- A sum has an answer if it fits. -/
theorem add?_isSome_iff : (a.add? b).isSome = true ↔ Expressible (a.rational + b.rational) := by
  rw [add?, reduced?_isSome_iff, sum_eq]
  exact and_iff_right (Nat.mul_pos a.den_pos b.den_pos).ne'

/-- So has a product. -/
theorem mul?_isSome_iff : (a.mul? b).isSome = true ↔ Expressible (a.rational * b.rational) := by
  rw [mul?, reduced?_isSome_iff, product_eq]
  exact and_iff_right (Nat.mul_pos a.den_pos b.den_pos).ne'

/-! ### As fractions -/

section Meaning

variable {a b c : Option Ratio} {p q : ℚ}

theorem meaning_eq_rational (h : meaning a = .rational q) : ∃ r, a = some r ∧ r.rational = q := by
  cases a with
  | none => cases h
  | some r => exact ⟨r, rfl, Quantity.rational.inj h⟩

theorem meaning_eq_undefined (h : meaning a = .undefined) : a = none := by
  cases a with
  | none => rfl
  | some r => cases h

/-- What an operation on ratios stands for. -/
theorem meaning_operation {op : Ratio → Ratio → Option Ratio} {f : ℚ → ℚ → ℚ}
    (hop : ∀ {a b r}, op a b = some r → r.rational = f a.rational b.rational) (ha : meaning a = .rational p)
    (hb : meaning b = .rational q) (h : (do pure (some (← op (← a) (← b)))) = some c) :
    meaning c = .rational (f p q) := by
  obtain ⟨a, rfl, rfl⟩ := meaning_eq_rational ha
  obtain ⟨b, rfl, rfl⟩ := meaning_eq_rational hb
  simp only [Option.bind_eq_bind, Option.bind_some, Option.pure_def, Option.bind_eq_some_iff] at h
  obtain ⟨r, hr, ⟨⟩⟩ := h
  exact congrArg Quantity.rational (hop hr)

/-- Nothing comes out if one operand is missing. -/
theorem operation_undefined {op : Ratio → Ratio → Option Ratio}
    (h : meaning a = .undefined ∨ meaning b = .undefined) :
    (do pure (some (← op (← a) (← b)))) ≠ some c := by
  rcases h with h | h
  · rw [meaning_eq_undefined h]
    exact nofun
  · rw [meaning_eq_undefined h]
    intro hc
    obtain ⟨_, -, hb⟩ := Option.bind_eq_some_iff.mp hc
    cases hb

end Meaning

theorem exact : Fractions.ratios.Exact meaning where
  one := congrArg Quantity.rational (rational_ofCount _)
  div? ha hb _ h := meaning_operation rational_div? ha hb h
  add? ha hb h := meaning_operation rational_add? ha hb h
  mul? ha hb h := meaning_operation rational_mul? ha hb h
  floor h := by
    obtain ⟨r, rfl, rfl⟩ := meaning_eq_rational h
    exact congrArg Quantity.rational r.rational_floor

theorem lawful : Fractions.ratios.Lawful meaning where
  toExact := exact
  expressible h := by
    obtain ⟨r, rfl, rfl⟩ := meaning_eq_rational h
    exact r.expressible_rational
  toFloat? h ht := by
    obtain ⟨r, rfl, rfl⟩ := meaning_eq_rational h
    cases ht
    rw [cast_rational]
    exact r.toFloat_error
  div?_undefined h hc := absurd hc (operation_undefined h)
  add?_undefined h hc := absurd hc (operation_undefined (.inl h))
  mul?_undefined h hc := absurd hc (operation_undefined (.inl h))
  floor_undefined h := by
    rw [meaning_eq_undefined h]
    rfl
  toFloat?_undefined h ht := by
    rw [meaning_eq_undefined h] at ht
    cases ht

end Ratio

end Cadence.Number
