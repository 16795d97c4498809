import Mathlib
import Cadence.Number.Notation
import Cadence.Proofs.Number.ReadBack

/-!
# Numbers written positionally

A decimal that is written with a point consists of whole digits and of places, and they denote its value. The
whole digits have no superfluous zero in front, so that every format reads them.

- `WholeDigits`: the digits of a whole number, as they are written;
- `plain_parts`: the parts of a decimal that is written positionally.
-/

namespace Cadence.Number

/-- Digits without a superfluous zero in front. -/
structure WholeDigits (cs : List Char) : Prop where
  /-- There is a digit. -/
  ne_nil : cs ≠ []
  /-- There are only digits. -/
  isDigit : ∀ c ∈ cs, c.isDigit = true
  /-- A zero in front stands alone. -/
  head : cs.head? = some '0' → cs = ['0']

theorem WholeDigits.head?_isDigit {cs : List Char} (h : WholeDigits cs) (ds : List Char) :
    ∀ c ∈ (cs ++ ds).head?, c.isDigit = true := by
  rw [List.head?_append_of_ne_nil _ h.ne_nil]
  exact fun c hc => h.isDigit c (List.mem_of_mem_head? hc)

theorem wholeDigits_toDigits (n : ℕ) : WholeDigits (Nat.toDigits 10 n) where
  ne_nil := Nat.toDigits_ne_nil
  isDigit _ := isDigit_of_mem_toDigits
  head h := by
    rcases Nat.eq_zero_or_pos n with rfl | hpos
    · exact Nat.toDigits_zero 10
    · exact absurd h (head?_toDigits hpos)

/-- The first digits of a number that is not zero. -/
theorem wholeDigits_take {n k : ℕ} (hn : 0 < n) (hk : 0 < k) : WholeDigits ((Nat.toDigits 10 n).take k) where
  ne_nil h := (List.take_eq_nil_iff.mp h).elim (fun h => by omega) Nat.toDigits_ne_nil
  isDigit c hc := isDigit_of_mem_toDigits (List.mem_of_mem_take hc)
  head h := by
    rw [List.head?_take, if_neg (by omega)] at h
    exact absurd h (head?_toDigits hn)

theorem wholeDigits_append_zeros {n k : ℕ} (hn : 0 < n) :
    WholeDigits (Nat.toDigits 10 n ++ List.replicate k '0') where
  ne_nil := by simp
  isDigit c hc := (List.mem_append.mp hc).elim isDigit_of_mem_toDigits isDigit_of_mem_zeros
  head h := by
    rw [List.head?_append_of_ne_nil _ Nat.toDigits_ne_nil] at h
    exact absurd h (head?_toDigits hn)

/-- The value of whole digits and of places behind a point. -/
theorem real_places (cs ds : List Char) :
    Decimal.real ⟨digitsValue (cs ++ ds), -(ds.length : ℤ)⟩ =
      digitsValue cs + digitsValue ds * (10 : ℝ) ^ (-(ds.length : ℤ)) := by
  rw [Decimal.real, digitsValue_append]
  push_cast
  rw [add_mul, mul_assoc, ← zpow_natCast, ← zpow_add₀ (by norm_num), add_neg_cancel, zpow_zero, mul_one]

/-- What is written of a decimal, around the point. -/
structure PlainParts (d : Decimal) (whole places : List Char) : Prop where
  /-- The text has these parts. -/
  toList_eq : (d.plain true).toList = whole ++ '.' :: places
  /-- What stands before the point. -/
  wholeDigits : WholeDigits whole
  /-- Something stands behind it. -/
  places_ne_nil : places ≠ []
  /-- Only digits do. -/
  isDigit : ∀ c ∈ places, c.isDigit = true
  /-- The digits denote the decimal. -/
  real_eq : Decimal.real ⟨digitsValue (whole ++ places), -(places.length : ℤ)⟩ = d.real

variable {d : Decimal}

/-- A whole number ends in zeros, and a zero stands behind the point. -/
theorem plain_of_whole (hpos : 0 < d.digits) (h : 0 ≤ d.exponent) :
    PlainParts d (Nat.toDigits 10 d.digits ++ List.replicate d.exponent.toNat '0') ['0'] where
  toList_eq := by simp [Decimal.plain, h, zeros]
  wholeDigits := wholeDigits_append_zeros hpos
  places_ne_nil := by simp
  isDigit := by simp
  real_eq := by
    have hten : (10 : ℝ) ^ d.exponent.toNat = (10 : ℝ) ^ d.exponent := by
      rw [← zpow_natCast, Int.toNat_of_nonneg h]
    rw [real_places, digitsValue_append, digitsValue_toDigits, digitsValue_zeros, List.length_replicate,
      Decimal.real]
    simp [hten, digitsValue, digitValue]

/-- A number below one has zeros behind the point. -/
theorem plain_of_small (h : ((Nat.toDigits 10 d.digits).length : ℤ) + d.exponent ≤ 0) :
    PlainParts d ['0'] (List.replicate (-((Nat.toDigits 10 d.digits).length + d.exponent)).toNat '0' ++
      Nat.toDigits 10 d.digits) where
  toList_eq := by
    have hlength := Nat.length_toDigits_pos (b := 10) (n := d.digits)
    have hnegative : ¬ 0 ≤ d.exponent := by omega
    simp only [Decimal.plain, Nat.toString_eq_repr, ← String.length_toList, Nat.toList_repr, if_neg hnegative,
      if_pos h, zeros, String.toList_append, String.toList_ofList]
    rfl
  wholeDigits := wholeDigits_toDigits 0
  places_ne_nil := by simp
  isDigit c hc := (List.mem_append.mp hc).elim isDigit_of_mem_zeros isDigit_of_mem_toDigits
  real_eq := by
    have hlength : ((List.replicate (-((Nat.toDigits 10 d.digits).length + d.exponent)).toNat '0' ++
        Nat.toDigits 10 d.digits).length : ℤ) = -d.exponent := by
      rw [List.length_append, List.length_replicate]
      omega
    rw [real_places, hlength, digitsValue_append, digitsValue_zeros, digitsValue_toDigits, Decimal.real]
    simp [digitsValue, digitValue]

/-- The point stands between the digits of any other number. -/
theorem plain_of_inner (hpos : 0 < d.digits) (h : 0 < ((Nat.toDigits 10 d.digits).length : ℤ) + d.exponent)
    (hnegative : d.exponent < 0) :
    PlainParts d ((Nat.toDigits 10 d.digits).take ((Nat.toDigits 10 d.digits).length + d.exponent).toNat)
      ((Nat.toDigits 10 d.digits).drop ((Nat.toDigits 10 d.digits).length + d.exponent).toNat) where
  toList_eq := by
    simp only [Decimal.plain, Nat.toString_eq_repr, ← String.length_toList, Nat.toList_repr,
      if_neg (not_le.mpr hnegative), if_neg (not_le.mpr h), String.toList_append, String.toList_ofList]
    simp
  wholeDigits := wholeDigits_take hpos (by omega)
  places_ne_nil := by
    rw [ne_eq, List.drop_eq_nil_iff]
    omega
  isDigit c hc := isDigit_of_mem_toDigits (List.mem_of_mem_drop hc)
  real_eq := by
    have hlength : (((Nat.toDigits 10 d.digits).drop
        ((Nat.toDigits 10 d.digits).length + d.exponent).toNat).length : ℤ) = -d.exponent := by
      rw [List.length_drop]
      omega
    rw [List.take_append_drop, digitsValue_toDigits, hlength, neg_neg]

/-- A decimal that is written positionally has whole digits and places. -/
theorem plain_parts (hd : 0 < d.digits ∨ d = ⟨0, 0⟩) :
    ∃ whole places, PlainParts d whole places := by
  rcases hd with hpos | rfl
  · -- The point stands behind the digits, before them or between them.
    rcases le_or_gt 0 d.exponent with hwhole | hnegative
    · exact ⟨_, _, plain_of_whole hpos hwhole⟩
    · rcases le_or_gt (((Nat.toDigits 10 d.digits).length : ℤ) + d.exponent) 0 with hsmall | hinner
      · exact ⟨_, _, plain_of_small hsmall⟩
      · exact ⟨_, _, plain_of_inner hpos hinner hnegative⟩
  · refine ⟨['0'], ['0'], by decide, wholeDigits_toDigits 0, by simp, by simp, ?_⟩
    simp [Decimal.real, digitsValue, digitValue]

theorem canonical_of_magnitude? {x : Float} {m : Magnitude} (hx : magnitude? x = some m)
    (hpos : 0 < m.digits) : CanonicalParts m.digits m.exponent := by
  have hcanonical := canonical_unpack x
  unfold magnitude? at hx
  split at hx
  all_goals cases hx
  next => exact absurd hpos (by decide)
  next hu =>
    rw [hu] at hcanonical
    exact hcanonical

/-- Only zero has the digit zero as its shortest decimal. -/
theorem shortest_digits {x : Float} {m : Magnitude} (hx : magnitude? x = some m) (tie : Tie) :
    0 < (m.shortest tie).digits ∨ m.shortest tie = ⟨0, 0⟩ := by
  rcases Nat.eq_zero_or_pos m.digits with hzero | hpos
  · exact .inr (if_pos hzero)
  · refine .inl (Nat.pos_of_ne_zero fun hdigits => ?_)
    have hnearest := nearest_shortest hpos (canonical_of_magnitude? hx hpos) tie
    rw [Decimal.real, hdigits, Nat.cast_zero, zero_mul, nearest_zero] at hnearest
    exact (parts_pos m.exponent hpos).ne hnearest

end Cadence.Number
