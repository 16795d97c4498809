import Mathlib
import Cadence.Number.Binary

/-!
# Bit patterns of binary64 numbers

A binary64 pattern is a sign bit, eleven exponent bits and fifty-two fraction bits. This file reads
the unpacked form of a number off those three fields, and proves:

- `unpack_canonical`: an unpacked number is in canonical form, that is, its whole factor fills
  fifty-three bits unless its exponent is the least one;
- `pack_unpack`: packing an unpacked valid pattern gives the pattern back;
- `unpack_pack`: unpacking a packed canonical number gives the number back, or an infinity when its
  exponent is too large.
-/

namespace Cadence.Number

open Float.Model Float.Model.UnpackedFloat

/-- A 64-bit pattern, as the packed form of binary64 has it. -/
abbrev Pattern : Type := BitVec Format.binary64.numBits

/-! ## The three fields -/

/-- The exponent field of a pattern. -/
def exponentField (b : Pattern) : ℕ := b.toNat / 2 ^ 52 % 2 ^ 11

/-- The fraction field of a pattern. -/
def fractionField (b : Pattern) : ℕ := b.toNat % 2 ^ 52

/-- The sign of a pattern. -/
def signField (b : Pattern) : Sign := if b.toNat < 2 ^ 63 then .positive else .negative

theorem exponentField_lt (b : Pattern) : exponentField b < 2048 := by
  unfold exponentField
  omega

theorem fractionField_lt (b : Pattern) : fractionField b < 2 ^ 52 := by
  unfold fractionField
  omega

/-- The fraction bits that unpacking reads are the fraction field. -/
theorem toNat_unpackMantissa (b : Pattern) : (unpackMantissa b).toNat = fractionField b := by
  simp [unpackMantissa, fractionField]

theorem toNat_unpackExponent (b : Pattern) : (unpackExponent b).toNat = exponentField b := by
  simp [unpackExponent, exponentField, Nat.shiftRight_eq_div_pow]

/-- The sign that unpacking reads is the sign field. -/
theorem ofBitVec_unpackSign (b : Pattern) : Sign.ofBitVec (unpackSign b) = signField b := by
  have hb : b.toNat < 2 ^ 64 := b.isLt
  have hsign : (unpackSign b).toNat = b.toNat / 2 ^ 63 := by
    simp [unpackSign, Nat.shiftRight_eq_div_pow]
    omega
  unfold Sign.ofBitVec signField
  by_cases h : b.toNat < 2 ^ 63
  · have hzero : unpackSign b = 0#1 := by
      apply BitVec.eq_of_toNat_eq
      rw [hsign]
      simp
      omega
    rw [if_pos hzero, if_pos h]
  · have hone : unpackSign b ≠ 0#1 := by
      intro hz
      rw [hz] at hsign
      simp at hsign
      omega
    rw [if_neg hone, if_neg h]

/-- The unpacked form of a number with given fields. -/
def ofFields (sign : Sign) (exponent fraction : ℕ) : UnpackedFloat :=
  if exponent = 2047 then
    if fraction = 0 then .infinity sign else .notANumber
  else if exponent = 0 then
    if h : fraction = 0 then .zero sign
    else .finite sign fraction (-1074) (Nat.pos_of_ne_zero h)
  else .finite sign (2 ^ 52 + fraction) (exponent - 1075) (by positivity)

/-- Unpacking reads the three fields. -/
theorem unpack_eq_ofFields (b : Pattern) :
    UnpackedFloat.unpack .binary64 b =
      ofFields (signField b) (exponentField b) (fractionField b) := by
  have hexp := toNat_unpackExponent b
  have hfrac := toNat_unpackMantissa b
  have htop : unpackExponent b = -1#_ ↔ exponentField b = 2047 := by
    rw [← hexp, BitVec.toNat_eq]
    simp
  have hbottom : unpackExponent b = 0#_ ↔ exponentField b = 0 := by
    rw [← hexp, BitVec.toNat_eq]
    simp
  have hnone : unpackMantissa b = 0#_ ↔ fractionField b = 0 := by
    rw [← hfrac, BitVec.toNat_eq]
    simp
  have hlead : (1#1 ++ unpackMantissa b).toNat = 2 ^ 52 + fractionField b := by
    rw [BitVec.toNat_append, hfrac, ← Nat.shiftLeft_add_eq_or_of_lt (fractionField_lt b)]
    rfl
  unfold UnpackedFloat.unpack ofFields
  simp only [htop, hbottom, hnone, ofBitVec_unpackSign, hfrac, hexp, hlead]
  split_ifs with _ _ h0 _
  · rfl
  · rfl
  · rfl
  · simp [h0, Format.exponentBias]
  · simp [Format.exponentBias]

/-! ## Canonical form -/

/-- The whole factor and the exponent of a number are canonical: the factor has at most fifty-three
bits, and exactly so many unless the exponent is the least one. -/
def CanonicalParts (m : ℕ) (e : ℤ) : Prop :=
  m < 2 ^ 53 ∧ -1074 ≤ e ∧ (2 ^ 52 ≤ m ∨ e = -1074)

/-- An unpacked number is in canonical form. -/
def Canonical : UnpackedFloat → Prop
  | .finite _ m e _ => CanonicalParts m e
  | _ => True

/-- Unpacking gives a canonical number, whose exponent is at most that of the largest one. -/
theorem unpack_canonical (b : Pattern) : Canonical (UnpackedFloat.unpack .binary64 b) := by
  have hE := exponentField_lt b
  have hM := fractionField_lt b
  rw [unpack_eq_ofFields]
  unfold ofFields
  split_ifs
  · trivial
  · trivial
  · trivial
  · exact ⟨by omega, by omega, .inr rfl⟩
  · exact ⟨by omega, by omega, .inl (by omega)⟩

/-! ## Packing -/

/-- A pattern put together from its fields, as a number. -/
theorem toNat_packComponents (s : Sign) (exponent : BitVec 11) (fraction : BitVec 52) :
    (packComponents .binary64 s exponent fraction).toNat =
      s.toBitVec.toNat * 2 ^ 63 + exponent.toNat * 2 ^ 52 + fraction.toNat := by
  have hE : exponent.toNat < 2 ^ 11 := exponent.isLt
  have hM : fraction.toNat < 2 ^ 52 := fraction.isLt
  have hsE : (s.toBitVec ++ exponent).toNat = s.toBitVec.toNat * 2 ^ 11 + exponent.toNat := by
    rw [BitVec.toNat_append, ← Nat.shiftLeft_add_eq_or_of_lt hE, Nat.shiftLeft_eq]
  unfold packComponents
  rw [BitVec.toNat_append, ← Nat.shiftLeft_add_eq_or_of_lt hM, Nat.shiftLeft_eq, hsE]
  ring

/-- The fields of a pattern that was put together are those it was put together from. -/
theorem unpack_packComponents (s : Sign) (exponent : BitVec 11) (fraction : BitVec 52) :
    UnpackedFloat.unpack .binary64 (packComponents .binary64 s exponent fraction) =
      ofFields s exponent.toNat fraction.toNat := by
  have hE : exponent.toNat < 2 ^ 11 := exponent.isLt
  have hM : fraction.toNat < 2 ^ 52 := fraction.isLt
  have hnat := toNat_packComponents s exponent fraction
  have hsign : signField (packComponents .binary64 s exponent fraction) = s := by
    unfold signField
    cases s
    · rw [if_neg]
      rw [hnat, show Sign.negative.toBitVec.toNat = 1 from rfl]
      omega
    · rw [if_pos]
      rw [hnat, show Sign.positive.toBitVec.toNat = 0 from rfl]
      omega
  rw [unpack_eq_ofFields, hsign, ← toNat_unpackExponent, ← toNat_unpackMantissa,
    unpackExponent_packComponents, unpackMantissa_packComponents]

/-- A pattern is put together from its own fields. -/
theorem packComponents_fields (b : Pattern) :
    packComponents .binary64 (signField b) (.ofNat 11 (exponentField b))
      (.ofNat 52 (fractionField b)) = b := by
  have hb : b.toNat < 2 ^ 64 := b.isLt
  apply BitVec.eq_of_toNat_eq
  rw [toNat_packComponents, BitVec.toNat_ofNat, BitVec.toNat_ofNat]
  unfold signField exponentField fractionField
  split_ifs
  · rw [show Sign.positive.toBitVec.toNat = 0 from rfl]
    omega
  · rw [show Sign.negative.toBitVec.toNat = 1 from rfl]
    omega

/-- The number of bits of a canonical whole factor. -/
theorem log2_add_one_eq_iff {m : ℕ} (hpos : 0 < m) (hm : m < 2 ^ 53) :
    m.log2 + 1 = 53 ↔ 2 ^ 52 ≤ m := by
  have hlt : m.log2 < 53 := (Nat.log2_lt hpos.ne').mpr hm
  have hle : 52 ≤ m.log2 ↔ 2 ^ 52 ≤ m := Nat.le_log2 hpos.ne'
  omega

/-- What becomes of a canonical number when it is packed: an exponent above that of the largest
number gives an infinity. -/
def saturate : UnpackedFloat → UnpackedFloat
  | .finite s m e h => if 971 < e then .infinity s else .finite s m e h
  | u => u

/-- Packing a canonical finite number writes its fields. -/
theorem pack_finite {s : Sign} {m : ℕ} {e : ℤ} (hpos : 0 < m) (hc : CanonicalParts m e) :
    UnpackedFloat.pack .binary64 (.finite s m e hpos) =
      if 971 < e then packComponents .binary64 s (-1#11) 0
      else if 2 ^ 52 ≤ m then
        packComponents .binary64 s (.ofNat 11 (e + 1075).toNat) (.ofNat 52 m)
      else packComponents .binary64 s 0#11 (.ofNat 52 m) := by
  obtain ⟨hm, he, _⟩ := hc
  have hbits := log2_add_one_eq_iff hpos hm
  have hbias : e + (Format.binary64.exponentBias : ℤ) + (52 : ℕ) = e + 1075 := by
    simp [Format.exponentBias]
    ring
  have hover : 2 ^ 11 ≤ (e + 1075).toNat + 1 ↔ 971 < e := by omega
  simp only [UnpackedFloat.pack, Format.mantissaBits]
  rw [hbias]
  simp only [show (1 : ℕ) + 52 = 53 from rfl, hbits, hover]
  rfl

/-- Unpacking a packed canonical number gives it back, saturated. -/
theorem unpack_pack {u : UnpackedFloat} (hc : Canonical u) :
    UnpackedFloat.unpack .binary64 (UnpackedFloat.pack .binary64 u) = saturate u := by
  cases u with
  | infinity s => exact (unpack_packComponents s _ _).trans rfl
  | notANumber => exact (unpack_packComponents .positive _ _).trans rfl
  | zero s => exact (unpack_packComponents s _ _).trans rfl
  | finite s m e hpos =>
    obtain ⟨hm, he, hlead⟩ := id hc
    rw [pack_finite hpos hc]
    simp only [saturate]
    split_ifs with hover hnormal
    · exact (unpack_packComponents s _ _).trans rfl
    · -- The leading bit of the factor is not stored.
      have hE : (BitVec.ofNat 11 (e + 1075).toNat).toNat = (e + 1075).toNat := by
        rw [BitVec.toNat_ofNat]
        omega
      have hM : (BitVec.ofNat 52 m).toNat = m - 2 ^ 52 := by
        rw [BitVec.toNat_ofNat]
        omega
      have hfactor : 2 ^ 52 + (m - 2 ^ 52) = m := by omega
      have hexp : (((e + 1075).toNat : ℕ) : ℤ) - 1075 = e := by omega
      rw [unpack_packComponents, hE, hM, ofFields, if_neg (by omega), if_neg (by omega)]
      simp only [hfactor, hexp]
    · -- A factor without the leading bit has the least exponent.
      have hM : (BitVec.ofNat 52 m).toNat = m := by
        rw [BitVec.toNat_ofNat]
        omega
      have he' : e = -1074 := by omega
      subst he'
      rw [unpack_packComponents, hM, ofFields, if_neg (by simp), if_pos (by simp),
        dif_neg (by omega)]

/-- Packing an unpacked valid pattern gives it back. -/
theorem pack_unpack {b : Pattern} (hvalid : Format.binary64.Valid b) :
    UnpackedFloat.pack .binary64 (UnpackedFloat.unpack .binary64 b) = b := by
  have hE := exponentField_lt b
  have hM := fractionField_lt b
  have hfields := packComponents_fields b
  rw [unpack_eq_ofFields]
  unfold ofFields
  split_ifs with htop hnone hbottom hnone
  · rw [htop, hnone] at hfields
    exact hfields
  · -- Only one pattern stands for an undefined number.
    refine (hvalid.eq_packedNaN ?_ ?_).symm
    · rw [BitVec.toNat_eq, toNat_unpackExponent, htop]
      rfl
    · rw [ne_eq, BitVec.toNat_eq, toNat_unpackMantissa]
      exact hnone
  · rw [hbottom, hnone] at hfields
    exact hfields
  · rw [pack_finite _ ⟨by omega, by omega, .inr rfl⟩, if_neg (by omega), if_neg (by omega)]
    rw [hbottom] at hfields
    exact hfields
  · rw [pack_finite _ ⟨by omega, by omega, .inl (by omega)⟩, if_neg (by omega),
      if_pos (by omega)]
    -- The leading bit that unpacking put in is left out again.
    have hexp : ((exponentField b : ℤ) - 1075 + 1075).toNat = exponentField b := by omega
    have hfrac : BitVec.ofNat 52 (2 ^ 52 + fractionField b) = .ofNat 52 (fractionField b) := by
      apply BitVec.eq_of_toNat_eq
      simp only [BitVec.toNat_ofNat]
      omega
    rw [hexp, hfrac]
    exact hfields

@[simp]
theorem ofBits_toBits (x : Float) : Float.ofBits x.toBits = x := by
  obtain ⟨⟨bits, hvalid⟩⟩ := x
  have hpack := pack_unpack hvalid
  simp only [Float.ofBits, Float.toBits, Float.Model.ofBits, Float.Model.pack]
  simp only [hpack]

end Cadence.Number
