import Mathlib
import Cadence.Playhead
import Cadence.Proofs.GridLine
import Cadence.Proofs.Run.Nudge
import Cadence.Proofs.Run.Program

/-!
# The next multiple of a period

Where the next grid line after a beat is found. With fractions the answer is the next line up to the rounding of
the two numbers and of the answer. In binary64 the line is found from a rounded quotient, and a line that the
beat has all but reached counts as reached. How near that is grows with the beat and not with the period, so
this way can pass over a line that is still ahead.

- `answersWithin_of_reads`: the answer by way of fractions, and `answersWithin_ratios`: by way of ratios;
- `roundedAfter_spec`: the answer in binary64, and `lt_roundedAfter_of_passedOver`: how it passes over a line;
- `next_multiple_ahead`: the next multiple, and the next bar, is after the beat and at most a period further,
  unless a line was passed over, and `Conductor.isNextMultiple_ratios`: so it is for a clock.
-/

namespace Cadence

open Number

namespace Grid

/-- What rounding adds up to on the way to the next multiple. -/
noncomputable def slack (b period : ℝ) : ℝ := 16 * roundoff * (|b| + period)

/-- How near the next line can be for a beat to count as on it. -/
noncomputable def reach (b : ℝ) : ℝ := 1.000001e-9 * max |b| 1

theorem reach_nonneg (b : ℝ) : 0 ≤ reach b := by
  unfold reach
  positivity

/-- No multiple of the period is that near after the beat. -/
def ClearAhead (b period : ℝ) : Prop := ∀ k : ℤ, b < k * period → b + reach b < k * period

/-- The next line is ahead, by more than a billionth of the period and by less than a billionth of the
beat. -/
def PassedOver (b period : ℝ) : Prop :=
  ∃ k : ℤ, (k - 1) * period ≤ b ∧ b + 1e-9 * period + slack b period < k * period ∧
    k * period ≤ b + 9.99999e-10 * max |b| 1

/-! ## By way of fractions -/

/-- An answer by way of fractions is after the beat, and not further than a period away. -/
def AnswersWithin (F : Fractions) (beat period : Float) : Prop :=
  ∀ t, exactAfter? F beat period = some t → t.isFinite = true ∧ value beat < value t ∧
    value t ≤ value beat + value period + slack (value beat) (value period)

section Fractions

variable {F : Fractions} {meaning : F.Carrier → Quantity} {beat period t : Float} {p q : ℚ}

/-- So it is if neither number is taken for more than two roundings above it. -/
theorem exactAfter?_spec (hF : F.Lawful meaning) (hbeat : beat.isFinite = true)
    (hnonneg : 0 ≤ value beat) (hpos : 0 < value period)
    (ha : meaning (F.ofFloat beat) = .rational p) (hb : meaning (F.ofFloat period) = .rational q) (hq : q ≠ 0)
    (hposition : (p : ℝ) ≤ value beat + 2 * roundoff * value beat)
    (hstep : (q : ℝ) ≤ value period + 2 * roundoff * value period) (h : exactAfter? F beat period = some t) :
    t.isFinite = true ∧ value beat < value t ∧
      value t ≤ value beat + value period + slack (value beat) (value period) := by
  obtain ⟨-, target, htarget, hnumber, hfinite, hlt⟩ := exactAfter?_eq_some_iff.mp h
  have hqpos : 0 < q := lt_of_le_of_ne (hF.expressible hb).nonneg hq.symm
  have hline : IsLineAfter p q ((⌊p / q⌋ + 1) * q) := isLineAfter_floor hqpos
  obtain ⟨-, herror⟩ := hF.toFloat? (meaning_lineAfter? hF.toExact ha hb hq htarget) hnumber
  generalize ((⌊p / q⌋ + 1) * q : ℚ) = line at hline herror
  have hwithin : (line : ℝ) ≤ p + q := by exact_mod_cast hline.within
  refine ⟨hfinite, (lt_iff_value hbeat hfinite).mp hlt, ?_⟩
  have hu := roundoff_pos
  have hsmall := roundoff_small
  rw [slack, abs_of_nonneg hnonneg]
  -- Two errors in each operand, and four on the way back.
  obtain ⟨s, hs⟩ : ∃ s, s = value beat + value period := ⟨_, rfl⟩
  have hspos : 0 ≤ s := by rw [hs]; linarith
  have hus : 0 ≤ roundoff * s := mul_nonneg hu.le hspos
  have hlinele : (line : ℝ) ≤ s + 2 * (roundoff * s) := by rw [hs]; linarith
  have hlast : roundoff * line ≤ 2 * (roundoff * s) := by nlinarith
  have hhigh := (abs_le.mp herror).2
  rw [← hs]
  linarith

theorem value_nonneg_of_answer (hbeat : beat.isFinite = true) (h : exactAfter? F beat period = some t) :
    0 ≤ value beat := by
  obtain ⟨hnegative, -⟩ := exactAfter?_eq_some_iff.mp h
  rw [← value_zero]
  exact not_lt.mp fun hlt => hnegative ((lt_iff_value hbeat rfl).mpr hlt)

/-- No answer comes of nothing. -/
theorem not_undefined_of_answer (hF : F.Lawful meaning) (h : exactAfter? F beat period = some t) :
    meaning (F.ofFloat beat) ≠ .undefined ∧ meaning (F.ofFloat period) ≠ .undefined := by
  obtain ⟨-, target, htarget, hnumber, hfinite, -⟩ := exactAfter?_eq_some_iff.mp h
  have hnot : ¬ (meaning (F.ofFloat beat) = .undefined ∨ meaning (F.ofFloat period) = .undefined) := by
    intro hab
    rw [hF.toFloat?_undefined (lineAfter?_undefined hF hab htarget) hnumber] at hfinite
    cases hfinite
  exact not_or.mp hnot

/-- A shortest decimal that is expressible is at most two roundings above its number. -/
theorem decimal_le {x : Float} (hx : x.isFinite = true) (hnonneg : 0 ≤ value x) (h : Expressible (decimal x)) :
    (decimal x : ℝ) ≤ value x + 2 * roundoff * value x := by
  linarith [(abs_le.mp (decimal_error hx hnonneg h)).2]

/-- With the shortest decimals of both numbers the answer is within a period. -/
theorem answersWithin_of_reads (hF : F.Lawful meaning) (hbeat : beat.isFinite = true)
    (hperiod : period.isFinite = true) (hpos : 0 < value period) (hposition : F.Reads meaning beat)
    (hstep : F.Reads meaning period) : AnswersWithin F beat period := by
  intro t h
  have hnonneg := value_nonneg_of_answer hbeat h
  obtain ⟨hbeatfits, hperiodfits⟩ := not_undefined_of_answer hF h
  have ha := (hposition ((le_iff_value rfl hbeat).mpr (value_zero ▸ hnonneg))).resolve_right hbeatfits
  have hb := (hstep ((le_iff_value rfl hperiod).mpr (value_zero ▸ hpos.le))).resolve_right hperiodfits
  exact exactAfter?_spec hF hbeat hnonneg hpos ha hb (decimal_pos hperiod hpos).ne'
    (decimal_le hbeat hnonneg (hF.expressible ha)) (decimal_le hperiod hpos.le (hF.expressible hb)) h

/-- The ratio of a number is at most two roundings above it. -/
theorem real_le_of_ofFloat? {x : Float} {r : Ratio} (hx : x.isFinite = true) (hnonneg : 0 ≤ value x)
    (h : Ratio.ofFloat? x = some r) : r.real ≤ value x + 2 * roundoff * value x := by
  rcases Ratio.ofFloat?_spec hx hnonneg h with ⟨hzero, -⟩ | herror
  · have := mul_nonneg (mul_nonneg zero_le_two roundoff_pos.le) hnonneg
    linarith
  · linarith [(abs_le.mp herror).2]

/-- So it is with ratios, whatever decimals they are. -/
theorem answersWithin_ratios (hbeat : beat.isFinite = true) (hperiod : period.isFinite = true)
    (hpos : 0 < value period) : AnswersWithin .ratios beat period := by
  intro t h
  have hnonneg := value_nonneg_of_answer hbeat h
  obtain ⟨-, target, htarget, -⟩ := exactAfter?_eq_some_iff.mp h
  obtain ⟨hbeatfits, hperiodfits⟩ := not_undefined_of_answer Ratio.lawful h
  obtain ⟨a, ha⟩ : ∃ a, Ratio.ofFloat? beat = some a :=
    Option.ne_none_iff_exists'.mp fun hnone => hbeatfits (congrArg Ratio.meaning hnone)
  obtain ⟨b, hb⟩ : ∃ b, Ratio.ofFloat? period = some b :=
    Option.ne_none_iff_exists'.mp fun hnone => hperiodfits (congrArg Ratio.meaning hnone)
  -- A period that is taken for zero divides nothing.
  have hzero : b.rational ≠ 0 := by
    have hline : lineAfter? .ratios (some a) (some b) = some target := by
      rw [← ha, ← hb]
      exact htarget
    exact ((lineAfter?_ratios_isSome_iff a b).mp (Option.isSome_of_eq_some hline)).period_ne_zero
  exact exactAfter?_spec Ratio.lawful hbeat hnonneg hpos (congrArg Ratio.meaning ha) (congrArg Ratio.meaning hb)
    hzero (a.cast_rational ▸ real_le_of_ofFloat? hbeat hnonneg ha)
    (b.cast_rational ▸ real_le_of_ofFloat? hperiod hpos.le hb) h

end Fractions

/-! ## In binary64 -/

/-- A beat and a period for which no rounding is as large as the period. -/
structure Within (b period : ℝ) : Prop where
  /-- The period is above zero. -/
  pos : 0 < period
  /-- The beat is not too many periods from zero. -/
  near : |b| ≤ (2 : ℝ) ^ (46 : ℤ) * period
  /-- There is room for the result. -/
  room : |b| + 2 * period ≤ (2 : ℝ) ^ (1022 : ℤ)

theorem two_mul_room : 2 * (2 : ℝ) ^ (1022 : ℤ) = (2 : ℝ) ^ (1023 : ℤ) := by
  rw [← zpow_one_add₀ two_ne_zero]
  norm_num

namespace Within

variable {b period : ℝ}

/-- The sum of both sizes, which the errors are relative to. -/
theorem slack_lt (h : Within b period) : 2 * slack b period < period := by
  have hpos := h.pos
  have hnear := h.near
  unfold slack roundoff
  norm_num at hnear ⊢
  linarith

/-- One more than the whole part of a quotient that was rounded is the number of the line after the beat, or
of one that is next to it. -/
theorem steps_bounds (h : Within b period) {q : ℝ}
    (hq : |q - b / period| ≤ roundoff * |b / period| + (2 : ℝ) ^ (-1075 : ℤ)) :
    b - 2 * roundoff * (|b| + period) ≤ ((⌊q⌋ : ℝ) + 1) * period ∧
      ((⌊q⌋ : ℝ) + 1) * period ≤ b + period + 2 * roundoff * (|b| + period) := by
  have hpos := h.pos
  have hu := roundoff_pos
  have htiny : (2 : ℝ) ^ (-1075 : ℤ) ≤ roundoff := zpow_le_zpow_right₀ (by norm_num) (by norm_num)
  -- In units of the period the quotient is off by a rounding of the beat and of nearly nothing.
  have hscaled : |q * period - b| ≤ roundoff * |b| + roundoff * period := by
    have hsplit : q * period - b = (q - b / period) * period := by
      rw [sub_mul, div_mul_cancel₀ _ hpos.ne']
    rw [hsplit, abs_mul, abs_of_pos hpos]
    rw [abs_div, abs_of_pos hpos] at hq
    calc |q - b / period| * period ≤ (roundoff * (|b| / period) + (2 : ℝ) ^ (-1075 : ℤ)) * period := by gcongr
      _ = roundoff * |b| + (2 : ℝ) ^ (-1075 : ℤ) * period := by
        rw [add_mul, mul_assoc, div_mul_cancel₀ _ hpos.ne']
      _ ≤ roundoff * |b| + roundoff * period := by gcongr
  obtain ⟨hlow, hhigh⟩ := abs_le.mp hscaled
  have hfloor := mul_le_mul_of_nonneg_right (Int.floor_le q) hpos.le
  have hnext := mul_le_mul_of_nonneg_right (Int.lt_floor_add_one q).le hpos.le
  have hb := mul_nonneg hu.le (abs_nonneg b)
  have hp := mul_nonneg hu.le hpos.le
  constructor <;> nlinarith

/-- The line is not further from zero than the beat and the period together, twice. -/
theorem abs_line_le (h : Within b period) {x : ℝ} (hlow : b - 2 * roundoff * (|b| + period) ≤ x)
    (hhigh : x ≤ b + period + 2 * roundoff * (|b| + period)) :
    |x| ≤ 2 * (|b| + period) ∧ |x| ≤ (2 : ℝ) ^ (1023 : ℤ) := by
  have hpos := h.pos
  have hroom := h.room
  have hsum : 0 ≤ |b| + period := by positivity
  have herror : 2 * roundoff * (|b| + period) ≤ 1 / 2 * (|b| + period) :=
    mul_le_mul_of_nonneg_right (by linarith [roundoff_small]) hsum
  have hle : |x| ≤ 2 * (|b| + period) := by
    rw [abs_le]
    constructor <;> linarith [neg_abs_le b, le_abs_self b]
  refine ⟨hle, hle.trans ?_⟩
  rw [← two_mul_room]
  linarith

/-- What is not further from zero than the beat and two periods together, twice, does not overflow. -/
theorem inRange (h : Within b period) {x : ℝ} (hx : |x| ≤ 2 * (|b| + 2 * period)) : InRange x := by
  have hroom := h.room
  refine inRange_of_abs_le_two_zpow (hx.trans ?_)
  rw [← two_mul_room]
  gcongr

end Within

section Binary

variable {beat period : Float}

theorem abs_floor_le {q : ℝ} (h : |q| ≤ (2 : ℝ) ^ (46 : ℤ)) : |⌊q⌋| ≤ 2 ^ 46 := by
  obtain ⟨hlow, hhigh⟩ := abs_le.mp h
  rw [abs_le]
  constructor
  · refine Int.le_floor.mpr ?_
    push_cast
    exact_mod_cast hlow
  · have hfloor : (⌊q⌋ : ℝ) ≤ (2 : ℝ) ^ (46 : ℤ) := (Int.floor_le q).trans hhigh
    exact_mod_cast hfloor

/-- The number of the line that is taken: one more than the whole part of the rounded quotient. -/
def steps (beat period : Float) : Float := Number.floor (beat / period) + 1.0

theorem steps_spec (hbeat : beat.isFinite = true) (hperiod : period.isFinite = true)
    (h : Within (value beat) (value period)) :
    (steps beat period).isFinite = true ∧ ∃ n : ℤ, value (steps beat period) = n ∧
      ⌊value beat / value period⌋ + 1 ≤ n ∧
      value beat - 2 * roundoff * (|value beat| + value period) ≤ n * value period ∧
      n * value period ≤ value beat + value period + 2 * roundoff * (|value beat| + value period) := by
  have hpos := h.pos
  have hquotient : |value beat / value period| ≤ (2 : ℝ) ^ (46 : ℤ) := by
    rw [abs_div, abs_of_pos hpos, div_le_iff₀ hpos]
    exact h.near
  obtain ⟨hplace, hnan⟩ := place_div hbeat hperiod hpos.ne'
  obtain ⟨hfinite, hle⟩ := abs_value_le_of_rounded hnan hplace (by norm_num) (by norm_num) hquotient
  have hvalue : value (beat / period) = nearestSigned (value beat / value period) :=
    (value_of_rounded hnan hplace (inRange_of_abs_le_two_zpow
      (hquotient.trans (zpow_le_zpow_right₀ (by norm_num) (by norm_num))))).2
  obtain ⟨hfloor, hfloorvalue⟩ := value_floor hfinite
  obtain ⟨q, hq⟩ : ∃ q, q = value (beat / period) := ⟨_, rfl⟩
  rw [← hq] at hle hfloorvalue hvalue
  have hwhole := abs_floor_le hle
  have hwhole' : |⌊q⌋ + 1| < 2 ^ 53 := (abs_add_le _ _).trans_lt (by rw [abs_one]; omega)
  obtain ⟨hsum, hsumnan⟩ := place_add hfloor (y := 1.0) rfl
  rw [hfloorvalue, value_one] at hsum
  obtain ⟨hsteps, hstepsvalue⟩ := value_of_whole (n := ⌊q⌋ + 1) hsumnan (by rw [hsum]; push_cast; rfl) hwhole'
  refine ⟨hsteps, ⌊q⌋ + 1, hstepsvalue, ?_, ?_⟩
  · -- Rounding does not take the quotient below the whole number under it.
    have hexact := abs_floor_le hquotient
    have hmono := nearestSigned_mono (Int.floor_le (value beat / value period))
    rw [nearestSigned_intCast (by omega), ← hvalue] at hmono
    have := Int.le_floor.mpr hmono
    omega
  · have hbounds := h.steps_bounds (hvalue ▸ abs_nearestSigned_sub_le_add _)
    push_cast
    exact hbounds

/-- The line that is found, before it is seen how near it is. -/
theorem target_spec (hbeat : beat.isFinite = true) (hperiod : period.isFinite = true)
    (h : Within (value beat) (value period)) :
    (steps beat period * period).isFinite = true ∧ ∃ n : ℤ,
      ⌊value beat / value period⌋ + 1 ≤ n ∧
      |value (steps beat period * period) - n * value period| ≤ roundoff * |n * value period| ∧
      value beat - 2 * roundoff * (|value beat| + value period) ≤ n * value period ∧
      n * value period ≤ value beat + value period + 2 * roundoff * (|value beat| + value period) := by
  obtain ⟨hsteps, n, hn, hle, hlow, hhigh⟩ := steps_spec hbeat hperiod h
  have hsize := h.abs_line_le hlow hhigh
  obtain ⟨hfinite, herror⟩ := value_mul_error hsteps hperiod (hn ▸ inRange_of_abs_le_two_zpow hsize.2)
    (hn ▸ .inl (onLeastGrid_value.intCast_mul n))
  exact ⟨hfinite, n, hle, hn ▸ herror, hlow, hhigh⟩

theorem value_tolerance :
    tolerance.isFinite = true ∧ 9.999999e-10 ≤ value tolerance ∧ value tolerance ≤ 1.0000001e-9 := by
  obtain ⟨hfinite, hlow, hhigh⟩ : tolerance.isFinite = true ∧ 9.999999e-10 ≤ exact tolerance ∧
      exact tolerance ≤ 1.0000001e-9 := by decide +kernel
  rw [← cast_exact]
  refine ⟨hfinite, ?_, ?_⟩
  · have := (Rat.cast_le (K := ℝ)).mpr hlow
    norm_num at this ⊢
    exact this
  · have := (Rat.cast_le (K := ℝ)).mpr hhigh
    norm_num at this ⊢
    exact this

/-- The tolerance for a beat, as it is computed. -/
theorem tolerance_spec (hbeat : beat.isFinite = true) (hle : |value beat| ≤ (2 : ℝ) ^ (1022 : ℤ)) :
    (tolerance * larger beat.abs 1.0).isFinite = true ∧
      9.999995e-10 * max |value beat| 1 ≤ value (tolerance * larger beat.abs 1.0) ∧
      value (tolerance * larger beat.abs 1.0) ≤ 1.0000005e-9 * max |value beat| 1 := by
  obtain ⟨hfactor, hleast, hmost⟩ := value_tolerance
  obtain ⟨habs, habsvalue⟩ := value_abs hbeat
  obtain ⟨hlarger, hlargervalue⟩ := value_larger habs (y := 1.0) rfl
  rw [habsvalue, value_one] at hlargervalue
  have hone : 1 ≤ max |value beat| 1 := le_max_right _ _
  have hsize : max |value beat| 1 ≤ (2 : ℝ) ^ (1022 : ℤ) :=
    max_le hle (one_le_zpow₀ (by norm_num) (by norm_num))
  generalize max |value beat| 1 = M at hlargervalue hone hsize ⊢
  have hleastM : 9.999999e-10 * M ≤ value tolerance * M := by gcongr
  have hproduct : 1e-10 ≤ value tolerance * M := by linarith
  have hround : Roundable (value tolerance * M) := by
    have hbottom : (2 : ℝ) ^ (-1022 : ℤ) ≤ (2 : ℝ) ^ (-40 : ℤ) :=
      zpow_le_zpow_right₀ (by norm_num) (by norm_num)
    have hbelow : (2 : ℝ) ^ (-40 : ℤ) ≤ 1e-10 := by norm_num
    exact .inr ((hbottom.trans (hbelow.trans hproduct)).trans (le_abs_self _))
  have hin : InRange (value tolerance * M) := by
    refine inRange_of_abs_le_two_zpow ?_
    rw [abs_of_nonneg (le_trans (by norm_num) hproduct)]
    calc value tolerance * M ≤ 1 * (2 : ℝ) ^ (1022 : ℤ) := by
          gcongr
          linarith
      _ ≤ (2 : ℝ) ^ (1023 : ℤ) := by
          rw [one_mul]
          exact zpow_le_zpow_right₀ (by norm_num) (by norm_num)
  obtain ⟨hfinite, herror⟩ := value_mul_error hfactor hlarger (hlargervalue ▸ hin) (hlargervalue ▸ hround)
  rw [hlargervalue, abs_of_nonneg (a := value tolerance * M) (le_trans (by norm_num) hproduct)] at herror
  obtain ⟨hlow, hhigh⟩ := abs_le.mp herror
  have hmul : value tolerance * M ≤ 1.0000001e-9 * M := by gcongr
  have hu := mul_le_mul_of_nonneg_right roundoff_small
    (le_trans (by norm_num) hproduct : 0 ≤ value tolerance * M)
  refine ⟨hfinite, by linarith, by linarith⟩

/-- The line that is found, from the beat. -/
theorem target_bounds {S n P b t : ℝ} (hn : |n * P| ≤ 2 * S)
    (ht : |t - n * P| ≤ roundoff * |n * P|) (hlow : b - 2 * roundoff * S ≤ n * P)
    (hhigh : n * P ≤ b + P + 2 * roundoff * S) :
    b - 4 * (roundoff * S) ≤ t ∧ t ≤ b + P + 4 * (roundoff * S) := by
  have herror := mul_le_mul_of_nonneg_left hn roundoff_pos.le
  obtain ⟨htlow, hthigh⟩ := abs_le.mp ht
  constructor <;> nlinarith

/-- Rounding keeps the sign of a distance. -/
theorem pos_of_rounded_pos {x d : ℝ} (hd : |d - x| ≤ roundoff * |x|) (h : 0 < d) : 0 < x := by
  by_contra hneg
  rw [abs_of_nonpos (not_lt.mp hneg)] at hd
  have hsmall := mul_le_mul_of_nonneg_right roundoff_small (neg_nonneg.mpr (not_lt.mp hneg))
  have hhigh := (abs_le.mp hd).2
  linarith

/-- What a rounded distance tells of the distance. -/
theorem le_of_rounded_le {x d bound : ℝ} (hd : |d - x| ≤ roundoff * |x|) (hle : d ≤ 1.0000005e-9 * bound)
    (hbound : 0 ≤ bound) : x ≤ 1.000001e-9 * bound := by
  rcases le_or_gt x 0 with hneg | hpos
  · exact hneg.trans (by positivity)
  · rw [abs_of_pos hpos] at hd
    have hsmall := mul_le_mul_of_nonneg_right roundoff_small hpos.le
    have hlow := (abs_le.mp hd).1
    norm_num at hle hsmall ⊢
    linarith

/-- A line that is not within reach is seen to be ahead. -/
theorem lt_of_clear {x d b line M : ℝ} (hd : |d - (x - b)| ≤ roundoff * |x - b|)
    (hx : |x - line| ≤ roundoff * |line|) (hM : |b| ≤ M) (hclear : b + 1.000001e-9 * M < line) :
    1.0000005e-9 * M < d := by
  have hu := roundoff_pos
  have hsmall : roundoff ≤ 1.2e-16 := by
    unfold roundoff
    norm_num
  have hMpos : 0 ≤ M := (abs_nonneg b).trans hM
  obtain ⟨gap, hgap⟩ : ∃ gap, gap = line - b := ⟨_, rfl⟩
  have hgapM : 1.000001e-9 * M < gap := by rw [hgap]; linarith
  have hline : |line| ≤ M + gap := by
    rw [show line = b + gap by rw [hgap]; ring]
    refine (abs_add_le _ _).trans ?_
    rw [abs_of_nonneg (le_trans (by positivity) hgapM.le)]
    linarith
  have hux := mul_le_mul_of_nonneg_left hline hu.le
  have huM := mul_le_mul_of_nonneg_right hsmall hMpos
  have hgappos : 0 ≤ gap := le_trans (by positivity) hgapM.le
  have hug := mul_le_mul_of_nonneg_right hsmall hgappos
  have hxlow : gap - (roundoff * M + roundoff * gap) ≤ x - b := by
    have := (abs_le.mp hx).1
    rw [hgap] at hux ⊢
    linarith
  have hxpos : 0 ≤ x - b := by
    norm_num at hgapM huM hug
    linarith
  rw [abs_of_nonneg hxpos] at hd
  have hdlow := (abs_le.mp hd).1
  have hud := mul_le_mul_of_nonneg_right hsmall hxpos
  norm_num at hgapM huM hug hud ⊢
  linarith

/-- A line that is well within reach counts as reached. -/
theorem le_of_close {x d b line M : ℝ} (hd : |d - (x - b)| ≤ roundoff * |x - b|)
    (hx : |x - line| ≤ roundoff * |line|) (hM : |b| ≤ M) (hahead : b < line)
    (hclose : line ≤ b + 9.99999e-10 * M) : d ≤ 9.999995e-10 * M := by
  have hsmall : roundoff ≤ 1.2e-16 := by
    unfold roundoff
    norm_num
  have hMpos : 0 ≤ M := (abs_nonneg b).trans hM
  obtain ⟨hMlow, hMhigh⟩ := abs_le.mp hM
  have hline : |line| ≤ 2 * M := abs_le.mpr ⟨by linarith, by linarith⟩
  have hux : |x - line| ≤ 1.2e-16 * (2 * M) :=
    hx.trans (mul_le_mul hsmall hline (abs_nonneg _) (by norm_num))
  obtain ⟨hxlow, hxhigh⟩ := abs_le.mp hux
  have hgap : |x - b| ≤ 9.999994e-10 * M := abs_le.mpr ⟨by linarith, by linarith⟩
  have hud : |d - (x - b)| ≤ 1.2e-16 * (9.999994e-10 * M) :=
    hd.trans (mul_le_mul hsmall hgap (abs_nonneg _) (by norm_num))
  linarith [(abs_le.mp hud).2, (abs_le.mp hgap).2]

/-- The line that is found is next to the beat, and how far it is ahead is known up to one rounding. -/
theorem distance_spec (hbeat : beat.isFinite = true) (hperiod : period.isFinite = true)
    (h : Within (value beat) (value period)) :
    (steps beat period * period - beat).isFinite = true ∧
      |value (steps beat period * period - beat) - (value (steps beat period * period) - value beat)| ≤
        roundoff * |value (steps beat period * period) - value beat| ∧
      value beat - 4 * (roundoff * (|value beat| + value period)) ≤ value (steps beat period * period) ∧
      value (steps beat period * period) ≤
        value beat + value period + 4 * (roundoff * (|value beat| + value period)) := by
  obtain ⟨htarget, n, -, herror, hlow, hhigh⟩ := target_spec hbeat hperiod h
  obtain ⟨htlow, hthigh⟩ := target_bounds (h.abs_line_le hlow hhigh).1 herror hlow hhigh
  have hpos := h.pos
  have hslack := h.slack_lt
  have hbabs := abs_nonneg (value beat)
  rw [slack, mul_assoc] at hslack
  have hdistance : |value (steps beat period * period) - value beat| ≤
      2 * (|value beat| + 2 * value period) := by
    have huS : 0 ≤ roundoff * (|value beat| + value period) := mul_nonneg roundoff_pos.le (by linarith)
    rw [abs_le]
    constructor <;> linarith
  obtain ⟨hfinite, hdistanceerror⟩ := value_sub_error htarget hbeat (h.inRange hdistance)
  exact ⟨hfinite, hdistanceerror, htlow, hthigh⟩

/-- The line after the one that is found is a period further, up to one rounding. -/
theorem sum_spec (hbeat : beat.isFinite = true) (hperiod : period.isFinite = true)
    (h : Within (value beat) (value period)) :
    (steps beat period * period + period).isFinite = true ∧
      |value (steps beat period * period + period) - (value (steps beat period * period) + value period)| ≤
        4 * (roundoff * (|value beat| + value period)) := by
  obtain ⟨htarget, -⟩ := target_spec hbeat hperiod h
  obtain ⟨-, -, htlow, hthigh⟩ := distance_spec hbeat hperiod h
  have hpos := h.pos
  have hslack := h.slack_lt
  have hbabs := abs_nonneg (value beat)
  have huS : 0 ≤ roundoff * (|value beat| + value period) := mul_nonneg roundoff_pos.le (by linarith)
  rw [slack, mul_assoc] at hslack
  have hsum : |value (steps beat period * period) + value period| ≤
      2 * (|value beat| + 2 * value period) := by
    rw [abs_le]
    constructor <;> linarith [neg_abs_le (value beat), le_abs_self (value beat)]
  obtain ⟨hfinite, herror⟩ := value_add_error htarget hperiod (h.inRange hsum)
  refine ⟨hfinite, herror.trans ?_⟩
  have hbound := mul_le_mul_of_nonneg_left
    (hsum.trans (by linarith : _ ≤ 4 * (|value beat| + value period))) roundoff_pos.le
  linarith

/-- The answer is the line that is found, or the one after it if the beat is all but on that line. -/
theorem roundedAfter_eq : roundedAfter beat period =
    if steps beat period * period - beat ≤ tolerance * larger beat.abs 1.0 then
      steps beat period * period + period
    else steps beat period * period :=
  rfl

/-- The answer in binary64 is after the beat, and at most a period away if it was clear which line is the
next. -/
theorem roundedAfter_spec (hbeat : beat.isFinite = true) (hperiod : period.isFinite = true)
    (h : Within (value beat) (value period)) :
    (roundedAfter beat period).isFinite = true ∧ value beat < value (roundedAfter beat period) ∧
      value (roundedAfter beat period) ≤
        value beat + value period + slack (value beat) (value period) + reach (value beat) ∧
      (ClearAhead (value beat) (value period) → value (roundedAfter beat period) ≤
        value beat + value period + slack (value beat) (value period)) := by
  obtain ⟨htarget, n, hn, herror, -, -⟩ := target_spec hbeat hperiod h
  obtain ⟨hdistance, hdistanceerror, htlow, hthigh⟩ := distance_spec hbeat hperiod h
  obtain ⟨hfinite, hsumerror⟩ := sum_spec hbeat hperiod h
  have hpos := h.pos
  have hslack := h.slack_lt
  have hbabs := abs_nonneg (value beat)
  obtain ⟨htolerance, htoleranceleast, htolerancele⟩ :=
    tolerance_spec hbeat ((le_add_of_nonneg_right (by linarith)).trans h.room)
  have huS : 0 ≤ roundoff * (|value beat| + value period) := mul_nonneg roundoff_pos.le (by linarith)
  rw [slack, mul_assoc] at hslack ⊢
  rw [roundedAfter_eq]
  split_ifs with hnear
  · -- The line counts as reached, and the next one is taken.
    obtain ⟨hsumlow, hsumhigh⟩ := abs_le.mp hsumerror
    have hnearvalue := (le_iff_value hdistance htolerance).mp hnear
    have hreached : value (steps beat period * period) - value beat ≤ reach (value beat) :=
      le_of_rounded_le hdistanceerror (hnearvalue.trans htolerancele) (by positivity)
    refine ⟨hfinite, by linarith, by linarith, fun hclear => ?_⟩
    -- A line that is clear of the beat would not count as reached.
    have hline : value beat < n * value period := by
      have hnext := Int.lt_floor_add_one (value beat / value period)
      have hle : (⌊value beat / value period⌋ : ℝ) + 1 ≤ n := by exact_mod_cast hn
      exact (div_lt_iff₀ hpos).mp (hnext.trans_le hle)
    have hfar := lt_of_clear hdistanceerror herror (le_max_left |value beat| 1) (hclear n hline)
    linarith
  · have hfar : value (tolerance * larger beat.abs 1.0) < value (steps beat period * period - beat) :=
      not_le.mp fun hle => hnear ((le_iff_value hdistance htolerance).mpr hle)
    have hahead := pos_of_rounded_pos hdistanceerror
      (lt_of_le_of_lt (by positivity) (htoleranceleast.trans_lt hfar))
    have hreach := reach_nonneg (value beat)
    exact ⟨htarget, by linarith, by linarith, fun _ => by linarith⟩

/-- If the next line is passed over, the answer in binary64 is more than a period away. -/
theorem lt_roundedAfter_of_passedOver (hbeat : beat.isFinite = true) (hperiod : period.isFinite = true)
    (h : Within (value beat) (value period)) (hpassed : PassedOver (value beat) (value period)) :
    value beat + value period * (1 + 1e-9) < value (roundedAfter beat period) := by
  obtain ⟨k, hbefore, hahead, hclose⟩ := hpassed
  obtain ⟨-, n, hn, herror, hlow, hhigh⟩ := target_spec hbeat hperiod h
  obtain ⟨hdistance, hdistanceerror, -⟩ := distance_spec hbeat hperiod h
  obtain ⟨-, hsumerror⟩ := sum_spec hbeat hperiod h
  have hpos := h.pos
  have hroom := h.room
  have hslack := h.slack_lt
  have hbabs := abs_nonneg (value beat)
  have huS : 0 ≤ roundoff * (|value beat| + value period) := mul_nonneg roundoff_pos.le (by linarith)
  have hsize := mul_le_mul_of_nonneg_left (h.abs_line_le hlow hhigh).1 roundoff_pos.le
  have htlow := (abs_le.mp (herror.trans hsize)).1
  rw [slack, mul_assoc] at hslack hahead
  have hk : k ≤ n := by
    have hfloor : k - 1 ≤ ⌊value beat / value period⌋ := by
      rw [Int.le_floor, le_div_iff₀ hpos]
      push_cast
      exact hbefore
    omega
  have hline : k * value period ≤ n * value period := by gcongr
  rw [roundedAfter_eq]
  split_ifs with hnear
  · linarith [(abs_le.mp hsumerror).1]
  · -- The line that is found does not count as reached, so it is not the next one.
    obtain ⟨htolerance, htoleranceleast, -⟩ :=
      tolerance_spec hbeat ((le_add_of_nonneg_right (by linarith)).trans hroom)
    have hne : k ≠ n := by
      rintro rfl
      have hreached := le_of_close hdistanceerror herror (le_max_left |value beat| 1) (by linarith) hclose
      exact hnear ((le_iff_value hdistance htolerance).mpr (hreached.trans htoleranceleast))
    have hnext : ((k + 1 : ℤ) : ℝ) * value period ≤ n * value period := by
      gcongr
      omega
    push_cast at hnext
    linarith

end Binary

end Grid

/-! ## The next multiple -/

/-- A number is the next multiple of a period after a beat, up to rounding, unless a line was passed over. -/
structure IsNextMultiple (F : Fractions) (beat period next : Float) : Prop where
  /-- It is a finite number. -/
  isFinite : next.isFinite = true
  /-- It is strictly after the beat. -/
  after : beat < next
  /-- It is at most a period away, and as much further as a line can be ahead that counts as reached. -/
  within : value next ≤
    value beat + value period + Grid.slack (value beat) (value period) + Grid.reach (value beat)
  /-- No line is passed over if fractions give the answer, or if no line is so near. -/
  single : (Grid.exactAfter? F beat period).isSome = true ∨ Grid.ClearAhead (value beat) (value period) →
    value next ≤ value beat + value period + Grid.slack (value beat) (value period)
  /-- Up to half a million periods from zero the rounding is less than a billionth of the period. -/
  relative : (Grid.exactAfter? F beat period).isSome = true ∨ Grid.ClearAhead (value beat) (value period) →
    |value beat| ≤ (2 : ℝ) ^ (19 : ℤ) * value period →
      value next ≤ value beat + value period * (1 + 1e-9)
  /-- If fractions do not give the answer and a line is passed over, it is too far away. -/
  passed : (Grid.exactAfter? F beat period).isNone = true → Grid.PassedOver (value beat) (value period) →
    value beat + value period * (1 + 1e-9) < value next

theorem Grid.slack_le {b period : ℝ} (hpos : 0 < period) (h : |b| ≤ (2 : ℝ) ^ (19 : ℤ) * period) :
    slack b period ≤ 1e-9 * period := by
  unfold slack roundoff
  norm_num at h ⊢
  linarith

section Answers

variable {F : Fractions} {beat period : Float}

/-- Whichever way gives the answer, it is after the beat, and at most a period away unless a line was passed
over. -/
theorem Grid.answer_spec (hexact : AnswersWithin F beat period) (hbeat : beat.isFinite = true)
    (hperiod : period.isFinite = true)
    (h : (exactAfter? F beat period).isSome = true ∨ Grid.Within (value beat) (value period)) :
    ((exactAfter? F beat period).getD (roundedAfter beat period)).isFinite = true ∧
      value beat < value ((exactAfter? F beat period).getD (roundedAfter beat period)) ∧
      value ((exactAfter? F beat period).getD (roundedAfter beat period)) ≤
        value beat + value period + slack (value beat) (value period) + reach (value beat) ∧
      ((exactAfter? F beat period).isSome = true ∨ ClearAhead (value beat) (value period) →
        value ((exactAfter? F beat period).getD (roundedAfter beat period)) ≤
          value beat + value period + slack (value beat) (value period)) ∧
      ((exactAfter? F beat period).isNone = true → PassedOver (value beat) (value period) →
        value beat + value period * (1 + 1e-9) <
          value ((exactAfter? F beat period).getD (roundedAfter beat period))) := by
  cases hanswer : exactAfter? F beat period with
  | some t =>
    obtain ⟨hfinite, hafter, hle⟩ := hexact t hanswer
    rw [Option.getD_some]
    exact ⟨hfinite, hafter, by linarith [reach_nonneg (value beat)], fun _ => hle, nofun⟩
  | none =>
    rw [hanswer] at h
    rw [Option.getD_none]
    have hwithin := h.resolve_left Bool.false_ne_true
    obtain ⟨hfinite, hafter, hle, hclear⟩ := roundedAfter_spec hbeat hperiod hwithin
    exact ⟨hfinite, hafter, hle, fun h => hclear (h.resolve_left Bool.false_ne_true),
      fun _ hpassed => lt_roundedAfter_of_passedOver hbeat hperiod hwithin hpassed⟩

/-- Where fractions give the answer, and where no rounding is as large as the period, the grid is followed. -/
theorem Grid.isNextMultiple_multipleAfter (hexact : AnswersWithin F beat period) (hbeat : beat.isFinite = true)
    (hperiod : period.isFinite = true) (hpos : 0.0 < period)
    (h : (exactAfter? F beat period).isSome = true ∨ Grid.Within (value beat) (value period)) :
    IsNextMultiple F beat period (multipleAfter F beat period 0.0) := by
  have hvaluepos := value_pos hperiod hpos
  obtain ⟨hfinite, hafter, hle, hsingle, hpassed⟩ := answer_spec hexact hbeat hperiod h
  have hnext : multipleAfter F beat period 0.0 =
      (exactAfter? F beat period).getD (roundedAfter beat period) + 0.0 := by
    rw [multipleAfter, decide_eq_true hpos, hperiod, hbeat]
    rfl
  generalize (exactAfter? F beat period).getD (roundedAfter beat period) = answer at *
  -- Adding the phase, which is zero, changes nothing.
  obtain ⟨hsum, -⟩ := place_add_zero (isNaN_of_isFinite hfinite) (x := 0.0) rfl value_zero
  have hsumnan := (place_add hfinite (y := 0.0) rfl).2
  obtain ⟨hnextfinite, hnextvalue⟩ := isFinite_of_place hsumnan (hsum.trans (place_eq_value hfinite))
  rw [hnext]
  refine ⟨hnextfinite, (lt_iff_value hbeat hnextfinite).mpr (hnextvalue ▸ hafter), hnextvalue ▸ hle,
    fun h => hnextvalue ▸ hsingle h, fun h hnear => ?_, fun hnone h => hnextvalue ▸ hpassed hnone h⟩
  have hbound := hsingle h
  have hsmall := slack_le hvaluepos hnear
  rw [hnextvalue]
  linarith

/-- Up to `2^46` bars from zero the next bar is found: no meter has a bar of more than `2^40` beats, so there
is always room for it below the largest number. -/
theorem Playhead.isNextMultiple_nextBar (p : Playhead) (hexact : Grid.AnswersWithin F p.now p.barLength)
    (hnow : p.now.isFinite = true)
    (h : (Grid.exactAfter? F p.now p.barLength).isSome = true ∨
      |value p.now| ≤ (2 : ℝ) ^ (46 : ℤ) * value p.barLength) :
    IsNextMultiple F p.now p.barLength (p.nextBar F) := by
  obtain ⟨hfinite, hpos, hle⟩ := p.meter.barLength_bounds
  refine Grid.isNextMultiple_multipleAfter hexact hnow hfinite ?_ (h.imp_right fun hnear => ⟨hpos, hnear, ?_⟩)
  · exact (lt_iff_value rfl hfinite).mpr (value_zero ▸ hpos)
  · have hsize : |value p.now| + 2 * value p.barLength ≤ (2 : ℝ) ^ (90 : ℤ) := by
      have hbar : value p.barLength ≤ (2 : ℝ) ^ (40 : ℤ) := hle
      norm_num at hnear hbar ⊢
      linarith
    exact hsize.trans (zpow_le_zpow_right₀ (by norm_num) (by norm_num))

end Answers

/-- For every finite beat and every period above zero the next multiple is strictly after the beat and at most
a period away, up to rounding, and so is the next bar for every meter, whatever fractions are computed with that
are exact or have no answer and take numbers for their shortest decimals. All that is asked besides is that no
line is passed over: in binary64 a line counts as reached that is ahead by up to a billionth of the beat. Where
that is more than a billionth of the period, the answer is too far away. -/
theorem next_multiple_ahead (F : Fractions) {meaning : F.Carrier → Quantity} (hF : F.Lawful meaning)
    (beat period : Float) (hbeat : beat.isFinite = true) (hperiod : period.isFinite = true)
    (hpos : 0.0 < period) (hposition : F.Reads meaning beat) (hstep : F.Reads meaning period)
    (h : (Grid.exactAfter? F beat period).isSome = true ∨ Grid.Within (value beat) (value period)) :
    IsNextMultiple F beat period (Grid.multipleAfter F beat period 0.0) ∧
    ∀ p : Playhead, p.now.isFinite = true → F.Reads meaning p.now → F.Reads meaning p.barLength →
      (Grid.exactAfter? F p.now p.barLength).isSome = true ∨
          |value p.now| ≤ (2 : ℝ) ^ (46 : ℤ) * value p.barLength →
        IsNextMultiple F p.now p.barLength (p.nextBar F) := by
  refine ⟨?_, fun p hnow hnowreads hbarreads hbars => ?_⟩
  · have hexact := Grid.answersWithin_of_reads hF hbeat hperiod (value_pos hperiod hpos) hposition hstep
    exact Grid.isNextMultiple_multipleAfter hexact hbeat hperiod hpos h
  · obtain ⟨hfinite, hbarpos, -⟩ := p.meter.barLength_bounds
    have hexact := Grid.answersWithin_of_reads hF hnow hfinite hbarpos hnowreads hbarreads
    exact p.isNextMultiple_nextBar hexact hnow hbars

/-- The line after a beat and a half, found by way of ratios, the one after a beat below zero, found in
binary64, and the first bar of a clock that has just started. -/
theorem next_multiples_found :
    IsNextMultiple .ratios 5.5 4.0 (Grid.next 5.5 4.0 0.0) ∧
      IsNextMultiple .ratios (-7.25) 1.5 (Grid.next (-7.25) 1.5 0.0) ∧
      IsNextMultiple .ratios (Conductor.offline : Conductor Offline Unit).playhead.now
        (Conductor.offline : Conductor Offline Unit).playhead.barLength
        (Conductor.offline : Conductor Offline Unit).nextBar := by
  obtain ⟨hpos, hnear, hroom⟩ : 0 < exact 1.5 ∧ |exact (-7.25)| ≤ 2 ^ 46 * exact 1.5 ∧
      |exact (-7.25)| + 2 * exact 1.5 ≤ 2 ^ 1022 := by decide +kernel
  have hwithin : Grid.Within (value (-7.25)) (value 1.5) := by
    simp only [← cast_exact]
    exact ⟨by exact_mod_cast hpos, by exact_mod_cast hnear, by exact_mod_cast hroom⟩
  obtain ⟨hexact, hbars⟩ := next_multiple_ahead .ratios Ratio.lawful 5.5 4.0 (by decide +kernel)
    (by decide +kernel) (by decide +kernel) (by decide +kernel) (by decide +kernel) (.inl (by decide +kernel))
  obtain ⟨hrounded, -⟩ := next_multiple_ahead .ratios Ratio.lawful (-7.25) 1.5 (by decide +kernel)
    (by decide +kernel) (by decide +kernel) (by decide +kernel) (by decide +kernel) (.inr hwithin)
  exact ⟨hexact, hrounded, hbars _ (by decide +kernel) (by decide +kernel) (by decide +kernel)
    (.inl (by decide +kernel))⟩

/-- Just before the line at minus one thousand the one after it is answered, whatever fractions there are, and
just before the bar at ten thousand so is the bar after that, in a meter of five twelfths. -/
theorem line_passed_over :
    (∀ F : Fractions, ¬ (∀ beat period : Float, beat.isFinite = true → period.isFinite = true → 0.0 < period →
      beat < Grid.multipleAfter F beat period 0.0 ∧
        value (Grid.multipleAfter F beat period 0.0) ≤ value beat + value period * (1 + 1e-9)) ∧
      Grid.multipleAfter F (-1000.0000001) 4.0 0.0 = -996.0) ∧
    value 9999.999995 + value (Meter.mk 5 12 (by decide) (by decide)).barLength * (1 + 1e-9) <
      value (Grid.next 9999.999995 (Meter.mk 5 12 (by decide) (by decide)).barLength 0.0) := by
  refine ⟨fun F => ?_, ?_⟩
  · -- Below zero nothing is asked of fractions.
    have hnext : Grid.multipleAfter F (-1000.0000001) 4.0 0.0 = -996.0 := by
      have hnone : Grid.exactAfter? F (-1000.0000001) 4.0 = none := if_pos (by decide +kernel)
      rw [Grid.multipleAfter, hnone]
      decide +kernel
    have hfar : exact (-1000.0000001) + exact 4.0 * (1 + 1e-9) < exact (-996.0) := by decide +kernel
    refine ⟨fun h => ?_, hnext⟩
    obtain ⟨-, hnear⟩ := h (-1000.0000001) 4.0 (by decide +kernel) (by decide +kernel) (by decide +kernel)
    rw [hnext] at hnear
    simp only [← cast_exact] at hnear
    refine absurd hnear (not_le.mpr ?_)
    have hcast := (Rat.cast_lt (K := ℝ)).mpr hfar
    push_cast at hcast
    exact hcast
  · have hfar : exact 9999.999995 + exact (Meter.mk 5 12 (by decide) (by decide)).barLength * (1 + 1e-9) <
        exact (Grid.next 9999.999995 (Meter.mk 5 12 (by decide) (by decide)).barLength 0.0) := by
      decide +kernel
    have hcast := (Rat.cast_lt (K := ℝ)).mpr hfar
    simp only [← cast_exact]
    push_cast at hcast
    exact hcast

/-- Of the ratios that a clock computes with nothing is asked: its next multiples and its next bar are such in
any case. -/
theorem Conductor.isNextMultiple_ratios {σ β : Type} (beat period : Float) (hbeat : beat.isFinite = true)
    (hperiod : period.isFinite = true) (hpos : 0.0 < period)
    (h : (Grid.exactAfter? .ratios beat period).isSome = true ∨ Grid.Within (value beat) (value period)) :
    IsNextMultiple .ratios beat period (Grid.next beat period 0.0) ∧
    ∀ c : Conductor σ β, c.now.isFinite = true →
      (Grid.exactAfter? .ratios c.now c.playhead.barLength).isSome = true ∨
          |value c.now| ≤ (2 : ℝ) ^ (46 : ℤ) * value c.playhead.barLength →
        IsNextMultiple .ratios c.now c.playhead.barLength c.nextBar := by
  refine ⟨?_, fun c hnow hbars => ?_⟩
  · have hexact := Grid.answersWithin_ratios hbeat hperiod (value_pos hperiod hpos)
    exact Grid.isNextMultiple_multipleAfter hexact hbeat hperiod hpos h
  · obtain ⟨hfinite, hbarpos, -⟩ := c.playhead.meter.barLength_bounds
    exact c.playhead.isNextMultiple_nextBar (Grid.answersWithin_ratios hnow hfinite hbarpos) hnow hbars

end Cadence
