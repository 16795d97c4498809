import Mathlib
import Cadence.Grid
import Cadence.Proofs.Number.Fractions

/-!
# The line after a beat, by way of fractions

Operations on fractions are exact or have no answer. So the line that is found with them is the next line of
the grid of the decimal that the period is taken for, and not an approximation, also for a beat that is on a
line.

- `isLineAfter_floor`: the whole periods up to a position and one more lead to the next line, and there is no
  other one within a period;
- `meaning_lineAfter?`: the line in fractions, and `exactAfter?_eq_some_iff`: when a number is made of it;
- `line_found_by_fractions`: all of it for two numbers;
- `lineAfter?_ratios_isSome_iff`: ratios of 64-bit counts lead to it exactly if nothing on the way is too large.
-/

namespace Cadence

open Number

namespace Grid

/-- A line of the grid of a period is the next one after a position. -/
structure IsLineAfter (position period line : ℚ) : Prop where
  /-- It is a whole number of periods from zero. -/
  multiple : ∃ n : ℤ, line = n * period
  /-- It is strictly after the position. -/
  after : position < line
  /-- It is at most a period after it. -/
  within : line ≤ position + period
  /-- There is no other such line. -/
  unique : ∀ n : ℤ, position < n * period → n * period ≤ position + period → n * period = line

/-- One more than the whole periods up to a position leads to the next line. -/
theorem isLineAfter_floor {position period : ℚ} (hperiod : 0 < period) :
    IsLineAfter position period ((⌊position / period⌋ + 1) * period) := by
  have hlow := (le_div_iff₀ hperiod).mp (Int.floor_le (position / period))
  have hhigh := (div_lt_iff₀ hperiod).mp (Int.lt_floor_add_one (position / period))
  refine ⟨⟨⌊position / period⌋ + 1, by push_cast; rfl⟩, hhigh, by linarith, fun n hafter hwithin => ?_⟩
  -- A multiple that is in the same half-open interval of one period is the same one.
  have hbelow : (n : ℚ) * period < (⌊position / period⌋ + 2) * period := by linarith
  have habove : (⌊position / period⌋ : ℚ) * period < n * period := hlow.trans_lt hafter
  have hn : n < ⌊position / period⌋ + 2 := by exact_mod_cast lt_of_mul_lt_mul_right hbelow hperiod.le
  have hn' : ⌊position / period⌋ < n := by exact_mod_cast lt_of_mul_lt_mul_right habove hperiod.le
  obtain rfl : n = ⌊position / period⌋ + 1 := by omega
  push_cast
  rfl

section Fractions

variable {F : Fractions} {meaning : F.Carrier → Quantity} {a b c : F.Carrier} {p q : ℚ} {beat period : Float}

theorem lineAfter?_eq_some_iff : lineAfter? F a b = some c ↔
    ∃ quotient, F.div? a b = some quotient ∧ ∃ steps, F.add? (F.floor quotient) F.one = some steps ∧
      F.mul? steps b = some c := by
  simp only [lineAfter?, Option.bind_eq_bind, Option.bind_eq_some_iff]

/-- By way of fractions the line is exact. -/
theorem meaning_lineAfter? (hF : F.Exact meaning) (ha : meaning a = .rational p) (hb : meaning b = .rational q)
    (hq : q ≠ 0) (h : lineAfter? F a b = some c) : meaning c = .rational ((⌊p / q⌋ + 1) * q) := by
  obtain ⟨quotient, hquotient, steps, hsteps, hproduct⟩ := lineAfter?_eq_some_iff.mp h
  exact hF.mul? (hF.add? (hF.floor (hF.div? ha hb hq hquotient)) hF.one hsteps) hb hproduct

/-- There is none after nothing, and none of a period that is nothing. -/
theorem lineAfter?_undefined (hF : F.Lawful meaning) (hab : meaning a = .undefined ∨ meaning b = .undefined)
    (h : lineAfter? F a b = some c) : meaning c = .undefined := by
  obtain ⟨quotient, hquotient, steps, hsteps, hproduct⟩ := lineAfter?_eq_some_iff.mp h
  exact hF.mul?_undefined (hF.add?_undefined (hF.floor_undefined (hF.div?_undefined hab hquotient)) hsteps)
    hproduct

theorem exactAfter?_eq_some_iff {next : Float} : exactAfter? F beat period = some next ↔
    ¬ beat < 0.0 ∧ ∃ target, lineAfter? F (F.ofFloat beat) (F.ofFloat period) = some target ∧
      F.toFloat? target = some next ∧ next.isFinite = true ∧ beat < next := by
  unfold exactAfter?
  split_ifs with hnegative
  · simp [hnegative]
  · simp only [Option.bind_eq_bind, Option.bind_eq_some_iff, hnegative, not_false_eq_true, true_and]
    constructor
    · rintro ⟨target, hline, number, hnumber, h⟩
      split_ifs at h with hafter
      cases h
      rw [Bool.and_eq_true, decide_eq_true_eq] at hafter
      exact ⟨target, hline, hnumber, hafter⟩
    · rintro ⟨target, hline, hnumber, hfinite, hafter⟩
      refine ⟨target, hline, next, hnumber, ?_⟩
      rw [hfinite, decide_eq_true hafter]
      rfl

/-- What is found by way of fractions of the line after a beat. -/
structure LineFound (F : Fractions) (meaning : F.Carrier → Quantity) (beat period : Float) : Prop where
  /-- Unless something on the way is too large, it is the line after the decimal of the beat, of the grid of
  the decimal of the period. -/
  line : ∀ target, lineAfter? F (F.ofFloat beat) (F.ofFloat period) = some target →
    ∃ line, meaning target = .rational line ∧ IsLineAfter (decimal beat) (decimal period) line
  /-- An answer is a finite number after the beat, and it is made of that line. -/
  answer : ∀ next, exactAfter? F beat period = some next → next.isFinite = true ∧ beat < next ∧
    ∃ target line, F.toFloat? target = some next ∧ meaning target = .rational line ∧
      IsLineAfter (decimal beat) (decimal period) line

end Fractions

end Grid

/-- Let operations on fractions be exact or have no answer, and let there be fractions for a beat and a period:
their shortest decimals. Unless something on the way is too large, the line that is found is the one multiple of
the period that is after the beat by a period at most. What is answered is a finite number after the beat. -/
theorem line_found_by_fractions (F : Fractions) {meaning : F.Carrier → Quantity} (hF : F.Exact meaning)
    (beat period : Float) (hbeat : 0.0 ≤ beat) (hfinite : period.isFinite = true) (hperiod : 0.0 < period)
    (hposition : F.Reads meaning beat) (hstep : F.Reads meaning period)
    (hbeatfits : meaning (F.ofFloat beat) ≠ .undefined)
    (hperiodfits : meaning (F.ofFloat period) ≠ .undefined) :
    Grid.LineFound F meaning beat period := by
  have hpos := value_pos hfinite hperiod
  have hnonneg : 0.0 ≤ period := (le_iff_value rfl hfinite).mpr (value_zero ▸ hpos.le)
  have hdecimal := decimal_pos hfinite hpos
  have hline : ∀ target, Grid.lineAfter? F (F.ofFloat beat) (F.ofFloat period) = some target →
      ∃ line, meaning target = .rational line ∧ Grid.IsLineAfter (decimal beat) (decimal period) line := by
    intro target htarget
    have ha := (hposition hbeat).resolve_right hbeatfits
    have hb := (hstep hnonneg).resolve_right hperiodfits
    exact ⟨_, Grid.meaning_lineAfter? hF ha hb hdecimal.ne' htarget, Grid.isLineAfter_floor hdecimal⟩
  refine ⟨hline, fun next h => ?_⟩
  obtain ⟨-, target, htarget, hnumber, hnext, hafter⟩ := Grid.exactAfter?_eq_some_iff.mp h
  obtain ⟨line, hmeaning, hisline⟩ := hline target htarget
  exact ⟨hnext, hafter, target, line, hnumber, hmeaning, hisline⟩

/-- A beat of 3.3 is on a line of the grid of 1.1, and the line after it is at 4.4. -/
theorem line_after_line :
    decimal 3.3 = 33 / 10 ∧ decimal 1.1 = 11 / 10 ∧ Grid.IsLineAfter (33 / 10) (11 / 10) (22 / 5) ∧
      Grid.exactAfter? .ratios 3.3 1.1 = some 4.4 ∧ (4.4 : Float).isFinite = true ∧ (3.3 : Float) < 4.4 := by
  obtain ⟨hbeat, hperiod⟩ : decimal 3.3 = 33 / 10 ∧ decimal 1.1 = 11 / 10 := by decide +kernel
  have hline : Grid.lineAfter? .ratios (Fractions.ratios.ofFloat 3.3) (Fractions.ratios.ofFloat 1.1) =
      some (some ⟨22, 5, by decide, by decide, by decide⟩) := by decide +kernel
  have hsome : Grid.exactAfter? .ratios 3.3 1.1 = some 4.4 := by decide +kernel
  obtain ⟨hfound, hanswer⟩ := line_found_by_fractions .ratios Ratio.exact 3.3 1.1 (by decide +kernel)
    (by decide +kernel) (by decide +kernel) (by decide +kernel) (by decide +kernel) (by decide +kernel)
    (by decide +kernel)
  obtain ⟨line, hmeaning, hafter⟩ := hfound _ hline
  rw [hbeat, hperiod] at hafter
  have hrational : line = 22 / 5 := by
    rw [← Quantity.rational.inj hmeaning]
    norm_num [Ratio.rational]
  obtain ⟨hfinite, hlt, -⟩ := hanswer _ hsome
  exact ⟨hbeat, hperiod, hrational ▸ hafter, hsome, hfinite, hlt⟩

/-! ## By way of ratios -/

namespace Grid

/-- Nothing on the way to the next line is too large for 64 bits. -/
structure LineFits (position period : ℚ) : Prop where
  /-- There is a period. -/
  period_ne_zero : period ≠ 0
  /-- The position fits in units of the period. -/
  quotient : Expressible (position / period)
  /-- So does the number of the line. -/
  steps : Expressible (⌊position / period⌋ + 1)
  /-- And so does the line. -/
  line : Expressible ((⌊position / period⌋ + 1) * period)

/-- Ratios lead to the next line exactly if nothing on the way is too large. -/
theorem lineAfter?_ratios_isSome_iff (a b : Ratio) :
    (lineAfter? .ratios (some a) (some b)).isSome = true ↔ LineFits a.rational b.rational := by
  have hone : (Ratio.ofCount 1 (by decide)).rational = 1 := by rw [Ratio.rational_ofCount, Nat.cast_one]
  -- One operation after the other has an answer.
  have hsome : (lineAfter? .ratios (some a) (some b)).isSome = true ↔
      ∃ quotient, a.div? b = some quotient ∧
        ∃ steps, quotient.floor.add? (.ofCount 1 (by decide)) = some steps ∧ (steps.mul? b).isSome = true := by
    cases hquotient : a.div? b with
    | none => simp [lineAfter?, hquotient]
    | some quotient =>
      cases hsteps : quotient.floor.add? (.ofCount 1 (by decide)) with
      | none => simp [lineAfter?, hquotient, hsteps]
      | some steps => cases hproduct : steps.mul? b <;> simp [lineAfter?, hquotient, hsteps, hproduct]
  rw [hsome]
  constructor
  · rintro ⟨quotient, hquotient, steps, hsteps, hproduct⟩
    obtain ⟨hzero, hfits⟩ := Ratio.div?_isSome_iff.mp (Option.isSome_of_eq_some hquotient)
    have hsum := Ratio.add?_isSome_iff.mp (Option.isSome_of_eq_some hsteps)
    have hline := Ratio.mul?_isSome_iff.mp hproduct
    rw [Ratio.rational_add? hsteps] at hline
    rw [Ratio.rational_floor, Ratio.rational_div? hquotient, hone] at hsum hline
    exact ⟨hzero, hfits, hsum, hline⟩
  · rintro ⟨hzero, hfits, hsum, hline⟩
    obtain ⟨quotient, hquotient⟩ := Option.isSome_iff_exists.mp (Ratio.div?_isSome_iff.mpr ⟨hzero, hfits⟩)
    have hfloor : (⌊a.rational / b.rational⌋ + 1 : ℚ) =
        quotient.floor.rational + (Ratio.ofCount 1 (by decide)).rational := by
      rw [Ratio.rational_floor, Ratio.rational_div? hquotient, hone]
    rw [hfloor] at hsum hline
    obtain ⟨steps, hsteps⟩ := Option.isSome_iff_exists.mp (Ratio.add?_isSome_iff.mpr hsum)
    rw [← Ratio.rational_add? hsteps] at hline
    exact ⟨quotient, hquotient, steps, hsteps, Ratio.mul?_isSome_iff.mpr hline⟩

end Grid

end Cadence
