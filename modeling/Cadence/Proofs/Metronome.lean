import Mathlib
import Cadence.Program.Setup
import Cadence.Proofs.Bar
import Cadence.Proofs.Number.Count
import Cadence.Proofs.Number.Remainder
import Cadence.Proofs.Timeline

/-!
# What the metronome counts

A click logs the position within the bar, and behind it the numerator of the meter. The position counts quarter
notes, of which a bar has `4 * numerator / denominator`; the numerator counts notes of the meter. So the position
can go beyond the numerator, and it depends on the denominator alone whether it ever does.

- `Program.counted_iff`: the position is within the numerator exactly if fewer quarter notes have passed of the bar;
- `Program.clicks_counted`: so it always is in notes shorter than quarter notes, from the origin on in quarter
  notes, and not in longer ones when as many quarter notes have passed as the numerator says.
-/

namespace Cadence

open Number

namespace Program

/-- The position that a click logs is one of those that the numerator beside it counts. -/
def Counted (p : Playhead) : Prop := 1 ≤ position p ∧ position p ≤ p.meter.numerator

instance (p : Playhead) : Decidable (Counted p) := inferInstanceAs (Decidable (_ ∧ _))

/-- One more than a whole part, in 32 bits, is within the numerator exactly if the whole part is below it. One
more than the largest whole part is zero, which is not within. -/
theorem within_iff_lt {whole : ℕ} {n : UInt32} (hn : 0 < n.toNat) :
    (1 ≤ UInt32.ofNat (min whole (UInt32.size - 1)) + 1 ∧ UInt32.ofNat (min whole (UInt32.size - 1)) + 1 ≤ n) ↔
      whole < n.toNat := by
  have hlt := n.toNat_lt
  have hwhole : (UInt32.ofNat (min whole (UInt32.size - 1))).toNat = min whole (UInt32.size - 1) :=
    UInt32.toNat_ofNat_of_lt' ((min_le_right _ _).trans_lt (by decide))
  rw [UInt32.le_iff_toNat_le, UInt32.le_iff_toNat_le, UInt32.toNat_add, hwhole]
  simp only [UInt32.toNat_one, UInt32.size]
  omega

/-- The position is within the numerator exactly if fewer quarter notes have passed of the bar. -/
theorem counted_iff {p : Playhead} (hnow : p.now.isFinite = true) :
    Counted p ↔ value (cycleRemainder p.now p.barLength) < p.meter.numerator.toNat := by
  obtain ⟨hbar, hbarpos, -⟩ := p.meter.barLength_bounds
  obtain ⟨hfinite, hposition⟩ := isPosition_cycleRemainder hnow hbar hbarpos
  unfold Counted position
  rw [Playhead.barLength, wholeBelow_eq hfinite hposition.nonneg, within_iff_lt p.meter.numerator_pos]
  exact Nat.floor_lt hposition.nonneg

/-- A clock that reads a beat in a meter. -/
def clockAt (meter : Meter) (beat : Float) : Clock where
  playhead := { time := ⟨0⟩, timeline := { bpm := 120.0, startedAt := 0, origin := beat }, meter }
  queue := .empty
  points := .empty
  follower := ⟨{}, Offline.mk, none⟩
  audience := .empty
  log := []
  driver := none

theorem now_clockAt (meter : Meter) {beat : Float} (hbeat : beat.isFinite = true) :
    (clockAt meter beat).now.isFinite = true ∧ value (clockAt meter beat).now = value beat := by
  have hbpm : isPositive 120.0 = true := by decide +kernel
  obtain ⟨hzero, hzerovalue⟩ := Timeline.beatsIn_zero 0 hbpm
  obtain ⟨hplace, hnan⟩ := place_add_zero (isNaN_of_isFinite hbeat) hzero hzerovalue
  rw [place_eq_value hbeat] at hplace
  exact isFinite_of_place hnan hplace

/-- In no meter of quarter notes or longer ones is the position within the numerator just before the origin. -/
theorem not_counted_before_origin {meter : Meter} (hd : meter.denominator.toNat ≤ 4) {beat : Float}
    (hbeat : beat.isFinite = true) (hneg : value beat < 0)
    (htiny : -value beat < (2 : ℝ) ^ (-53 : ℤ) / 2) : ¬ Counted (clockAt meter beat).playhead := by
  obtain ⟨hnow, hvalue⟩ := now_clockAt meter hbeat
  obtain ⟨hbar, hbarpos, -⟩ := meter.barLength_bounds
  obtain ⟨-, hposition⟩ := isPosition_cycleRemainder hnow hbar hbarpos
  have hle := Meter.le_value_barLength hd
  have hone : (1 : ℝ) ≤ meter.numerator.toNat := by exact_mod_cast meter.numerator_pos
  have hsmall : (2 : ℝ) ^ (-53 : ℤ) / 2 ≤ 1 := by norm_num
  rw [counted_iff hnow, not_lt]
  -- The length of the bar is added to what lacks to the origin, and that much is rounded up.
  calc (meter.numerator.toNat : ℝ)
      ≤ nearestSigned (meter.numerator.toNat - -value beat) :=
        natCast_le_nearestSigned_sub meter.numerator_pos meter.numerator.toNat_lt (by linarith) htiny
    _ ≤ nearestSigned (value (clockAt meter beat).now + value meter.barLength) :=
        nearestSigned_mono (by linarith)
    _ = value (cycleRemainder (clockAt meter beat).now meter.barLength) :=
        (hposition.below (by linarith) (by linarith)).symm

/-- In no meter of longer notes is it when as many quarter notes have passed as the numerator says. -/
theorem not_counted_at_numerator {meter : Meter} (hd : meter.denominator.toNat < 4) :
    ¬ Counted (clockAt meter meter.numerator.toFloat).playhead := by
  obtain ⟨hbeat, hbeatvalue⟩ := Meter.value_toFloat meter.numerator
  obtain ⟨hnow, hvalue⟩ := now_clockAt meter hbeat
  obtain ⟨hbar, hbarpos, -⟩ := meter.barLength_bounds
  rw [hbeatvalue] at hvalue
  have hposition := value_cycleRemainder_of_lt hnow hbar (hvalue ▸ Nat.cast_nonneg _)
    (hvalue ▸ Meter.lt_value_barLength hd)
  rw [counted_iff hnow, not_lt]
  exact (hposition.trans hvalue).ge

/-- What the click of a clock comes to. -/
structure ClickCounted (c : Clock) : Prop where
  /-- It logs the position and the numerator. -/
  said : perform .click (c, ()) =
    (.ok (), (c.say .info s!"tick {position c.playhead}/{c.playhead.meter.numerator}", ()))
  /-- The position is within the numerator exactly if fewer quarter notes have passed of the bar. -/
  counted_iff_lt : Counted c.playhead ↔
    cycleRemainder c.now c.playhead.barLength < c.playhead.meter.numerator.toFloat
  /-- So it always is in notes that are shorter than quarter notes. -/
  shorter : 4 < c.playhead.meter.denominator → Counted c.playhead
  /-- In quarter notes it is from the origin on. -/
  quarter : c.playhead.meter.denominator = 4 → 0.0 ≤ c.now → Counted c.playhead
  /-- In longer notes it is not even there. -/
  longer : c.playhead.meter.denominator < 4 →
    ¬ Counted (clockAt c.playhead.meter c.playhead.meter.numerator.toFloat).playhead
  /-- Before the origin it is not always, except in shorter ones. -/
  before_origin : c.playhead.meter.denominator ≤ 4 →
    ∃ beat : Float, beat.isFinite = true ∧ beat < 0.0 ∧ ¬ Counted (clockAt c.playhead.meter beat).playhead

/-- What a click logs is within the meter at every finite beat exactly in the meters of notes that are shorter
than quarter notes. -/
theorem clicks_counted (c : Clock) (hnow : c.now.isFinite = true) : ClickCounted c := by
  obtain ⟨hbar, hbarpos, -⟩ := c.playhead.meter.barLength_bounds
  obtain ⟨hfinite, hposition⟩ := isPosition_cycleRemainder hnow hbar hbarpos
  obtain ⟨hnum, hnumvalue⟩ := Meter.value_toFloat c.playhead.meter.numerator
  refine ⟨rfl, ?_, fun hd => ?_, fun hd horigin => ?_, fun hd => ?_, fun hd => ?_⟩
  · rw [counted_iff hnow, ← hnumvalue]
    exact (lt_iff_value hfinite hnum).symm
  · rw [counted_iff hnow]
    exact hposition.le.trans_lt (Meter.value_barLength_lt (UInt32.lt_iff_toNat_lt.mp hd))
  · rw [le_iff_value rfl hnow, value_zero] at horigin
    rw [counted_iff hnow]
    exact (hposition.lt horigin).trans_le (Meter.value_barLength_le (by rw [hd]; rfl))
  · exact not_counted_at_numerator (UInt32.lt_iff_toNat_lt.mp hd)
  · obtain ⟨hbeat, hexact⟩ : (-8.673617379884035e-19 : Float).isFinite = true ∧
        exact (-8.673617379884035e-19) = -(2 : ℚ) ^ (-60 : ℤ) := by decide +kernel
    have hvalue : value (-8.673617379884035e-19) = -(2 : ℝ) ^ (-60 : ℤ) := by
      rw [← cast_exact, hexact]
      push_cast
      rfl
    have hneg : value (-8.673617379884035e-19) < 0 := by
      rw [hvalue]
      norm_num
    refine ⟨-8.673617379884035e-19, hbeat, (lt_iff_value hbeat rfl).mpr (by rwa [value_zero]),
      not_counted_before_origin (UInt32.le_iff_toNat_le.mp hd) hbeat hneg ?_⟩
    rw [hvalue]
    norm_num

/-- At beat 10.25 in 7/8 the third bar is 3.25 quarter notes old. -/
theorem click_in_seven_eighths : position (clockAt ⟨7, 8, by decide, by decide⟩ 10.25).playhead = 4 ∧
    Counted (clockAt ⟨7, 8, by decide, by decide⟩ 10.25).playhead :=
  ⟨by decide +kernel,
    (clicks_counted (clockAt ⟨7, 8, by decide, by decide⟩ 10.25) (by decide +kernel)).shorter (by decide)⟩

/-- The program that is asked for a metronome in 1/1 counts a second note at beat 1. -/
theorem click_beyond_whole_note :
    ((begin { metronome := true } { clock := { meter := ⟨1, 1, by decide, by decide⟩ } } ⟨0⟩).toOption.any fun c =>
      let due := c.moveTime (·.moveTo 500000)
      due.now.isFinite && (tick due).log.contains (Log.say .info "tick 2/1") &&
        decide (¬ Counted due.playhead)) = true := by
  decide +kernel

end Program

end Cadence
