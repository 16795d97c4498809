import Mathlib
import Cadence.Proofs.Number.Count
import Cadence.Proofs.Run.Program
import Cadence.Proofs.Timeline

/-!
# The date on which a beat falls

The moment at which a beat is reached is a real number, and a date is a whole microsecond. The date of a beat
is the one that is nearest to the moment, and not the first one on which the beat is reached: where it is
rounded down, the timeline does not yet read the beat on it. A clock that waits for the date of the head of its
queue then finds nothing due, and has to wait for the microsecond after it.

- `Timeline.moment`, `Timeline.slack`: the moment of a beat, and what all rounding adds up to;
- `Timeline.Resolves.date_error`, `Timeline.Resolves.reading_error`: the way to dates and the way back;
- `Timeline.FallsOn`: what the date of a beat has to do with the beat;
- `beat_falls_on_nearest_date`: every beat falls on its date, and when the head of the queue is due.
-/

namespace Cadence

open Number

namespace Timeline

variable {t : Timeline Float} {beat : Float}

/-! ## The moment of a beat -/

/-- The beats that pass in a microsecond. -/
noncomputable def pace (t : Timeline Float) : ℝ := value t.bpm / 60000000

/-- The moment at which a beat is reached, in microseconds and without any rounding. -/
noncomputable def moment (t : Timeline Float) (beat : Float) : ℝ :=
  t.startedAt.toNat + (value beat - value t.origin) / t.pace

/-- What rounding adds up to, in microseconds, on the way to the date of a beat and back. -/
noncomputable def slack (t : Timeline Float) (beat : Float) : ℝ :=
  20 * roundoff * (t.moment beat + t.startedAt.toNat + |value t.origin| / t.pace + 1)

/-- At a beat that is not before time zero, numbers are fine enough to tell microseconds apart. -/
structure Resolves (t : Timeline Float) (beat : Float) : Prop where
  /-- The tempo is one. -/
  tempo : isPositive t.bpm = true
  /-- It is not so low that the beats that pass in a microsecond vanish. -/
  slow : (2 : ℝ) ^ (-900 : ℤ) ≤ value t.bpm
  /-- It is not so high that the beats that pass overflow. -/
  fast : value t.bpm ≤ (2 : ℝ) ^ (900 : ℤ)
  /-- The anchor is at a finite beat. -/
  origin : t.origin.isFinite = true
  /-- The beat is finite. -/
  target : beat.isFinite = true
  /-- It is not before time zero. -/
  nonneg : 0 ≤ t.moment beat
  /-- Rounding is at most a quarter of a microsecond. -/
  fine : t.slack beat ≤ 1 / 4

namespace Resolves

/-! ## Room for the results -/

theorem pace_pos (h : t.Resolves beat) : 0 < t.pace := by
  have hpos := lt_of_lt_of_le (by positivity) h.slow
  unfold pace
  positivity

/-- All dates and distances are far below what 53 bits hold. -/
theorem size (h : t.Resolves beat) :
    t.moment beat + t.startedAt.toNat + |value t.origin| / t.pace + 1 ≤ (2 : ℝ) ^ (47 : ℤ) := by
  have hfine := h.fine
  unfold slack roundoff at hfine
  norm_num at hfine ⊢
  linarith

theorem startedAt_le (h : t.Resolves beat) : (t.startedAt.toNat : ℝ) ≤ (2 : ℝ) ^ (47 : ℤ) := by
  have horigin : 0 ≤ |value t.origin| / t.pace := div_nonneg (abs_nonneg _) h.pace_pos.le
  linarith [h.size, h.nonneg]

theorem moment_le (h : t.Resolves beat) : t.moment beat ≤ (2 : ℝ) ^ (47 : ℤ) := by
  have horigin : 0 ≤ |value t.origin| / t.pace := div_nonneg (abs_nonneg _) h.pace_pos.le
  linarith [h.size, Nat.cast_nonneg (α := ℝ) t.startedAt.toNat]

theorem startedAt_lt (h : t.Resolves beat) : t.startedAt.toNat < 2 ^ 53 := by
  have hlt : (2 : ℝ) ^ (47 : ℤ) < (2 : ℝ) ^ 53 := by norm_num
  exact_mod_cast h.startedAt_le.trans_lt hlt

/-- The time from the anchor to the beat. -/
theorem abs_offset_le (h : t.Resolves beat) :
    |(value beat - value t.origin) / t.pace| ≤ t.moment beat + t.startedAt.toNat := by
  have hoffset : (value beat - value t.origin) / t.pace = t.moment beat - t.startedAt.toNat := by
    unfold moment
    ring
  have hstart : (0 : ℝ) ≤ t.startedAt.toNat := Nat.cast_nonneg _
  rw [hoffset, abs_le]
  constructor <;> linarith [h.nonneg]

theorem pace_le (h : t.Resolves beat) : t.pace ≤ (2 : ℝ) ^ (900 : ℤ) := by
  unfold pace
  rw [div_le_iff₀ (by norm_num)]
  exact h.fast.trans (le_mul_of_one_le_right (by positivity) (by norm_num))

theorem le_pace (h : t.Resolves beat) : (2 : ℝ) ^ (-926 : ℤ) ≤ t.pace := by
  unfold pace
  rw [le_div_iff₀ (by norm_num)]
  calc (2 : ℝ) ^ (-926 : ℤ) * 60000000 ≤ (2 : ℝ) ^ (-926 : ℤ) * (2 : ℝ) ^ (26 : ℤ) := by
        gcongr
        norm_num
    _ = (2 : ℝ) ^ (-900 : ℤ) := by rw [← zpow_add₀ two_ne_zero]; norm_num
    _ ≤ value t.bpm := h.slow

theorem abs_origin_le (h : t.Resolves beat) : |value t.origin| ≤ (2 : ℝ) ^ (1000 : ℤ) := by
  have hpace := h.pace_pos
  have horigin : |value t.origin| / t.pace ≤ (2 : ℝ) ^ (47 : ℤ) := by
    linarith [h.size, h.nonneg, Nat.cast_nonneg (α := ℝ) t.startedAt.toNat]
  rw [div_le_iff₀ hpace] at horigin
  calc |value t.origin| ≤ (2 : ℝ) ^ (47 : ℤ) * t.pace := horigin
    _ ≤ (2 : ℝ) ^ (47 : ℤ) * (2 : ℝ) ^ (900 : ℤ) := by
      gcongr
      exact h.pace_le
    _ = (2 : ℝ) ^ (947 : ℤ) := by rw [← zpow_add₀ two_ne_zero]; norm_num
    _ ≤ (2 : ℝ) ^ (1000 : ℤ) := zpow_le_zpow_right₀ (by norm_num) (by norm_num)

theorem abs_distance_le (h : t.Resolves beat) : |value beat - value t.origin| ≤ (2 : ℝ) ^ (947 : ℤ) := by
  have hpace := h.pace_pos
  have hoffset := h.abs_offset_le
  have hsize := h.size
  have horigin : 0 ≤ |value t.origin| / t.pace := div_nonneg (abs_nonneg _) hpace.le
  rw [abs_div, abs_of_pos hpace, div_le_iff₀ hpace] at hoffset
  have hfast := h.pace_le
  calc |value beat - value t.origin| ≤ (t.moment beat + t.startedAt.toNat) * t.pace := hoffset
    _ ≤ (2 : ℝ) ^ (47 : ℤ) * (2 : ℝ) ^ (900 : ℤ) := by
      gcongr
      linarith
    _ = (2 : ℝ) ^ (947 : ℤ) := by rw [← zpow_add₀ two_ne_zero]; norm_num

/-- Nothing comes near to the largest numbers. -/
theorem offset_le (h : t.Resolves beat) : |(value beat - value t.origin) / t.pace| ≤ (2 : ℝ) ^ (47 : ℤ) := by
  have horigin : 0 ≤ |value t.origin| / t.pace := div_nonneg (abs_nonneg _) h.pace_pos.le
  linarith [h.abs_offset_le, h.size]

/-! ## From a beat to its date -/

/-- The time from the anchor to a beat, as it is computed. -/
theorem offset_error (h : t.Resolves beat) :
    ((beat - t.origin) * microsPerMinute / t.bpm).isFinite = true ∧
      |value ((beat - t.origin) * microsPerMinute / t.bpm) - (value beat - value t.origin) / t.pace| ≤
        5 * roundoff * |(value beat - value t.origin) / t.pace| + (2 : ℝ) ^ (-1075 : ℤ) := by
  obtain ⟨hbpm, hbpmpos⟩ := value_pos_of_isPositive h.tempo
  obtain ⟨hminute, -⟩ := value_pos_of_isPositive isPositive_microsPerMinute
  obtain ⟨hdiff, hdifferror⟩ := value_sub_error h.target h.origin
    (inRange_of_abs_le (by norm_num) h.abs_distance_le)
  -- The difference of the beats, and the same in microseconds.
  have hoff := error_div hdifferror t.pace
  have hunits : value (beat - t.origin) * value (microsPerMinute : Float) / value t.bpm =
      value (beat - t.origin) / t.pace := by
    rw [value_microsPerMinute, pace, div_div_eq_mul_div]
  have hgrid : OnLeastGrid (value (beat - t.origin) * value (microsPerMinute : Float)) := by
    rw [value_microsPerMinute, mul_comm]
    exact_mod_cast onLeastGrid_value.intCast_mul 60000000
  have hproductle : |value (beat - t.origin) * value (microsPerMinute : Float)| ≤ (2 : ℝ) ^ (1000 : ℤ) := by
    rw [value_microsPerMinute, abs_mul, abs_of_pos (by norm_num : (0 : ℝ) < 60000000)]
    calc |value (beat - t.origin)| * 60000000 ≤ (2 * (2 : ℝ) ^ (947 : ℤ)) * (2 : ℝ) ^ (26 : ℤ) := by
          gcongr
          · exact (abs_le_two_mul_of_error hdifferror).trans
              (mul_le_mul_of_nonneg_left h.abs_distance_le zero_le_two)
          · norm_num
      _ = (2 : ℝ) ^ (974 : ℤ) := by
        rw [← zpow_one_add₀ two_ne_zero, ← zpow_add₀ two_ne_zero]
        norm_num
      _ ≤ (2 : ℝ) ^ (1000 : ℤ) := zpow_le_zpow_right₀ (by norm_num) (by norm_num)
  have hquotientle : |value (beat - t.origin) / t.pace| ≤ (2 : ℝ) ^ (1000 : ℤ) := by
    calc |value (beat - t.origin) / t.pace| ≤ 2 * (2 : ℝ) ^ (47 : ℤ) :=
          (abs_le_two_mul_of_error hoff).trans (mul_le_mul_of_nonneg_left h.offset_le zero_le_two)
      _ = (2 : ℝ) ^ (48 : ℤ) := by norm_num
      _ ≤ (2 : ℝ) ^ (1000 : ℤ) := zpow_le_zpow_right₀ (by norm_num) (by norm_num)
  obtain ⟨hquotient, herror⟩ := value_mul_div_error hdiff hminute hbpm hbpmpos.ne' hgrid hproductle
    (hunits ▸ hquotientle)
  rw [hunits] at herror
  exact ⟨hquotient, error_trans hoff herror⟩

/-- The date of a beat before it is rounded to microseconds. -/
theorem date_error (h : t.Resolves beat) :
    (t.startedAt.toFloat + (beat - t.origin) * microsPerMinute / t.bpm).isFinite = true ∧
      |value (t.startedAt.toFloat + (beat - t.origin) * microsPerMinute / t.bpm) - t.moment beat| ≤
        t.slack beat := by
  obtain ⟨hoffset, herror⟩ := h.offset_error
  have hstart := value_toFloat_of_lt h.startedAt_lt
  have hwide : (2 : ℝ) ^ (47 : ℤ) ≤ (2 : ℝ) ^ (1000 : ℤ) := zpow_le_zpow_right₀ (by norm_num) (by norm_num)
  have hstartle : |value t.startedAt.toFloat| ≤ (2 : ℝ) ^ (1000 : ℤ) := by
    rw [hstart, Nat.abs_cast]
    exact h.startedAt_le.trans hwide
  obtain ⟨hfinite, hsum⟩ := value_add_error_of_error (isFinite_toFloat t.startedAt) hoffset hstartle
    (h.offset_le.trans hwide) herror
  refine ⟨hfinite, ?_⟩
  rw [hstart, Nat.abs_cast] at hsum
  change |_ - t.moment beat| ≤ _ at hsum
  have htiny : (2 : ℝ) ^ (-1074 : ℤ) ≤ roundoff := zpow_le_zpow_right₀ (by norm_num) (by norm_num)
  have hscaled := mul_le_mul_of_nonneg_left h.abs_offset_le roundoff_pos.le
  have horigin : 0 ≤ |value t.origin| / t.pace := div_nonneg (abs_nonneg _) h.pace_pos.le
  have hrest := mul_nonneg roundoff_pos.le horigin
  have hmoment := mul_nonneg roundoff_pos.le h.nonneg
  have hstart := mul_nonneg roundoff_pos.le (Nat.cast_nonneg (α := ℝ) t.startedAt.toNat)
  unfold slack
  linarith [roundoff_pos]

/-- A beat falls on the microsecond that is nearest to its moment, up to the slack. -/
theorem near (h : t.Resolves beat) : |(t.dateAt beat).toNat - t.moment beat| ≤ 1 / 2 + t.slack beat := by
  obtain ⟨hfinite, herror⟩ := h.date_error
  obtain ⟨hlarger, hmax⟩ := value_larger hfinite (show (0.0 : Float).isFinite = true from rfl)
  rw [value_zero] at hmax
  -- Clamping the date at time zero takes it no further away from a moment that is not before that.
  have hclamped := (abs_max_sub_max_le_abs _ (t.moment beat) 0).trans herror
  rw [max_eq_left h.nonneg, ← hmax] at hclamped
  have hmost := h.moment_le
  have hfine := h.fine
  have hcount := abs_roundToCount_sub_le hlarger (hmax ▸ le_max_right _ _) (by
    norm_num at hmost ⊢
    linarith [(abs_le.mp hclamped).2])
  exact (abs_sub_le _ _ _).trans (add_le_add hcount hclamped)

/-! ## From a date to its beat -/

theorem abs_elapsed_le (h : t.Resolves beat) {date : UInt64}
    (hdate : (date.toNat : ℝ) ≤ (2 : ℝ) ^ (48 : ℤ)) :
    |(date.toNat - t.startedAt.toNat : ℝ)| ≤ (2 : ℝ) ^ (48 : ℤ) := by
  have hstart := h.startedAt_le
  have hdate' := Nat.cast_nonneg (α := ℝ) date.toNat
  have hstart' := Nat.cast_nonneg (α := ℝ) t.startedAt.toNat
  have hwide : (2 : ℝ) ^ (47 : ℤ) ≤ (2 : ℝ) ^ (48 : ℤ) := zpow_le_zpow_right₀ (by norm_num) (by norm_num)
  rw [abs_le]
  constructor <;> linarith

theorem abs_elapsed_mul_le (h : t.Resolves beat) {date : UInt64}
    (hdate : (date.toNat : ℝ) ≤ (2 : ℝ) ^ (48 : ℤ)) {c : ℝ} (hc : 0 ≤ c) (hle : c ≤ (2 : ℝ) ^ (900 : ℤ)) :
    |(date.toNat - t.startedAt.toNat) * c| ≤ (2 : ℝ) ^ (1000 : ℤ) := by
  rw [abs_mul, abs_of_nonneg hc]
  calc |(date.toNat - t.startedAt.toNat : ℝ)| * c ≤ (2 : ℝ) ^ (48 : ℤ) * (2 : ℝ) ^ (900 : ℤ) := by
        gcongr
        exact h.abs_elapsed_le hdate
    _ = (2 : ℝ) ^ (948 : ℤ) := by rw [← zpow_add₀ two_ne_zero]; norm_num
    _ ≤ (2 : ℝ) ^ (1000 : ℤ) := zpow_le_zpow_right₀ (by norm_num) (by norm_num)

/-- The time since the anchor is exact. -/
theorem elapsed_eq (h : t.Resolves beat) {date : UInt64} (hdate : (date.toNat : ℝ) ≤ (2 : ℝ) ^ (48 : ℤ)) :
    (date.toFloat - t.startedAt.toFloat).isFinite = true ∧
      value (date.toFloat - t.startedAt.toFloat) = ((date.toNat - t.startedAt.toNat : ℤ) : ℝ) := by
  have hlt : date.toNat < 2 ^ 49 := by
    have hlt : (2 : ℝ) ^ (48 : ℤ) < (2 : ℝ) ^ 49 := by norm_num
    exact_mod_cast hdate.trans_lt hlt
  have hlt' := h.startedAt_lt
  obtain ⟨hplace, hnan⟩ := place_sub (isFinite_toFloat date) (isFinite_toFloat t.startedAt)
  rw [value_toFloat_of_lt (hlt.trans (by norm_num)), value_toFloat_of_lt hlt'] at hplace
  -- Both dates are whole numbers of fewer than fifty-three bits, and so is the difference.
  refine value_of_whole hnan (hplace.trans ?_) ?_
  · push_cast
    rfl
  · rw [abs_lt]
    constructor <;> omega

/-- The beat that is read on a date. -/
theorem reading_error (h : t.Resolves beat) {date : UInt64} (hdate : (date.toNat : ℝ) ≤ (2 : ℝ) ^ (48 : ℤ)) :
    (t.beatAt date).isFinite = true ∧
      |value (t.beatAt date) - (value beat + (date.toNat - t.moment beat) * t.pace)| ≤
        roundoff * |value t.origin| + 7 * roundoff * |(date.toNat - t.startedAt.toNat) * t.pace| +
          (2 : ℝ) ^ (-1074 : ℤ) := by
  obtain ⟨hbpm, hbpmpos⟩ := value_pos_of_isPositive h.tempo
  obtain ⟨hminute, hminutepos⟩ := value_pos_of_isPositive isPositive_microsPerMinute
  obtain ⟨helapsed, hvalue⟩ := h.elapsed_eq hdate
  have hunits : value (date.toFloat - t.startedAt.toFloat) * value t.bpm / value (microsPerMinute : Float) =
      (date.toNat - t.startedAt.toNat) * t.pace := by
    rw [hvalue, value_microsPerMinute, pace, mul_div_assoc]
    push_cast
    rfl
  have hproduct : |value (date.toFloat - t.startedAt.toFloat) * value t.bpm| ≤ (2 : ℝ) ^ (1000 : ℤ) := by
    rw [hvalue]
    push_cast
    exact h.abs_elapsed_mul_le hdate hbpmpos.le h.fast
  have hquotient := h.abs_elapsed_mul_le hdate h.pace_pos.le h.pace_le
  obtain ⟨hbeats, herror⟩ := value_mul_div_error helapsed hbpm hminute hminutepos.ne'
    (hvalue ▸ onLeastGrid_value.intCast_mul _) hproduct (hunits ▸ hquotient)
  rw [hunits] at herror
  have hrel := mul_nonneg roundoff_pos.le (abs_nonneg ((date.toNat - t.startedAt.toNat) * t.pace))
  obtain ⟨hfinite, hsum⟩ := value_add_error_of_error h.origin hbeats h.abs_origin_le hquotient (by linarith)
  have hline : value t.origin + (date.toNat - t.startedAt.toNat) * t.pace =
      value beat + (date.toNat - t.moment beat) * t.pace := by
    unfold moment
    rw [sub_add_eq_sub_sub, sub_mul (_ - _), div_mul_cancel₀ _ h.pace_pos.ne']
    ring
  exact ⟨hfinite, hline ▸ hsum⟩

/-- Near its moment the beat is read with less than the slack of error. -/
theorem reading_near (h : t.Resolves beat) {date : UInt64} (hdate : |date.toNat - t.moment beat| ≤ 2) :
    (t.beatAt date).isFinite = true ∧
      |value (t.beatAt date) - (value beat + (date.toNat - t.moment beat) * t.pace)| <
        t.slack beat * t.pace := by
  have hmoment := h.moment_le
  have hpace := h.pace_pos
  obtain ⟨hlow, hhigh⟩ := abs_le.mp hdate
  have hroom : (2 : ℝ) ^ (47 : ℤ) + 2 ≤ (2 : ℝ) ^ (48 : ℤ) := by norm_num
  obtain ⟨hfinite, herror⟩ := h.reading_error (show (date.toNat : ℝ) ≤ (2 : ℝ) ^ (48 : ℤ) by linarith)
  refine ⟨hfinite, herror.trans_lt ?_⟩
  have hstart := Nat.cast_nonneg (α := ℝ) t.startedAt.toNat
  have helapsed : |(date.toNat - t.startedAt.toNat : ℝ)| ≤ t.moment beat + t.startedAt.toNat + 2 := by
    rw [abs_le]
    constructor <;> linarith [h.nonneg]
  have htiny : (2 : ℝ) ^ (-1074 : ℤ) ≤ roundoff * t.pace := by
    calc (2 : ℝ) ^ (-1074 : ℤ) ≤ (2 : ℝ) ^ (-979 : ℤ) := zpow_le_zpow_right₀ (by norm_num) (by norm_num)
      _ = roundoff * (2 : ℝ) ^ (-926 : ℤ) := by
        rw [roundoff, ← zpow_add₀ two_ne_zero]
        norm_num
      _ ≤ roundoff * t.pace := by
        gcongr
        · exact roundoff_pos.le
        · exact h.le_pace
  have hscaled := mul_le_mul_of_nonneg_right helapsed (mul_nonneg roundoff_pos.le hpace.le)
  rw [abs_mul, abs_of_pos hpace]
  -- In beats, the slack leaves room for one rounding of the origin and seven of the beats that passed.
  have hslack : t.slack beat * t.pace = 20 * (roundoff * |value t.origin|) +
      20 * ((t.moment beat + t.startedAt.toNat + 1) * (roundoff * t.pace)) := by
    unfold slack
    field_simp
    ring
  have hrest := mul_nonneg roundoff_pos.le (abs_nonneg (value t.origin))
  have hmore : 0 ≤ (t.moment beat + t.startedAt.toNat) * (roundoff * t.pace) :=
    mul_nonneg (by linarith [h.nonneg]) (mul_nonneg roundoff_pos.le hpace.le)
  have hunit : 0 < roundoff * t.pace := mul_pos roundoff_pos hpace
  rw [hslack]
  linarith

/-- A date that is later than the moment by the slack reads the beat or a later one. -/
theorem le_beatAt (h : t.Resolves beat) {date : UInt64} (hdate : |date.toNat - t.moment beat| ≤ 2)
    (hlate : t.moment beat + t.slack beat ≤ date.toNat) : beat ≤ t.beatAt date := by
  obtain ⟨hfinite, herror⟩ := h.reading_near hdate
  have hahead := mul_le_mul_of_nonneg_right (le_sub_iff_add_le'.mpr hlate) h.pace_pos.le
  refine (le_iff_value h.target hfinite).mpr ?_
  linarith [(abs_lt.mp herror).1]

/-- One that is earlier by the slack reads an earlier beat. -/
theorem beatAt_lt (h : t.Resolves beat) {date : UInt64} (hdate : |date.toNat - t.moment beat| ≤ 2)
    (hearly : date.toNat + t.slack beat ≤ t.moment beat) : t.beatAt date < beat := by
  obtain ⟨hfinite, herror⟩ := h.reading_near hdate
  have hbehind := mul_le_mul_of_nonneg_right (le_sub_iff_add_le'.mpr hearly) h.pace_pos.le
  refine (lt_iff_value hfinite h.target).mpr ?_
  linarith [(abs_lt.mp herror).2]

end Resolves

/-! ## There and back -/

/-- A date is the microsecond on which a beat falls. -/
structure FallsOn (t : Timeline Float) (beat : Float) (date : UInt64) : Prop where
  /-- It is the nearest one to the moment at which the beat is reached. -/
  near : |date.toNat - t.moment beat| ≤ 1 / 2 + t.slack beat
  /-- Every earlier one reads an earlier beat. -/
  before : ∀ earlier < date, t.beatAt earlier < beat
  /-- Every later one reads the beat or a later one. -/
  after : ∀ later, date < later → beat ≤ t.beatAt later
  /-- So does the date itself if it is after the moment. -/
  reached : t.moment beat + t.slack beat ≤ date.toNat → beat ≤ t.beatAt date
  /-- If it is before the moment it reads an earlier beat, too. -/
  missed : date.toNat + t.slack beat ≤ t.moment beat → t.beatAt date < beat
  /-- If it is the moment, and both ways lead over numbers, it reads the beat. -/
  exact : (date.toNat : ℝ) = t.moment beat → value (beat - t.origin) = value beat - value t.origin →
    value ((date.toFloat - t.startedAt.toFloat) * t.bpm) = (date.toNat - t.startedAt.toNat) * value t.bpm →
    (t.beatAt date == beat) = true

namespace Resolves

/-- On a date that is the moment of a beat, the beat is read if nothing on the way to it is rounded. -/
theorem beatAt_beq (h : t.Resolves beat) {date : UInt64} (hdate : (date.toNat : ℝ) = t.moment beat)
    (hdistance : value (beat - t.origin) = value beat - value t.origin)
    (hproduct : value ((date.toFloat - t.startedAt.toFloat) * t.bpm) =
      (date.toNat - t.startedAt.toNat) * value t.bpm) : (t.beatAt date == beat) = true := by
  obtain ⟨hbpm, hbpmpos⟩ := value_pos_of_isPositive h.tempo
  obtain ⟨hminute, hminutepos⟩ := value_pos_of_isPositive isPositive_microsPerMinute
  have hmost : (date.toNat : ℝ) ≤ (2 : ℝ) ^ (48 : ℤ) :=
    hdate ▸ h.moment_le.trans (zpow_le_zpow_right₀ (by norm_num) (by norm_num))
  obtain ⟨helapsed, helapsedvalue⟩ := h.elapsed_eq hmost
  obtain ⟨hdiff, -⟩ := value_sub_error h.target h.origin (inRange_of_abs_le (by norm_num) h.abs_distance_le)
  have hin : InRange (value (date.toFloat - t.startedAt.toFloat) * value t.bpm) := by
    rw [helapsedvalue]
    push_cast
    exact inRange_of_abs_le (by norm_num) (h.abs_elapsed_mul_le hmost hbpmpos.le h.fast)
  have hfinite := (isFinite_mul_iff helapsed hbpm).mpr hin
  obtain ⟨hquotient, hquotientnan⟩ := place_div hfinite hminute hminutepos.ne'
  -- The exact quotient is a number already, so that dividing does not round either.
  have hbeats : value ((date.toFloat - t.startedAt.toFloat) * t.bpm) / value (microsPerMinute : Float) =
      value (beat - t.origin) := by
    have hoffset : (date.toNat - t.startedAt.toNat) * t.pace = value beat - value t.origin := by
      rw [hdate, moment, add_sub_cancel_left, div_mul_cancel₀ _ h.pace_pos.ne']
    rw [hproduct, hdistance, ← hoffset, value_microsPerMinute, pace, mul_div_assoc]
  rw [hbeats, rounded_value hdiff, place_eq_value hdiff] at hquotient
  obtain ⟨hpassed, hvalue⟩ := isFinite_of_place hquotientnan hquotient
  obtain ⟨hsum, hsumnan⟩ := place_add h.origin hpassed
  rw [hvalue, hdistance, add_sub_cancel, rounded_value h.target] at hsum
  exact beq_iff.mpr ⟨hsumnan, isNaN_of_isFinite h.target, hsum⟩

theorem isFinite_beatAt (h : t.Resolves beat) {date : UInt64} (hdate : (date.toNat : ℝ) ≤ (2 : ℝ) ^ (48 : ℤ)) :
    (t.beatAt date).isNaN = false ∧ place (t.beatAt date) ≠ ⊥ := by
  have hfinite := (h.reading_error hdate).1
  rw [place_eq_value hfinite]
  exact ⟨isNaN_of_isFinite hfinite, EReal.coe_ne_bot _⟩

theorem fallsOn_dateAt (h : t.Resolves beat) : t.FallsOn beat (t.dateAt beat) := by
  have hfine := h.fine
  obtain ⟨hlow, hhigh⟩ := abs_le.mp h.near
  have hmost := h.moment_le
  have hroom : (2 : ℝ) ^ (47 : ℤ) + 2 ≤ (2 : ℝ) ^ (48 : ℤ) := by norm_num
  have hwithin : |(t.dateAt beat).toNat - t.moment beat| ≤ 2 := h.near.trans (by linarith)
  refine ⟨h.near, fun earlier hearlier => ?_, fun later hlater => ?_, h.le_beatAt hwithin, h.beatAt_lt hwithin,
    h.beatAt_beq⟩
  · -- The last date before is more than half a microsecond too early, and the others read no more than it.
    have hpos : earlier.toNat < (t.dateAt beat).toNat := hearlier
    obtain ⟨last, hlast⟩ :=
      exists_toNat_eq ((Nat.sub_le (t.dateAt beat).toNat 1).trans_lt (t.dateAt beat).toNat_lt)
    have hcast : (last.toNat : ℝ) + 1 = (t.dateAt beat).toNat := by
      exact_mod_cast (show last.toNat + 1 = (t.dateAt beat).toNat by omega)
    have hle : earlier ≤ last := UInt64.le_iff_toNat_le.mpr (by omega)
    have hcount : (earlier.toNat : ℝ) ≤ last.toNat := by exact_mod_cast hle
    obtain ⟨hnan, hbot⟩ := h.isFinite_beatAt (show (earlier.toNat : ℝ) ≤ (2 : ℝ) ^ (48 : ℤ) by linarith)
    exact below_of_atMost_of_below (beatAt_le_beatAt hle h.tempo hnan hbot)
      (h.beatAt_lt (abs_le.mpr ⟨by linarith, by linarith⟩) (by linarith))
  · have hpos : (t.dateAt beat).toNat < later.toNat := hlater
    obtain ⟨next, hnext⟩ := exists_toNat_eq (lt_of_le_of_lt hpos later.toNat_lt)
    have hcast : (next.toNat : ℝ) = (t.dateAt beat).toNat + 1 := by exact_mod_cast hnext
    have hle : next ≤ later := UInt64.le_iff_toNat_le.mpr (by omega)
    obtain ⟨hnan, hbot⟩ := h.isFinite_beatAt (show (next.toNat : ℝ) ≤ (2 : ℝ) ^ (48 : ℤ) by linarith)
    exact atMost_trans (h.le_beatAt (abs_le.mpr ⟨by linarith, by linarith⟩) (by linarith))
      (beatAt_le_beatAt hle h.tempo hnan hbot)

end Resolves

end Timeline

/-! ## The head of the queue -/

variable {σ β : Type}

/-- Once time has moved to a date, the head of the queue is due if the timeline reads its beat there. -/
theorem Conductor.hasDue_moveTo {c : Conductor σ β} {beat : Float} (hnext : c.nextDue? = some beat)
    {date : UInt64} (hdate : c.playhead.time.micros ≤ date) :
    (c.moveTime (·.moveTo date)).hasDue = true ↔ beat ≤ c.playhead.timeline.beatAt date := by
  have hmax : max c.playhead.time.micros date = date := if_pos hdate
  have hnow : (c.moveTime (·.moveTo date)).now = c.playhead.timeline.beatAt date :=
    congrArg c.playhead.timeline.beatAt hmax
  have hnext' : (c.moveTime (·.moveTo date)).nextDue? = some beat := hnext
  rw [hasDue, hnext', hnow, Option.any_some, decide_eq_true_eq]

/-- Where numbers are fine enough to tell microseconds apart, a beat falls on the microsecond that is nearest
to its moment: every earlier one reads an earlier beat and every later one the beat or a later one, and the
date itself is on either side as the moment is. So a clock that has moved on to a date finds the head of its
queue due on every date after the one that it waits for, on none before it, and on that date itself only if the
beat is read there. -/
theorem beat_falls_on_nearest_date {t : Timeline Float} {beat : Float} (h : t.Resolves beat) :
    t.FallsOn beat (t.dateAt beat) ∧
      ∀ c : Conductor σ β, c.playhead.timeline = t → c.nextDue? = some beat →
        ∀ date, c.playhead.time.micros ≤ date →
          ((c.moveTime (·.moveTo date)).hasDue = true ↔
            t.dateAt beat < date ∨ date = t.dateAt beat ∧ beat ≤ t.beatAt date) := by
  refine ⟨h.fallsOn_dateAt, ?_⟩
  rintro c rfl hnext date hdate
  rw [Conductor.hasDue_moveTo hnext hdate]
  rcases lt_trichotomy date.toNat (c.playhead.timeline.dateAt beat).toNat with hbefore | hequal | hafter
  · have hearly := h.fallsOn_dateAt.before date hbefore
    refine ⟨fun hle => absurd hearly (not_lt_of_le hle), ?_⟩
    rintro (hafter | ⟨rfl, hreads⟩)
    · exact absurd hbefore (Nat.lt_asymm hafter)
    · exact hreads
  · obtain rfl := UInt64.toNat_inj.mp hequal
    exact ⟨fun hreads => .inr ⟨rfl, hreads⟩,
      fun h => h.elim (fun hlt => absurd hlt (Nat.lt_irrefl _)) And.right⟩
  · exact ⟨fun _ => .inl hafter, fun _ => h.fallsOn_dateAt.after date hafter⟩

namespace Conductor

/-- A new clock at a tempo, with an entry at beat one. -/
def waiting (bpm : Float) : Conductor Offline Unit :=
  offline.applyAll [.setBpm bpm, .scheduleAt 1.0 ⟨"cue", ()⟩]

end Conductor

/-- At ninety beats per minute beat one is two thirds of a second after the start. That is rounded up, and the
clock finds its entry due. -/
theorem beat_reached_on_its_date :
    (Conductor.waiting 90.0).playhead.timeline.FallsOn 1.0 666667 ∧
      ((Conductor.waiting 90.0).moveTime (·.moveTo 666667)).hasDue = true := by
  have hdate : (Conductor.waiting 90.0).playhead.timeline.dateAt 1.0 = 666667 := by decide +kernel
  have hbpm : value (Conductor.waiting 90.0).playhead.timeline.bpm = 90 := by
    rw [← cast_exact, show exact (Conductor.waiting 90.0).playhead.timeline.bpm = 90 by decide +kernel]
    norm_num
  have horigin : value (Conductor.waiting 90.0).playhead.timeline.origin = 0 := by
    rw [← cast_exact, show exact (Conductor.waiting 90.0).playhead.timeline.origin = 0 by decide +kernel]
    norm_num
  have hstart : (Conductor.waiting 90.0).playhead.timeline.startedAt = 0 := by decide +kernel
  have hmoment : (Conductor.waiting 90.0).playhead.timeline.moment 1.0 = 2000000 / 3 := by
    rw [Timeline.moment, Timeline.pace, hbpm, horigin, hstart, value_one]
    norm_num
  have hslack : (Conductor.waiting 90.0).playhead.timeline.slack 1.0 ≤ 1 / 4 := by
    rw [Timeline.slack, hmoment, Timeline.pace, hbpm, horigin, hstart, roundoff]
    norm_num
  have hresolves : (Conductor.waiting 90.0).playhead.timeline.Resolves 1.0 := by
    refine ⟨by decide +kernel, ?_, ?_, by decide +kernel, by decide +kernel, ?_, hslack⟩
    · rw [hbpm]
      exact (zpow_le_one_of_nonpos₀ (by norm_num) (by norm_num)).trans (by norm_num)
    · rw [hbpm]
      calc (90 : ℝ) ≤ (2 : ℝ) ^ (7 : ℤ) := by norm_num
        _ ≤ (2 : ℝ) ^ (900 : ℤ) := zpow_le_zpow_right₀ (by norm_num) (by norm_num)
    · rw [hmoment]
      norm_num
  obtain ⟨hfalls, hdue⟩ := beat_falls_on_nearest_date (σ := Offline) (β := Unit) hresolves
  rw [hdate] at hfalls
  have hhead := hdue (Conductor.waiting 90.0) rfl (by decide +kernel) 666667 (by decide +kernel)
  exact ⟨hfalls, hhead.mpr (.inr ⟨hdate.symm, by decide +kernel⟩)⟩

/-- At a hundred and thirty beats per minute the date of beat one is rounded down. A clock that has moved on to
the date that it waits for does not find its entry due. -/
theorem beat_missed_on_its_date :
    ¬ (∀ (t : Timeline Float) (beat : Float), isPositive t.bpm = true → t.origin.isFinite = true →
      beat.isFinite = true → 0 ≤ t.moment beat → t.moment beat ≤ countLimit →
        beat ≤ t.beatAt (t.dateAt beat) ∧ (t.dateAt beat ≠ 0 → t.beatAt (t.dateAt beat - 1) < beat)) ∧
    (Conductor.waiting 130.0).nextDeadline = 461538 ∧
      ((Conductor.waiting 130.0).moveTime (·.moveTo 461538)).hasDue = false := by
  refine ⟨fun h => ?_, by decide +kernel, by decide +kernel⟩
  have hbpm : value 130.0 = 130 := by
    rw [← cast_exact, show exact 130.0 = 130 by decide +kernel]
    norm_num
  have hmoment : (⟨130.0, 0, 0.0⟩ : Timeline Float).moment 1.0 = 6000000 / 13 := by
    rw [Timeline.moment, Timeline.pace, hbpm, value_zero, value_one]
    norm_num
  have hlimit : (6000000 / 13 : ℝ) ≤ countLimit := by
    calc (6000000 / 13 : ℝ) ≤ (461539 : ℕ) := by norm_num
      _ ≤ countLimit := Nat.cast_le.mpr (by decide)
  obtain ⟨hreads, -⟩ := h ⟨130.0, 0, 0.0⟩ 1.0 (by decide +kernel) (by decide +kernel) (by decide +kernel)
    (hmoment ▸ by norm_num) (hmoment ▸ hlimit)
  exact absurd hreads (by decide +kernel)

end Cadence
