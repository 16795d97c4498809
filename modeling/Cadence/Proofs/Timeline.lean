import Mathlib
import Cadence.Playhead
import Cadence.Proofs.Number.Exact

/-!
# The timeline moves forward

The beat is computed in binary64 numbers, so that it moves forward is a matter of rounding: every
operation in the formula is monotone. The main statements are:

- `Playhead.now_le_now_of_later`: on one timeline a later date never reads an earlier beat;
- `Playhead.now_le_now_of_changeTempo`: a tempo change leaves the beat where it is;
- `Playhead.le_now_of_setBpmAt`: one that is carried out as of a beat does not take the playhead back
  behind that beat.
-/

namespace Cadence

open Number

/-- A number that is accepted as a tempo is finite, and its value is above zero. -/
theorem value_pos_of_isPositive {b : Float} (h : isPositive b = true) :
    b.isFinite = true ∧ 0 < value b := by
  obtain ⟨hfinite, hpos⟩ := (Bool.and_eq_true _ _).mp h
  exact ⟨hfinite, value_pos hfinite (of_decide_eq_true hpos)⟩

namespace Timeline

theorem isPositive_microsPerMinute : isPositive (microsPerMinute : Float) = true := by
  decide +kernel

theorem value_microsPerMinute : value (microsPerMinute : Float) = 60000000 := by
  have hexact : exact (microsPerMinute : Float) = 60000000 := by decide +kernel
  rw [← cast_exact, hexact]
  norm_num

/-- More microseconds are more beats. -/
theorem beatsIn_le_beatsIn {x y bpm : Float} (h : x ≤ y) (hbpm : isPositive bpm = true) :
    beatsIn x bpm ≤ beatsIn y bpm := by
  obtain ⟨hfinite, hpos⟩ := value_pos_of_isPositive hbpm
  obtain ⟨hminute, hminutepos⟩ := value_pos_of_isPositive isPositive_microsPerMinute
  exact quotient_le_quotient (product_le_product h hfinite hpos) hminute hminutepos

/-- No time is no beats. -/
theorem beatsIn_zero (date : UInt64) {bpm : Float} (hbpm : isPositive bpm = true) :
    (beatsIn (date.toFloat - date.toFloat) bpm).isFinite = true ∧
      value (beatsIn (date.toFloat - date.toFloat) bpm) = 0 := by
  obtain ⟨hfinite, -⟩ := value_pos_of_isPositive hbpm
  obtain ⟨hminute, hminutepos⟩ := value_pos_of_isPositive isPositive_microsPerMinute
  obtain ⟨hdiff, hdiffzero⟩ := sub_self_zero (isFinite_toFloat date)
  obtain ⟨hprod, hprodzero⟩ := zero_product hdiff hdiffzero hfinite
  exact zero_quotient hprod hprodzero hminute hminutepos

/-- At a later date the timeline is not at an earlier beat. -/
theorem beatAt_le_beatAt {t : Timeline Float} {date later : UInt64} (h : date ≤ later)
    (hbpm : isPositive t.bpm = true) (hnan : (t.beatAt date).isNaN = false)
    (hbot : place (t.beatAt date) ≠ ⊥) : t.beatAt date ≤ t.beatAt later := by
  have hmicros : date.toFloat - t.startedAt.toFloat ≤ later.toFloat - t.startedAt.toFloat :=
    difference_le_difference (count_le_count h) (isFinite_toFloat t.startedAt)
  have hbeats := beatsIn_le_beatsIn hmicros hbpm
  exact sum_le_sum hbeats hnan (isNaN_add_of_le hbeats hnan hbot)

/-- A tempo change leaves the beat of its date where it is. -/
theorem place_beatAt_changeTempo {t : Timeline Float} (date : UInt64) {bpm : Float}
    (hbpm : isPositive bpm = true) (hnan : (t.beatAt date).isNaN = false) :
    place ((t.changeTempo date bpm).beatAt date) = place (t.beatAt date) ∧
      ((t.changeTempo date bpm).beatAt date).isNaN = false := by
  obtain ⟨hfinite, hzero⟩ := beatsIn_zero date hbpm
  exact place_add_zero hnan hfinite hzero

/-- A tempo change as of a beat does not take the timeline back behind that beat, once the date of the
beat is reached. -/
theorem le_beatAt_changeTempoAt {t : Timeline Float} {beat bpm : Float} {date : UInt64}
    (hbeat : beat.isFinite = true) (hbpm : isPositive bpm = true) (h : t.dateAt beat ≤ date) :
    beat ≤ (t.changeTempoAt beat bpm).beatAt date := by
  obtain ⟨hfinite, hzero⟩ := beatsIn_zero (t.dateAt beat) hbpm
  have hnan := isNaN_of_isFinite hbeat
  obtain ⟨hplace, hnan'⟩ := place_add_zero hnan hfinite hzero
  have hstart : beat ≤ (t.changeTempoAt beat bpm).beatAt (t.dateAt beat) :=
    le_iff.mpr ⟨hnan, hnan', hplace.ge⟩
  have hbot : place ((t.changeTempoAt beat bpm).beatAt (t.dateAt beat)) ≠ ⊥ := by
    have heq : place ((t.changeTempoAt beat bpm).beatAt (t.dateAt beat)) = value beat :=
      hplace.trans (place_eq_value hbeat)
    rw [heq]
    exact EReal.coe_ne_bot _
  exact atMost_trans hstart
    (beatAt_le_beatAt (t := t.changeTempoAt beat bpm) h hbpm hnan' hbot)

end Timeline

/-! ## Changes that are accepted -/

/-- A result that is bound comes from a value that was bound. -/
theorem bind_ok {ε α γ : Type} {first : Except ε α} {rest : α → Except ε γ} {result : γ}
    (h : first >>= rest = .ok result) : ∃ value, first = .ok value ∧ rest value = .ok result := by
  cases first with
  | error fault => cases h
  | ok value => exact ⟨value, rfl, h⟩

theorem checkTempo_ok {bpm value : Float} (h : checkTempo bpm = .ok value) :
    isPositive bpm = true ∧ value = bpm := by
  unfold checkTempo at h
  split_ifs at h with hbpm
  exact ⟨hbpm, (Except.ok.inj h).symm⟩

theorem checkBeat_ok {beat value : Float} (h : checkBeat beat = .ok value) :
    beat.isFinite = true ∧ value = beat := by
  unfold checkBeat at h
  split_ifs at h with hbeat
  exact ⟨hbeat, (Except.ok.inj h).symm⟩

namespace Playhead

/-- A playhead starts on a timeline with a tempo that counts as one and at a finite beat. -/
theorem start_ok {time : WallTime} {bpm beat : Float} {meter : Meter} {p : Playhead}
    (h : start time bpm meter beat = .ok p) :
    isPositive bpm = true ∧ beat.isFinite = true ∧ p = ⟨time, ⟨bpm, time.micros, beat⟩, meter⟩ := by
  obtain ⟨_, htempo, hrest⟩ := bind_ok h
  obtain ⟨_, hcheck, hresult⟩ := bind_ok hrest
  obtain ⟨hbpm, rfl⟩ := checkTempo_ok htempo
  obtain ⟨hbeat, rfl⟩ := checkBeat_ok hcheck
  exact ⟨hbpm, hbeat, (Except.ok.inj hresult).symm⟩

/-- A tempo change that is accepted starts a segment with a tempo that counts as one. -/
theorem setBpm_ok {p p' : Playhead} {bpm beat : Float} (h : p.setBpm bpm = .ok (beat, p')) :
    isPositive bpm = true ∧
      p' = { p with timeline := p.timeline.changeTempo p.time.micros bpm } := by
  obtain ⟨_, htempo, hresult⟩ := bind_ok h
  obtain ⟨hbpm, rfl⟩ := checkTempo_ok htempo
  exact ⟨hbpm, (congrArg Prod.snd (Except.ok.inj hresult)).symm⟩

/-- So does one that is carried out as of a beat, which is finite. -/
theorem setBpmAt_ok {p p' : Playhead} {beat bpm : Float} (h : p.setBpmAt beat bpm = .ok p') :
    isPositive bpm = true ∧ beat.isFinite = true ∧
      p' = { p with timeline := p.timeline.changeTempoAt beat bpm } := by
  obtain ⟨_, htempo, hrest⟩ := bind_ok h
  obtain ⟨_, hcheck, hresult⟩ := bind_ok hrest
  obtain ⟨hbpm, rfl⟩ := checkTempo_ok htempo
  obtain ⟨hbeat, rfl⟩ := checkBeat_ok hcheck
  exact ⟨hbpm, hbeat, (Except.ok.inj hresult).symm⟩

/-- A jump that is accepted goes to a finite beat. -/
theorem setTime_ok {p p' : Playhead} {beat : Float} (h : p.setTime beat = .ok p') :
    beat.isFinite = true ∧ p' = { p with timeline := p.timeline.jump p.time.micros beat } := by
  obtain ⟨_, hcheck, hresult⟩ := bind_ok h
  obtain ⟨hbeat, rfl⟩ := checkBeat_ok hcheck
  exact ⟨hbeat, (Except.ok.inj hresult).symm⟩

/-! ## Moving forward -/

/-- On one timeline a later date does not read an earlier beat. -/
theorem now_le_now_of_later {p p' : Playhead} (htime : p.time.micros ≤ p'.time.micros)
    (htimeline : p'.timeline = p.timeline) (hbpm : isPositive p.bpm = true)
    (hnan : p.now.isNaN = false) (hbot : place p.now ≠ ⊥) : p.now ≤ p'.now := by
  unfold now at hnan hbot ⊢
  rw [htimeline]
  exact Timeline.beatAt_le_beatAt htime hbpm hnan hbot

/-- A tempo change leaves the beat where it is. -/
theorem now_le_now_of_changeTempo {p p' : Playhead} {bpm : Float} (hbpm : isPositive bpm = true)
    (htime : p'.time = p.time) (htimeline : p'.timeline = p.timeline.changeTempo p.time.micros bpm)
    (hnan : p.now.isNaN = false) : p.now ≤ p'.now := by
  unfold now at hnan ⊢
  rw [htime, htimeline]
  obtain ⟨hplace, hnan'⟩ := Timeline.place_beatAt_changeTempo p.time.micros hbpm hnan
  exact le_iff.mpr ⟨hnan, hnan', hplace.ge⟩

/-- A tempo change as of a beat does not take the playhead back behind that beat, once the date of the
beat is reached. -/
theorem le_now_of_setBpmAt {p p' : Playhead} {beat bpm : Float} (h : p.setBpmAt beat bpm = .ok p')
    (hdate : p.dateAtBeat beat ≤ p.time.micros) : beat ≤ p'.now := by
  obtain ⟨hbpm, hbeat, rfl⟩ := setBpmAt_ok h
  exact Timeline.le_beatAt_changeTempoAt hbeat hbpm hdate

end Playhead

end Cadence
