import Mathlib
import Cadence.Proofs.Number.Count
import Cadence.Proofs.Run.Program
import Cadence.Proofs.Timeline

/-!
# Tempo changes as of a beat

A tempo change as of a beat starts a segment on the date on which the beat falls. That date is clamped to what
a date can be and rounded to microseconds, and the new segment is asked again for the date of its own origin.
The answer is the date of the anchor, because a number that was rounded to a count is rounded to it again.

- `Timeline.dateAt_origin`, `Timeline.beatAt_startedAt`: origin and anchor of a segment;
- `Playhead.keepsBeat_setBpmAt`: one change leaves the beat where it is, and
  `Playhead.KeepsBeat.foldlM_setBpmAt`: so do more;
- `tempo_changes_keep_beat`: all of it from any state.
-/

namespace Cadence

open Number

variable {t : Timeline Float} {beat bpm : Float}

namespace Timeline

/-- A timeline reaches its origin at its anchor, wherever rounding left that. -/
theorem dateAt_origin (horigin : t.origin.isFinite = true) (hbpm : isPositive t.bpm = true) :
    t.dateAt t.origin = roundToCount t.startedAt.toFloat := by
  obtain ⟨hfinite, hpos⟩ := value_pos_of_isPositive hbpm
  obtain ⟨hdiff, hdiffzero⟩ := sub_self_zero horigin
  obtain ⟨hminute, -⟩ := value_pos_of_isPositive isPositive_microsPerMinute
  obtain ⟨hprod, hprodzero⟩ := zero_product hdiff hdiffzero hminute
  obtain ⟨hquot, hquotzero⟩ := zero_quotient hprod hprodzero hfinite hpos
  have hanchor := isFinite_toFloat t.startedAt
  obtain ⟨hplace, hnan⟩ := place_add_zero (isNaN_of_isFinite hanchor) hquot hquotzero
  obtain ⟨hsum, hvalue⟩ := isFinite_of_place hnan (hplace.trans (place_eq_value hanchor))
  obtain ⟨hlarger, hmax⟩ := value_larger hsum (show (0.0 : Float).isFinite = true from rfl)
  refine roundToCount_congr hlarger hanchor ?_
  rw [hmax, hvalue, value_zero]
  exact max_eq_left (value_toFloat_nonneg _)

/-- At its anchor a timeline reads its origin. -/
theorem beatAt_startedAt (horigin : t.origin.isFinite = true) (hbpm : isPositive t.bpm = true) :
    (t.beatAt t.startedAt == t.origin) = true := by
  obtain ⟨hfinite, hzero⟩ := beatsIn_zero t.startedAt hbpm
  have hnan := isNaN_of_isFinite horigin
  obtain ⟨hplace, hnan'⟩ := place_add_zero hnan hfinite hzero
  exact beq_iff.mpr ⟨hnan', hnan, hplace⟩

end Timeline

namespace Playhead

/-- A change leaves a beat where it is. -/
structure KeepsBeat (before after : Playhead) (beat : Float) : Prop where
  /-- The beat falls on the date on which it fell. -/
  date : after.dateAtBeat beat = before.dateAtBeat beat
  /-- On that date the playhead reads the beat. -/
  reading : (after.timeline.beatAt (before.dateAtBeat beat) == beat) = true

theorem KeepsBeat.trans {p p' p'' : Playhead} (h : p.KeepsBeat p' beat) (h' : p'.KeepsBeat p'' beat) :
    p.KeepsBeat p'' beat where
  date := h'.date.trans h.date
  reading := h.date ▸ h'.reading

/-- A tempo change as of a beat is accepted for every finite beat and every tempo, and leaves the beat where
it is. -/
theorem keepsBeat_setBpmAt (p : Playhead) (hbeat : beat.isFinite = true) (hbpm : isPositive bpm = true) :
    ∃ after, p.setBpmAt beat bpm = .ok after ∧ p.KeepsBeat after beat := by
  refine ⟨{ p with timeline := p.timeline.changeTempoAt beat bpm }, ?_, ?_, ?_⟩
  · rw [setBpmAt, checkTempo, if_pos hbpm, checkBeat, if_pos hbeat]
    rfl
  · -- The anchor is a count that a number was rounded to, so that it is rounded to itself.
    calc (p.timeline.changeTempoAt beat bpm).dateAt beat
        = roundToCount (p.timeline.dateAt beat).toFloat := Timeline.dateAt_origin hbeat hbpm
      _ = p.timeline.dateAt beat := roundToCount_toFloat_roundToCount _
  · exact Timeline.beatAt_startedAt (t := p.timeline.changeTempoAt beat bpm) hbeat hbpm

/-- However many tempo changes as of a beat follow, the beat stays where it is. -/
theorem KeepsBeat.foldlM_setBpmAt {p after : Playhead} (hbeat : beat.isFinite = true)
    (h : p.KeepsBeat after beat) {tempos : List Float} (htempos : ∀ bpm ∈ tempos, isPositive bpm = true) :
    ∃ last, tempos.foldlM (fun p bpm => p.setBpmAt beat bpm) after = .ok last ∧ p.KeepsBeat last beat := by
  induction tempos generalizing after with
  | nil => exact ⟨after, rfl, h⟩
  | cons bpm tempos ih =>
    obtain ⟨next, hok, hnext⟩ := after.keepsBeat_setBpmAt hbeat (htempos bpm List.mem_cons_self)
    obtain ⟨last, hlast, hkeeps⟩ :=
      ih (h.trans hnext) fun bpm hmem => htempos bpm (List.mem_cons_of_mem _ hmem)
    refine ⟨last, ?_, hkeeps⟩
    rw [List.foldlM_cons, hok]
    exact hlast

end Playhead

/-- A tempo change as of a finite beat is accepted for every tempo, from whatever state of the playhead, and
the beat still falls on the date that it fell on, where the playhead now reads it. However many tempo changes
as of that beat follow, they move neither. -/
theorem tempo_changes_keep_beat (p : Playhead) (hbeat : beat.isFinite = true)
    (hbpm : isPositive bpm = true) :
    ∃ after, p.setBpmAt beat bpm = .ok after ∧ p.KeepsBeat after beat ∧
      ∀ tempos : List Float, (∀ other ∈ tempos, isPositive other = true) →
        ∃ last, tempos.foldlM (fun p other => p.setBpmAt beat other) after = .ok last ∧
          p.KeepsBeat last beat := by
  obtain ⟨after, hok, hkeeps⟩ := p.keepsBeat_setBpmAt hbeat hbpm
  exact ⟨after, hok, hkeeps, fun _ htempos => hkeeps.foldlM_setBpmAt hbeat htempos⟩

/-- Half a beat before a new clock starts falls on the date of the start, since there is none before it, and
stays there under three tempos. -/
theorem early_beat_kept :
    ∃ after, (Conductor.offline : Conductor Offline Unit).playhead.setBpmAt (-0.5) 90.0 = .ok after ∧
      (Conductor.offline : Conductor Offline Unit).playhead.KeepsBeat after (-0.5) ∧
      ∃ last, [0.001, 1e300].foldlM (fun p other => p.setBpmAt (-0.5) other) after = .ok last ∧
        (Conductor.offline : Conductor Offline Unit).playhead.KeepsBeat last (-0.5) := by
  obtain ⟨after, hok, hkeeps, hlater⟩ := tempo_changes_keep_beat
    (Conductor.offline : Conductor Offline Unit).playhead
    (show (-0.5 : Float).isFinite = true by decide +kernel) (show isPositive 90.0 = true by decide +kernel)
  exact ⟨after, hok, hkeeps, hlater _ (by decide +kernel)⟩

end Cadence
