import Mathlib
import Cadence.Proofs.Number.Range
import Cadence.Proofs.Run.Playhead
import Cadence.Proofs.Run.Program

/-!
# When the reading is finite

Tempos and beats are checked when they come in, but the beat itself is computed from an anchor, a tempo
and the time that has passed, and nothing checks the result. This file says exactly when it is finite.

- `Timeline.isFinite_beatAt_iff`: from a finite anchor the beat is a number, and finite exactly if the
  results on the way to it are in range;
- `Timeline.inRange_of_le`: they are at any date under moderate tempos and from moderate anchors;
- `Operation.isFinite_origin_apply`: an operation leaves a finite anchor if the anchor that it computes is
  in range;
- `reading_in_range`: over any history.
-/

namespace Cadence

open Number

variable {σ β : Type}

/-! ## On a timeline -/

namespace Timeline

/-- The time since the anchor, as the timeline computes it. -/
def elapsed (t : Timeline Float) (date : UInt64) : Float := date.toFloat - t.startedAt.toFloat

/-- The results on the way to the beat at a date are in range: time by tempo, and the anchor with the beats
that have passed since. -/
def InRange (t : Timeline Float) (date : UInt64) : Prop :=
  Number.InRange (value (t.elapsed date) * value t.bpm) ∧
    Number.InRange (value t.origin + value (beatsIn (t.elapsed date) t.bpm))

/-- A count of microseconds is at most the number of counts. -/
theorem value_toFloat_bounds (n : UInt64) :
    0 ≤ value n.toFloat ∧ value n.toFloat ≤ (2 : ℝ) ^ (64 : ℤ) := by
  obtain ⟨hplace, hnan⟩ := place_toFloat n
  have hle : (n.toNat : ℝ) ≤ (2 : ℝ) ^ (64 : ℤ) := by
    have hlt : n.toNat ≤ 2 ^ 64 := n.toNat_lt.le
    exact_mod_cast hlt
  obtain ⟨-, hvalue⟩ := isFinite_of_rounded hnan hplace (Nat.cast_nonneg _) hle
  rw [hvalue]
  exact ⟨nearest_nonneg (Nat.cast_nonneg _),
    nearest_le_two_zpow_of_le (Nat.cast_nonneg _) (by norm_num) hle⟩

/-- The time since the anchor is finite, and at most as long as dates go. -/
theorem elapsed_bounds (t : Timeline Float) (date : UInt64) :
    (t.elapsed date).isFinite = true ∧ |value (t.elapsed date)| ≤ (2 : ℝ) ^ (64 : ℤ) := by
  obtain ⟨hplace, hnan⟩ := place_sub (isFinite_toFloat date) (isFinite_toFloat t.startedAt)
  refine abs_value_le_of_rounded hnan hplace (by norm_num) (by norm_num) (abs_le.mpr ?_)
  obtain ⟨hlow, hhigh⟩ := value_toFloat_bounds date
  obtain ⟨hlow', hhigh'⟩ := value_toFloat_bounds t.startedAt
  constructor <;> linarith

/-- There is more than one microsecond in a minute. -/
theorem one_le_value_microsPerMinute : 1 ≤ value (microsPerMinute : Float) := by
  rw [value_microsPerMinute]
  norm_num

/-- Turning time by tempo into beats does not take a result out of range. -/
theorem abs_div_microsPerMinute_le (q : ℝ) : |q / value (microsPerMinute : Float)| ≤ |q| := by
  have hone := one_le_value_microsPerMinute
  have hpos : 0 < value (microsPerMinute : Float) := by linarith
  rw [abs_div, abs_of_pos hpos]
  exact div_le_self (abs_nonneg q) hone

/-- The beats that pass are finite exactly if time by tempo is in range. -/
theorem isFinite_beatsIn_iff (t : Timeline Float) (date : UInt64) (hbpm : isPositive t.bpm = true) :
    (beatsIn (t.elapsed date) t.bpm).isNaN = false ∧
      ((beatsIn (t.elapsed date) t.bpm).isFinite = true ↔
        Number.InRange (value (t.elapsed date) * value t.bpm)) := by
  obtain ⟨hbpm, -⟩ := value_pos_of_isPositive hbpm
  obtain ⟨hminute, hpos⟩ := value_pos_of_isPositive isPositive_microsPerMinute
  obtain ⟨helapsed, -⟩ := t.elapsed_bounds date
  obtain ⟨hplace, hnan⟩ := place_mul helapsed hbpm
  obtain ⟨hquotient, hquotientnan⟩ := place_div_left hnan hminute hpos
  refine ⟨hquotientnan, ?_⟩
  rw [← isFinite_mul_iff helapsed hbpm]
  unfold beatsIn
  constructor
  · intro hfinite
    -- An infinite product stays infinite when it is divided.
    by_contra hproduct
    exact not_isFinite_of_liftPlace hnan (Bool.not_eq_true _ ▸ hproduct) hquotient hfinite
  · intro hproduct
    rw [isFinite_div_iff hproduct hminute hpos.ne']
    exact (inRange_value hproduct).of_abs_le (abs_div_microsPerMinute_le _)

/-- From a finite anchor the beat is a number, and finite exactly if the results on the way to it are in
range. -/
theorem isFinite_beatAt_iff {t : Timeline Float} (date : UInt64)
    (horigin : t.origin.isFinite = true) (hbpm : isPositive t.bpm = true) :
    (t.beatAt date).isNaN = false ∧ ((t.beatAt date).isFinite = true ↔ t.InRange date) := by
  obtain ⟨hnan, hiff⟩ := t.isFinite_beatsIn_iff date hbpm
  obtain ⟨hsum, hsumnan⟩ := place_add_right horigin hnan
  refine ⟨hsumnan, ?_⟩
  change (t.origin + beatsIn (t.elapsed date) t.bpm).isFinite = true ↔ _
  unfold InRange
  rw [← hiff]
  constructor
  · intro hfinite
    have hbeats : (beatsIn (t.elapsed date) t.bpm).isFinite = true := by
      -- A finite anchor does not bring an infinite number of beats back.
      by_contra hbeats
      exact not_isFinite_of_liftPlace hnan (Bool.not_eq_true _ ▸ hbeats) hsum hfinite
    exact ⟨hbeats, (isFinite_add_iff horigin hbeats).mp hfinite⟩
  · rintro ⟨hbeats, hrange⟩
    exact (isFinite_add_iff horigin hbeats).mpr hrange

/-- Under moderate tempos and from moderate anchors the beat is in range at any date. -/
theorem inRange_of_le {t : Timeline Float} (date : UInt64)
    (hbpm : isPositive t.bpm = true) (htempo : value t.bpm ≤ (2 : ℝ) ^ (900 : ℤ))
    (horigin : |value t.origin| ≤ (2 : ℝ) ^ (1000 : ℤ)) : t.InRange date := by
  obtain ⟨hbpm, hpos⟩ := value_pos_of_isPositive hbpm
  obtain ⟨hminute, hminutepos⟩ := value_pos_of_isPositive isPositive_microsPerMinute
  obtain ⟨helapsed, hle⟩ := t.elapsed_bounds date
  -- Dates go up to 2 ^ 64, so time by tempo, and the beats with it, stay far below the end of the range.
  have hproduct : |value (t.elapsed date) * value t.bpm| ≤ (2 : ℝ) ^ (964 : ℤ) := by
    rw [abs_mul, abs_of_pos hpos, show (964 : ℤ) = 64 + 900 by norm_num,
      zpow_add₀ (by norm_num)]
    gcongr
  obtain ⟨hplace, hnan⟩ := place_mul helapsed hbpm
  obtain ⟨hfinite, hvalue⟩ :=
    abs_value_le_of_rounded hnan hplace (by norm_num) (by norm_num) hproduct
  obtain ⟨hquotient, hquotientnan⟩ := place_div hfinite hminute hminutepos.ne'
  obtain ⟨-, hbeats⟩ := abs_value_le_of_rounded hquotientnan hquotient (by norm_num)
    (by norm_num) ((abs_div_microsPerMinute_le _).trans hvalue)
  constructor
  · exact inRange_of_abs_le_two_zpow
      (hproduct.trans (zpow_le_zpow_right₀ (by norm_num) (by norm_num)))
  · refine inRange_of_abs_le_two_zpow ?_
    calc |value t.origin + value (beatsIn (t.elapsed date) t.bpm)|
        ≤ |value t.origin| + |value (beatsIn (t.elapsed date) t.bpm)| := abs_add_le _ _
      _ ≤ (2 : ℝ) ^ (1000 : ℤ) + (2 : ℝ) ^ (1000 : ℤ) :=
          add_le_add horigin
            (hbeats.trans (zpow_le_zpow_right₀ (by norm_num) (by norm_num)))
      _ = (2 : ℝ) ^ (1001 : ℤ) := by
          rw [← two_mul, ← zpow_one_add₀ (by norm_num)]
          norm_num
      _ ≤ (2 : ℝ) ^ (1023 : ℤ) := zpow_le_zpow_right₀ (by norm_num) (by norm_num)

/-- A segment that starts at a reading in range has a finite anchor. -/
theorem isFinite_origin_changeTempo {t : Timeline Float} {date : UInt64}
    (horigin : t.origin.isFinite = true) (hbpm : isPositive t.bpm = true) (hrange : t.InRange date)
    (bpm : Float) : (t.changeTempo date bpm).origin.isFinite = true :=
  (isFinite_beatAt_iff date horigin hbpm).2.mpr hrange

end Timeline

/-! ## On a playhead -/

namespace Playhead

/-- The current beat is in range. -/
def InRange (p : Playhead) : Prop := p.timeline.InRange p.time.micros

/-- If the tempo is accepted, the beat at which it comes into force is in range. -/
def TempoInRange (p : Playhead) (bpm : Float) : Prop := isPositive bpm = true → p.InRange

/-- If the number of beats is accepted, the anchor moved by it is in range. -/
def ShiftInRange (p : Playhead) (beats : Float) : Prop :=
  beats.isFinite = true → Number.InRange (value p.timeline.origin + value beats)

variable {p p' : Playhead}

/-- From a finite anchor the current beat is a number, and finite exactly if it is in range. -/
theorem isFinite_now_iff (horigin : p.timeline.origin.isFinite = true)
    (hbpm : isPositive p.bpm = true) :
    p.now.isNaN = false ∧ (p.now.isFinite = true ↔ p.InRange) :=
  Timeline.isFinite_beatAt_iff p.time.micros horigin hbpm

theorem isFinite_origin_setBpm {bpm beat : Float} (h : p.setBpm bpm = .ok (beat, p'))
    (horigin : p.timeline.origin.isFinite = true) (hbpm : isPositive p.bpm = true)
    (hrange : p.TempoInRange bpm) : p'.timeline.origin.isFinite = true := by
  obtain ⟨haccepted, rfl⟩ := setBpm_ok h
  exact Timeline.isFinite_origin_changeTempo horigin hbpm (hrange haccepted) bpm

theorem isFinite_origin_shift {beats : Float} (horigin : p.timeline.origin.isFinite = true)
    (hrange : p.ShiftInRange beats) : (p.shift beats).timeline.origin.isFinite = true := by
  unfold shift
  split_ifs with hbeats
  · exact (isFinite_add_iff horigin hbeats).mpr (hrange hbeats)
  · exact horigin

end Playhead

namespace Follower

/-- The anchors that a correction computes are in range. -/
def CorrectionInRange (p : Playhead) (correction : Correction Float) : Prop :=
  (∀ bpm ∈ correction.tempo, p.TempoInRange bpm) ∧
    (correction.isStill = false →
      (adoptTempo p correction.tempo).1.ShiftInRange correction.nudge)

theorem isFinite_origin_applyCorrection {p : Playhead} {correction : Correction Float}
    (horigin : p.timeline.origin.isFinite = true) (hbpm : isPositive p.bpm = true)
    (hrange : CorrectionInRange p correction) :
    (applyCorrection p correction).1.timeline.origin.isFinite = true := by
  obtain ⟨htempo, hnudge⟩ := hrange
  have hadopted : (adoptTempo p correction.tempo).1.timeline.origin.isFinite = true := by
    unfold adoptTempo
    split
    · exact horigin
    · rename_i bpm heq
      split
      · exact horigin
      · rename_i hset
        exact Playhead.isFinite_origin_setBpm hset horigin hbpm (htempo bpm heq)
  unfold applyCorrection
  simp only
  split_ifs with hstill
  · exact hadopted
  · exact Playhead.isFinite_origin_shift hadopted (hnudge (Bool.not_eq_true _ ▸ hstill))

end Follower

/-! ## Over a history -/

variable [Transport σ]

/-- The anchor that an operation computes, if it computes one, is in range. An anchor that is given as a
beat is checked, so nothing is asked of it here. -/
def Operation.InRange (op : Operation σ β) (c : Conductor σ β) : Prop :=
  match op with
  | .setBpm bpm | .playheadBpm bpm => c.playhead.TempoInRange bpm
  | .shift beats | .playheadShift beats => c.playhead.ShiftInRange beats
  | .reconcile => ∀ correction,
      (c.follower.reconcileIfDue c.playhead).answer = .corrected correction →
        Follower.CorrectionInRange c.playhead correction
  | _ => True

/-- The anchor that is computed in an event, if one is, is in range. -/
def Event.InRange : Event σ β → Prop
  | .called op c => op.InRange c
  | _ => True

/-- An operation leaves a finite anchor if the anchor that it computes is in range. -/
theorem Operation.isFinite_origin_apply (op : Operation σ β) {c : Conductor σ β}
    (horigin : c.playhead.timeline.origin.isFinite = true) (hbpm : isPositive c.bpm = true)
    (hrange : op.InRange c) : (op.apply c).playhead.timeline.origin.isFinite = true := by
  have hretimes := op.retimes c
  generalize (op.apply c).playhead.timeline = timeline at hretimes ⊢
  cases hretimes with
  | kept => exact horigin
  | tempo hop haccepted =>
    refine Timeline.isFinite_origin_changeTempo horigin hbpm ?_ _
    rcases hop with rfl | rfl <;> exact hrange haccepted
  | tempoAt _ hbeat => exact hbeat
  | jump _ hbeat => exact hbeat
  | shift hop hbeats =>
    refine (isFinite_add_iff horigin hbeats).mpr ?_
    rcases hop with rfl | rfl <;> exact hrange hbeats
  | corrected hanswer =>
    exact Follower.isFinite_origin_applyCorrection horigin hbpm (hrange _ hanswer)

/-- What the clock does by itself for a task leaves a finite anchor. -/
theorem Task.isFinite_origin_carry (task : Task β) {c : Conductor σ β}
    (horigin : c.playhead.timeline.origin.isFinite = true) :
    (task.carry c).playhead.timeline.origin.isFinite = true := by
  rcases task.timeline_carry c with heq | ⟨beat, bpm, -, hbeat, heq⟩
  · rw [heq]
    exact horigin
  · rw [heq]
    exact hbeat

/-- Over a history in which every computed anchor was in range the anchor is finite. -/
theorem History.isFinite_origin {events : List (Event σ β)} {m : Moment σ β}
    (h : History events m) (hrange : ∀ event ∈ events, event.InRange) :
    m.clock.playhead.timeline.origin.isFinite = true := by
  induction h using History.induction with
  | created hcreate =>
    obtain ⟨-, hbeat, heq⟩ := Conductor.create_ok hcreate
    rw [heq]
    exact hbeat
  | @stepped events _ event _ hbefore hstep ih =>
    have horigin := ih fun event hevent => hrange event (List.mem_append_left _ hevent)
    have hlast := hrange event (by simp)
    cases hstep with
    | @call c u op permitted =>
      exact op.isFinite_origin_apply horigin hbefore.isPositive_bpm hlast
    | measure => exact horigin
    | @start c u reading e rest => exact e.task.isFinite_origin_carry horigin
    | fail => exact horigin
    | pass => exact horigin

/-- Over any history the tempo in force is finite and above zero. As long as every anchor that was computed
was in range, the current beat is a number, and finite exactly if it is in range itself. -/
theorem reading_in_range {events : List (Event σ β)} {m : Moment σ β} (h : History events m) :
    (m.clock.bpm.isFinite = true ∧ 0.0 < m.clock.bpm) ∧
      ((∀ event ∈ events, event.InRange) →
        m.clock.now.isNaN = false ∧
          (m.clock.now.isFinite = true ↔ m.clock.playhead.InRange)) := by
  have hbpm := h.isPositive_bpm
  refine ⟨?_, fun hrange => ?_⟩
  · obtain ⟨hfinite, hpos⟩ := (Bool.and_eq_true _ _).mp hbpm
    exact ⟨hfinite, of_decide_eq_true hpos⟩
  · exact Playhead.isFinite_now_iff (h.isFinite_origin hrange) hbpm

/-- A clock that is moved by a hundred beats, and changes its tempo two seconds later. -/
theorem moved_reading_in_range :
    let ops : List (Operation Offline Unit) :=
      [.shift 100.0, .advance 2000000, .setBpm 90.0, .advance 1000000]
    let c := Conductor.offline.applyAll ops
    (∀ event ∈ callEvents Conductor.offline ops, event.InRange) ∧
      (c.bpm.isFinite = true ∧ 0.0 < c.bpm) ∧ c.now = 105.5 ∧ c.now.isNaN = false ∧
      (c.now.isFinite = true ↔ c.playhead.InRange) := by
  intro ops c
  have hhistory : History (callEvents Conductor.offline ops) ⟨c, []⟩ :=
    Conductor.history_offline_calls (by decide +kernel)
  have hrange : ∀ event ∈ callEvents Conductor.offline ops, event.InRange := by
    intro event hevent
    simp only [ops, callEvents, List.mem_cons, List.not_mem_nil, or_false] at hevent
    rcases hevent with rfl | rfl | rfl | rfl
    · exact fun hbeats =>
        (isFinite_add_iff (by decide +kernel) hbeats).mp (by decide +kernel)
    · trivial
    · -- The beat at which the tempo changes is finite, so it was in range.
      exact fun _ => (Playhead.isFinite_now_iff (by decide +kernel) (by decide +kernel)).2.mp
        (by decide +kernel)
    · trivial
  obtain ⟨hbpm, hreading⟩ := reading_in_range hhistory
  obtain ⟨hnan, hiff⟩ := hreading hrange
  exact ⟨hrange, hbpm, by decide +kernel, hnan, hiff⟩

/-- A tempo that is accepted can be so fast that the reading is infinite a second later. -/
theorem accepted_tempo_overflows :
    let ops : List (Operation Offline Unit) := [.setBpm 1e308, .advance 1000000]
    History (callEvents Conductor.offline ops) ⟨Conductor.offline.applyAll ops, []⟩ ∧
      (Conductor.offline.setBpm 1e308).1 = .ok () ∧
      (Conductor.offline.applyAll ops).now.isFinite = false := by
  intro ops
  exact ⟨Conductor.history_offline_calls (by decide +kernel), by decide +kernel, by decide +kernel⟩

end Cadence
