import Mathlib
import Cadence.Proofs.Continuity
import Cadence.Proofs.Validation

/-!
# How corrections approach a session

Under exact arithmetic a correction takes the clock part of the way to the phase of the session, and never
past it. The phase error is a number modulo the quantum, taken into half a quantum on either side of zero; a
nudge lies between zero and it, so what remains of the error lies there too and needs no wrapping around.

- `phaseDistance_eq`: the phase error, modulo the quantum;
- `Correction.Nudged`: the three ways in which a nudge comes about;
- `Sighting.Meets`: what one correction achieves;
- `Sighting.KeepsPace.error_eq`: against a session that keeps pace, the next error is what the correction
  has left;
- `corrections_approach`: so reconciliation by reconciliation the error shrinks, until it is tolerated.
-/

namespace Cadence

open Number

/-! ## The phase error -/

section Phase

variable {quantum : ℚ} (hquantum : 0 < quantum) (localBeat phase offset : ℚ)

include hquantum

/-- The phase error is the distance between the two phases modulo the quantum, from half a quantum below
zero. -/
theorem phaseDistance_eq :
    phaseDistance localBeat phase offset quantum =
      toIcoMod hquantum (-(quantum / 2)) (phase + offset - localBeat) := by
  -- A position is the number itself modulo the quantum, so it can stand for the number.
  have hcycle (x : ℚ) : Measure.cycle x quantum ≡ x [PMOD quantum] := by
    rw [cycle_eq hquantum]
    exact (toIcoMod_inj hquantum).mp (toIcoMod_toIcoMod hquantum 0 0 x)
  have hdistance : phaseDistance localBeat phase offset quantum =
      toIcoMod hquantum (-(quantum / 2))
        (Measure.cycle (phase + offset) quantum - Measure.cycle localBeat quantum) := by
    rw [toIcoMod_eq_sub, sub_neg_eq_add, ← cycle_eq hquantum]
    exact sub_eq_add_neg _ _
  rw [hdistance]
  exact (toIcoMod_inj hquantum).mpr ((hcycle _).sub (hcycle _))

/-- It leads from the local phase to the target phase. -/
theorem add_phaseDistance_modEq :
    localBeat + phaseDistance localBeat phase offset quantum ≡ phase + offset [PMOD quantum] := by
  have hmod : phaseDistance localBeat phase offset quantum ≡ phase + offset - localBeat
      [PMOD quantum] := by
    rw [phaseDistance_eq hquantum]
    exact (toIcoMod_inj hquantum).mp (toIcoMod_toIcoMod hquantum 0 _ _)
  simpa using hmod.add_left localBeat

/-- It is the short way round. -/
theorem phaseDistance_mem :
    phaseDistance localBeat phase offset quantum ∈ Set.Ico (-(quantum / 2)) (quantum / 2) := by
  have hmem := toIcoMod_mem_Ico hquantum (-(quantum / 2)) (phase + offset - localBeat)
  rwa [← phaseDistance_eq, show -(quantum / 2) + quantum = quantum / 2 by ring] at hmem

variable {localBeat phase offset}

/-- Nothing else is a short way round to the target phase. -/
theorem phaseDistance_unique {error : ℚ} (hmem : error ∈ Set.Ico (-(quantum / 2)) (quantum / 2))
    (hmod : localBeat + error ≡ phase + offset [PMOD quantum]) :
    phaseDistance localBeat phase offset quantum = error := by
  have hself : toIcoMod hquantum (-(quantum / 2)) error = error := by
    rw [toIcoMod_eq_self, show -(quantum / 2) + quantum = quantum / 2 by ring]
    exact hmem
  rw [phaseDistance_eq hquantum, ← hself, toIcoMod_inj]
  simpa using (hmod.sub_right localBeat).symm

end Phase

/-! ## Nudges -/

/-- Rules under which corrections approach the session. -/
structure CorrectionRules.Sound (rules : CorrectionRules ℚ) : Prop where
  /-- The phase error that is left alone is not negative. -/
  tolerance_nonneg : 0 ≤ rules.phaseTolerance
  /-- The gain is above zero. -/
  gain_pos : 0 < rules.gain
  /-- It is at most 1. -/
  gain_le : rules.gain ≤ 1
  /-- The largest correction is above zero. -/
  limit_pos : 0 < rules.limit

/-- The rules that the settings lay down, in exact numbers. -/
def SyncSettings.exactRules (s : SyncSettings) : CorrectionRules ℚ where
  tempoEpsilon := exact s.tempoEpsilon
  phaseTolerance := exact s.phaseTolerance
  gain := exact s.correctionGain
  limit := exact s.maxCorrection
  snap := s.snapAtBarStart

/-- The rules of settings that are in range are sound. -/
theorem SyncSettings.InRange.sound {s : SyncSettings} (h : s.InRange) : s.exactRules.Sound := by
  obtain ⟨htolerance, hnonneg⟩ := Bool.and_eq_true_iff.mp h.phaseTolerance_nonneg
  obtain ⟨hgain, hgainpos⟩ := value_pos_of_isPositive h.gain_pos
  refine ⟨?_, exact_pos hgainpos, ?_, exact_pos (value_pos_of_isPositive h.maxCorrection_pos).2⟩
  · rw [← exact_zero]
    exact exact_le_exact rfl htolerance (of_decide_eq_true hnonneg)
  · rw [← exact_one]
    exact exact_le_exact hgain rfl h.gain_le

namespace Correction

variable {rules : CorrectionRules ℚ} {localBeat error quantum nudge : ℚ}

/-- A number brought between a bound and its opposite. -/
theorem clamp?_eq {x limit : ℚ} (h : 0 < limit) :
    clamp? x (-limit) limit = some (max (-limit) (min x limit)) := by
  unfold clamp?
  rw [if_pos (atMost_iff.mpr (by linarith))]
  simp only [below_iff, Option.some.injEq]
  split_ifs with hlow hhigh
  · rw [max_eq_left ((min_le_left _ _).trans hlow.le)]
  · rw [min_eq_right hhigh.le, max_eq_right (by linarith)]
  · rw [min_eq_left (not_lt.mp hhigh), max_eq_right (not_lt.mp hlow)]

/-- How the nudge for a phase error comes about. -/
inductive Nudged (rules : CorrectionRules ℚ) (localBeat error quantum : ℚ) : ℚ → Prop
  /-- The error is tolerated. -/
  | still (h : |error| ≤ rules.phaseTolerance) : Nudged rules localBeat error quantum 0
  /-- The whole error is corrected, just after a bar line. -/
  | snapped (h : rules.phaseTolerance < |error|) (hsnap : rules.snap = true)
      (hline : Measure.cycle localBeat quantum < barStartWindow) :
      Nudged rules localBeat error quantum error
  /-- A limited fraction of it is corrected. -/
  | limited (h : rules.phaseTolerance < |error|) :
      Nudged rules localBeat error quantum (max (-rules.limit) (min (error * rules.gain) rules.limit))

/-- There is a nudge for every phase error. -/
theorem nudged (hrules : rules.Sound) (localBeat error quantum : ℚ) :
    ∃ nudge, nudge? rules localBeat error quantum = some nudge ∧
      Nudged rules localBeat error quantum nudge := by
  unfold nudge?
  split_ifs with hstill hsnap
  · exact ⟨_, rfl, .still (atMost_iff.mp hstill)⟩
  · obtain ⟨hsnap, hline⟩ := Bool.and_eq_true_iff.mp hsnap
    exact ⟨_, rfl, .snapped (not_le.mp fun h => hstill (atMost_iff.mpr h)) hsnap (below_iff.mp hline)⟩
  · exact ⟨_, clamp?_eq hrules.limit_pos, .limited (not_le.mp fun h => hstill (atMost_iff.mpr h))⟩

/-- A limited fraction of an error lies between zero and it. -/
theorem limited_mem (hrules : rules.Sound) (error : ℚ) :
    max (-rules.limit) (min (error * rules.gain) rules.limit) ∈ Set.uIcc 0 error := by
  obtain ⟨-, hpos, hone, hlimit⟩ := hrules
  rw [Set.mem_uIcc]
  -- Above zero only the upper bound can cut the fraction, below zero only the lower one.
  rcases le_total 0 error with h | h
  · have hfraction : 0 ≤ error * rules.gain := by positivity
    have hle : error * rules.gain ≤ error := mul_le_of_le_one_right h hone
    exact .inl ⟨(le_min hfraction hlimit.le).trans (le_max_right _ _),
      max_le (by linarith) ((min_le_left _ _).trans hle)⟩
  · have hfraction : error * rules.gain ≤ 0 := mul_nonpos_of_nonpos_of_nonneg h hpos.le
    have hle : error ≤ error * rules.gain := by nlinarith
    exact .inr ⟨(le_min hle (by linarith)).trans (le_max_right _ _),
      max_le (by linarith) ((min_le_left _ _).trans hfraction)⟩

/-- Its size is that fraction or the limit, whichever is less. -/
theorem abs_limited (hrules : rules.Sound) (error : ℚ) :
    |max (-rules.limit) (min (error * rules.gain) rules.limit)| =
      min (|error| * rules.gain) rules.limit := by
  obtain ⟨-, hpos, -, hlimit⟩ := hrules
  rcases le_total 0 error with h | h
  · have hfraction : 0 ≤ min (error * rules.gain) rules.limit := by positivity
    rw [max_eq_right (by linarith), abs_of_nonneg hfraction, abs_of_nonneg h]
  · have hfraction : error * rules.gain ≤ 0 := mul_nonpos_of_nonpos_of_nonneg h hpos.le
    rw [min_eq_left (by linarith), abs_of_nonpos (max_le (by linarith) hfraction),
      abs_of_nonpos h, neg_mul, min_comm, ← min_neg_neg, neg_neg]

namespace Nudged

/-- A nudge lies between zero and the phase error. -/
theorem mem_uIcc (hrules : rules.Sound) (h : Nudged rules localBeat error quantum nudge) :
    nudge ∈ Set.uIcc 0 error := by
  cases h with
  | still h => exact Set.left_mem_uIcc
  | snapped h hsnap hline => exact Set.right_mem_uIcc
  | limited h => exact limited_mem hrules error

/-- An error that is not tolerated is corrected by its fraction at least, or by the limit. -/
theorem le_abs (hrules : rules.Sound) (h : Nudged rules localBeat error quantum nudge)
    (herror : rules.phaseTolerance < |error|) : min (|error| * rules.gain) rules.limit ≤ |nudge| := by
  cases h with
  | still h => exact absurd herror (not_lt.mpr h)
  | snapped h hsnap hline =>
    exact (min_le_left _ _).trans (mul_le_of_le_one_right (abs_nonneg _) hrules.gain_le)
  | limited h => exact (abs_limited hrules error).ge

/-- So it is corrected by something. -/
theorem abs_pos (hrules : rules.Sound) (h : Nudged rules localBeat error quantum nudge)
    (herror : rules.phaseTolerance < |error|) : 0 < |nudge| := by
  have herrorpos : 0 < |error| := hrules.tolerance_nonneg.trans_lt herror
  exact (lt_min (mul_pos herrorpos hrules.gain_pos) hrules.limit_pos).trans_le (h.le_abs hrules herror)

/-- There is no nudge exactly when the error is tolerated. -/
theorem eq_zero_iff (hrules : rules.Sound) (h : Nudged rules localBeat error quantum nudge) :
    nudge = 0 ↔ |error| ≤ rules.phaseTolerance := by
  constructor
  · rintro rfl
    by_contra herror
    exact lt_irrefl 0 (abs_zero (α := ℚ) ▸ h.abs_pos hrules (not_le.mp herror))
  · intro herror
    cases h with
    | still => rfl
    | snapped h | limited h => exact absurd herror (not_le.mpr h)

/-- A nudge beyond the limit is the whole error, just after a bar line. -/
theorem of_limit_lt (hrules : rules.Sound) (h : Nudged rules localBeat error quantum nudge)
    (hlimit : rules.limit < |nudge|) :
    rules.snap = true ∧ Measure.cycle localBeat quantum < barStartWindow ∧ nudge = error := by
  cases h with
  | still h =>
    rw [abs_zero] at hlimit
    exact absurd hlimit (not_lt.mpr hrules.limit_pos.le)
  | snapped h hsnap hline => exact ⟨hsnap, hline, rfl⟩
  | limited h =>
    rw [abs_limited hrules] at hlimit
    exact absurd hlimit (not_lt.mpr (min_le_right _ _))

end Nudged

end Correction

/-! ## What lies between -/

section Between

variable {x y : ℚ}

/-- What remains lies between as well. -/
theorem sub_mem_uIcc (h : x ∈ Set.uIcc 0 y) : y - x ∈ Set.uIcc 0 y := by
  rw [Set.mem_uIcc] at h ⊢
  rcases h with ⟨hlow, hhigh⟩ | ⟨hlow, hhigh⟩
  · exact .inl ⟨by linarith, by linarith⟩
  · exact .inr ⟨by linarith, by linarith⟩

/-- What remains is less by the size of what was taken. -/
theorem abs_sub_of_mem_uIcc (h : x ∈ Set.uIcc 0 y) : |y - x| = |y| - |x| := by
  rcases Set.mem_uIcc.mp h with ⟨hlow, hhigh⟩ | ⟨hlow, hhigh⟩
  · rw [abs_of_nonneg (sub_nonneg.mpr hhigh), abs_of_nonneg (hlow.trans hhigh), abs_of_nonneg hlow]
  · rw [abs_of_nonpos (sub_nonpos.mpr hlow), abs_of_nonpos (hlow.trans hhigh), abs_of_nonpos hhigh]
    ring

end Between

/-! ## Corrections carried out -/

/-- Carries out a correction on a timeline: the tempo first, then the nudge. -/
def Cursor.correct {α : Type} [Measure α] (c : Cursor α) (correction : Correction α) : Cursor α :=
  let adopted := match correction.tempo with
    | some bpm => c.timeline.changeTempo c.time.micros bpm
    | none => c.timeline
  { c with timeline := if correction.isStill then adopted else adopted.shift correction.nudge }

/-- The playhead is corrected so, as long as the tempo can be adopted and the nudge is finite. -/
theorem Follower.cursor_applyCorrection (p : Playhead) {correction : Correction Float}
    (htempo : ∀ bpm, correction.tempo = some bpm → isPositive bpm = true)
    (hnudge : correction.nudge.isFinite = true) :
    (applyCorrection p correction).1.cursor = p.cursor.correct correction := by
  rcases correction with ⟨_ | bpm, nudge, error⟩
  · unfold applyCorrection Cursor.correct
    split_ifs with hstill
    · rfl
    · simp only [Playhead.shift, if_pos hnudge]
      rfl
  · have hadopt : (adoptTempo p (some bpm)).1 =
        { p with timeline := p.timeline.changeTempo p.time.micros bpm } := by
      rw [adoptTempo, Playhead.setBpm, checkTempo, if_pos (htempo bpm rfl)]
      rfl
    unfold applyCorrection Cursor.correct
    simp only [hadopt]
    split_ifs with hstill
    · rfl
    · simp only [Playhead.shift, if_pos hnudge]
      rfl

/-- The beat moves by the nudge, whatever tempo is adopted. -/
theorem Cursor.now_correct (c : Cursor ℚ) (correction : Correction ℚ) :
    (c.correct correction).now = c.now + correction.nudge := by
  have hadopted : ∀ t : Timeline ℚ,
      Cursor.now ⟨c.time, if correction.isStill then t else t.shift correction.nudge⟩ =
        Cursor.now ⟨c.time, t⟩ + correction.nudge := by
    intro t
    split_ifs with hstill
    · obtain ⟨hle, hge⟩ := Bool.and_eq_true_iff.mp hstill
      rw [le_antisymm (atMost_iff.mp hle) (atMost_iff.mp hge)]
      exact (add_zero _).symm
    · exact add_right_comm _ _ _
  unfold correct
  rw [hadopted]
  cases correction.tempo with
  | none => rfl
  | some bpm => exact congrArg (· + correction.nudge) (c.now_changeTempo bpm)

/-! ## Reconciliations -/

/-- What a reconciliation finds: the clock, and the session to move towards. -/
structure Sighting where
  /-- The clock. -/
  clock : Cursor ℚ
  /-- The session. -/
  target : CorrectionTarget ℚ

namespace Sighting

variable {rules : CorrectionRules ℚ} {s s' : Sighting} {c : Correction ℚ}

/-- The correction that is worked out. -/
def plan? (rules : CorrectionRules ℚ) (s : Sighting) : Option (Correction ℚ) :=
  Correction.plan? rules s.clock.timeline.bpm s.clock.now s.target

/-- The phase error. -/
def error (s : Sighting) : ℚ :=
  phaseDistance s.clock.now s.target.phase s.target.offset s.target.quantum

/-- What a correction achieves. -/
structure Meets (rules : CorrectionRules ℚ) (s : Sighting) (c : Correction ℚ) : Prop where
  /-- It is worked out for the phase error that was found. -/
  found : c.phaseError = s.error
  /-- The phase error leads to the target phase. -/
  leads : s.clock.now + c.phaseError ≡ s.target.phase + s.target.offset [PMOD s.target.quantum]
  /-- It is the short way round. -/
  short : c.phaseError ∈ Set.Ico (-(s.target.quantum / 2)) (s.target.quantum / 2)
  /-- The nudge goes in its direction, and no further. -/
  between : c.nudge ∈ Set.uIcc 0 c.phaseError
  /-- There is none exactly when the error is tolerated. -/
  still_iff : c.nudge = 0 ↔ |c.phaseError| ≤ rules.phaseTolerance
  /-- It is beyond the limit only as the whole error just after a bar line. -/
  beyond : rules.limit < |c.nudge| → rules.snap = true ∧
    Measure.cycle s.clock.now s.target.quantum < barStartWindow ∧ c.nudge = c.phaseError
  /-- What remains of the error is the phase error of the clock that was nudged. -/
  remains : phaseDistance (s.clock.now + c.nudge) s.target.phase s.target.offset s.target.quantum =
    c.phaseError - c.nudge

/-- There is a correction, with the phase error of what was found. -/
theorem planned (hrules : rules.Sound) (s : Sighting) :
    ∃ c, s.plan? rules = some c ∧ c.phaseError = s.error ∧
      Correction.Nudged rules s.clock.now s.error s.target.quantum c.nudge := by
  obtain ⟨nudge, hnudge, hnudged⟩ :=
    Correction.nudged hrules s.clock.now s.error s.target.quantum
  change ∃ c, (Correction.nudge? rules s.clock.now s.error s.target.quantum).map _ = some c ∧ _
  rw [hnudge]
  exact ⟨_, rfl, rfl, hnudged⟩

/-- What remains of a phase error is the short way round too. -/
theorem sub_nudge_mem (hquantum : 0 < s.target.quantum) {nudge : ℚ}
    (h : nudge ∈ Set.uIcc 0 s.error) :
    s.error - nudge ∈ Set.Ico (-(s.target.quantum / 2)) (s.target.quantum / 2) := by
  have hzero : (0 : ℚ) ∈ Set.Ico (-(s.target.quantum / 2)) (s.target.quantum / 2) :=
    ⟨by linarith, by linarith⟩
  exact Set.ordConnected_Ico.uIcc_subset hzero (phaseDistance_mem hquantum _ _ _) (sub_mem_uIcc h)

theorem meets (hrules : rules.Sound) (hquantum : 0 < s.target.quantum)
    (herror : c.phaseError = s.error)
    (h : Correction.Nudged rules s.clock.now s.error s.target.quantum c.nudge) : s.Meets rules c := by
  have hbetween := h.mem_uIcc hrules
  have hleads : s.clock.now + s.error ≡ s.target.phase + s.target.offset [PMOD s.target.quantum] :=
    add_phaseDistance_modEq hquantum _ _ _
  rw [← herror] at h hbetween hleads
  refine ⟨herror, hleads, ?_, hbetween, h.eq_zero_iff hrules, h.of_limit_lt hrules, ?_⟩
  · rw [herror]
    exact phaseDistance_mem hquantum _ _ _
  · refine phaseDistance_unique hquantum ?_ ?_
    · rw [herror] at hbetween ⊢
      exact sub_nudge_mem hquantum hbetween
    · rwa [add_assoc, add_sub_cancel]

/-- The next reconciliation finds the clock corrected, some time later, and a session that has moved on by as
many beats as the clock has since. -/
structure KeepsPace (rules : CorrectionRules ℚ) (s s' : Sighting) : Prop where
  /-- The phase has moved on with the corrected clock. -/
  phase : ∃ c, s.plan? rules = some c ∧ s'.target.phase ≡
    s.target.phase + (s'.clock.now - (s.clock.correct c).now) [PMOD s.target.quantum]
  /-- The offset is the same. -/
  offset : s'.target.offset = s.target.offset
  /-- The quantum is the same. -/
  quantum : s'.target.quantum = s.target.quantum

/-- What the correction has left of the error is found next. -/
theorem KeepsPace.error_eq (hrules : rules.Sound) (hquantum : 0 < s.target.quantum)
    (h : KeepsPace rules s s') :
    ∃ nudge, Correction.Nudged rules s.clock.now s.error s.target.quantum nudge ∧
      s'.error = s.error - nudge := by
  obtain ⟨c, hplan, hphase⟩ := h.phase
  obtain ⟨planned, hplanned, herror, hnudged⟩ := s.planned hrules
  obtain rfl : c = planned := Option.some.inj (hplan.symm.trans hplanned)
  refine ⟨c.nudge, hnudged, ?_⟩
  unfold error
  rw [h.offset, h.quantum]
  refine phaseDistance_unique hquantum (sub_nudge_mem hquantum (hnudged.mem_uIcc hrules)) ?_
  -- Both sides have moved on by as many beats, apart from the nudge.
  rw [Cursor.now_correct] at hphase
  have hleads := (s.meets hrules hquantum herror hnudged).leads
  rw [herror] at hleads
  calc s'.clock.now + (s.error - c.nudge)
    _ = s.clock.now + s.error + (s'.clock.now - (s.clock.now + c.nudge)) := by ring
    _ ≡ s.target.phase + s.target.offset + (s'.clock.now - (s.clock.now + c.nudge))
        [PMOD s.target.quantum] := hleads.add_right _
    _ = s.target.phase + (s'.clock.now - (s.clock.now + c.nudge)) + s.target.offset := by ring
    _ ≡ s'.target.phase + s.target.offset [PMOD s.target.quantum] := hphase.symm.add_right _

section Step

variable (hrules : rules.Sound) (hquantum : 0 < s.target.quantum) (h : KeepsPace rules s s')

include hrules hquantum h

/-- The next error lies between zero and the one before. -/
theorem KeepsPace.error_mem : s'.error ∈ Set.uIcc 0 s.error := by
  obtain ⟨nudge, hnudged, heq⟩ := h.error_eq hrules hquantum
  rw [heq]
  exact sub_mem_uIcc (hnudged.mem_uIcc hrules)

/-- An error that is tolerated stays as it is. -/
theorem KeepsPace.error_of_tolerated (herror : |s.error| ≤ rules.phaseTolerance) :
    s'.error = s.error := by
  obtain ⟨nudge, hnudged, heq⟩ := h.error_eq hrules hquantum
  rw [heq, (hnudged.eq_zero_iff hrules).mpr herror, sub_zero]

/-- Any other error shrinks by its fraction at least, or by the limit. -/
theorem KeepsPace.abs_error_le (herror : rules.phaseTolerance < |s.error|) :
    |s'.error| ≤ |s.error| - min (|s.error| * rules.gain) rules.limit := by
  obtain ⟨nudge, hnudged, heq⟩ := h.error_eq hrules hquantum
  rw [heq, abs_sub_of_mem_uIcc (hnudged.mem_uIcc hrules)]
  linarith [hnudged.le_abs hrules herror]

/-- So it becomes strictly less. -/
theorem KeepsPace.abs_error_lt (herror : rules.phaseTolerance < |s.error|) :
    |s'.error| < |s.error| := by
  have hpos : 0 < |s.error| := hrules.tolerance_nonneg.trans_lt herror
  have hshrinks : 0 < min (|s.error| * rules.gain) rules.limit :=
    lt_min (mul_pos hpos hrules.gain_pos) hrules.limit_pos
  linarith [h.abs_error_le hrules hquantum herror]

end Step

/-- So many reconciliations lead from what the first one finds to what is found after the last. -/
inductive Follows (rules : CorrectionRules ℚ) (s : Sighting) : ℕ → Sighting → Prop
  /-- No reconciliation yet. -/
  | start : Follows rules s 0 s
  /-- One more reconciliation. -/
  | next {n : ℕ} {last later : Sighting} (h : Follows rules s n last)
      (hpace : KeepsPace rules last later) : Follows rules s (n + 1) later

namespace Follows

variable {n : ℕ} {later : Sighting}

theorem quantum (h : Follows rules s n later) : later.target.quantum = s.target.quantum := by
  induction h with
  | start => rfl
  | next h hpace ih => exact hpace.quantum.trans ih

/-- The error stays between zero and what it was at first. -/
theorem error_mem (hrules : rules.Sound) (hquantum : 0 < s.target.quantum)
    (h : Follows rules s n later) : later.error ∈ Set.uIcc 0 s.error := by
  induction h with
  | start => exact Set.right_mem_uIcc
  | next h hpace ih =>
    have hlater := hpace.error_mem hrules (h.quantum.symm ▸ hquantum)
    exact Set.uIcc_subset_uIcc Set.left_mem_uIcc ih hlater

/-- As long as the error is not tolerated, every reconciliation has taken a fraction of the tolerance off it,
or the limit. -/
theorem mul_le (hrules : rules.Sound) (hquantum : 0 < s.target.quantum)
    (h : Follows rules s n later) (herror : rules.phaseTolerance < |later.error|) :
    n * min (rules.phaseTolerance * rules.gain) rules.limit ≤ |s.error| - |later.error| := by
  induction h with
  | start => simp
  | @next n last later h hpace ih =>
    have hlast : 0 < last.target.quantum := h.quantum.symm ▸ hquantum
    -- An error that is tolerated would have stayed so.
    have hbefore : rules.phaseTolerance < |last.error| := by
      by_contra htolerated
      rw [hpace.error_of_tolerated hrules hlast (not_lt.mp htolerated)] at herror
      exact htolerated herror
    have hstep := hpace.abs_error_le hrules hlast hbefore
    have hfraction : min (rules.phaseTolerance * rules.gain) rules.limit ≤
        min (|last.error| * rules.gain) rules.limit :=
      min_le_min_right _ (mul_le_mul_of_nonneg_right hbefore.le hrules.gain_pos.le)
    push_cast
    linarith [ih hbefore]

end Follows

end Sighting

/-- With the rules of settings that were validated, under exact arithmetic. There is a correction for whatever
a reconciliation finds; its phase error is the short way round to the target phase, and its nudge goes there
and no further, stands still exactly when the error is tolerated, keeps to the limit unless it snaps to the
phase just after a bar line, and leaves the rest of the error. So while the session keeps pace, the error stays
between zero and what it was at first. Each reconciliation makes it strictly less until it is tolerated, and
leaves it alone from then on; those before that have each taken off a fraction of the tolerance, or the
limit. -/
theorem corrections_approach (settings : SyncSettings) {s : Sighting}
    (hquantum : 0 < s.target.quantum) :
    let rules := settings.validate.value.exactRules
    (∃ c, s.plan? rules = some c ∧ s.Meets rules c) ∧
      ∀ n last, Sighting.Follows rules s n last →
        last.error ∈ Set.uIcc 0 s.error ∧
          (∀ later, Sighting.KeepsPace rules last later →
            if |last.error| ≤ rules.phaseTolerance then later.error = last.error
            else |later.error| < |last.error|) ∧
          (rules.phaseTolerance < |last.error| →
            n * min (rules.phaseTolerance * rules.gain) rules.limit ≤ |s.error| - |last.error|) := by
  intro rules
  -- All that the settings are needed for: whatever they were, validation has made their rules sound.
  have hrules : rules.Sound := settings.validate_inRange.sound
  refine ⟨?_, fun n last h => ⟨h.error_mem hrules hquantum, fun later hpace => ?_,
    h.mul_le hrules hquantum⟩⟩
  · obtain ⟨c, hplan, herror, hnudged⟩ := s.planned hrules
    exact ⟨c, hplan, s.meets hrules hquantum herror hnudged⟩
  · have hlast : 0 < last.target.quantum := h.quantum.symm ▸ hquantum
    split_ifs with herror
    · exact hpace.error_of_tolerated hrules hlast herror
    · exact hpace.abs_error_lt hrules hlast (not_le.mp herror)

/-- A clock at beat 1 and a session at beat 2, with the settings that hold when nobody says otherwise: the
error is a beat and a half, and one reconciliation later it is less. -/
theorem default_corrections_approach :
    let rules := ({} : SyncSettings).validate.value.exactRules
    let s : Sighting := ⟨⟨⟨0⟩, ⟨120, 0, 1⟩⟩, ⟨120, 2, 1 / 2, 4⟩⟩
    ∃ c later, s.plan? rules = some c ∧ s.Meets rules c ∧ c.phaseError = 3 / 2 ∧
      Sighting.Follows rules s 1 later ∧ |later.error| < |s.error| := by
  intro rules s
  have hquantum : 0 < s.target.quantum := by norm_num [s]
  have hnow : s.clock.now = 1 := by
    rw [Cursor.now_eq]
    norm_num [s, Segment.beats, Segment.elapsed]
  have herror : s.error = 3 / 2 := by
    rw [Sighting.error, hnow]
    refine phaseDistance_unique hquantum (by norm_num [s]) ?_
    rw [show (1 : ℚ) + 3 / 2 = s.target.phase + s.target.offset by norm_num [s]]
  have htolerated : rules.phaseTolerance ≤ 1 := by
    rw [← exact_one]
    exact exact_le_exact (by decide +kernel) (by decide +kernel) (by decide +kernel)
  obtain ⟨⟨c, hplan, hmeets⟩, hrun⟩ := corrections_approach {} hquantum
  -- The session waits for the clock to be corrected.
  have hpace : Sighting.KeepsPace rules s ⟨s.clock.correct c, s.target⟩ :=
    ⟨⟨c, hplan, by rw [sub_self, add_zero]⟩, rfl, rfl⟩
  refine ⟨c, _, hplan, hmeets, hmeets.found.trans herror, .next .start hpace, ?_⟩
  have hless := (hrun 0 s .start).2.1 _ hpace
  rwa [if_neg (by rw [herror, abs_of_pos] <;> linarith)] at hless

end Cadence
