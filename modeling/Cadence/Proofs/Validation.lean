import Mathlib
import Cadence.Config.Validate
import Cadence.Proofs.Failures
import Cadence.Proofs.Refusal

/-!
# Configurations that were validated

Whatever a configuration holds, undefined numbers and infinities included, validation brings it into the
ranges that the clock relies on. A configuration that is in them already is kept as it is, so validating a
second time finds nothing to say.

- `Config.InRange`: the ranges, one section at a time;
- `Config.Usable`: what the clock relies on;
- `Config.InRange.usable`: it can rely on it for every configuration that is in range;
- `Config.validate_inRange`, `Config.validate_of_inRange`: validation ends in the ranges, and leaves alone
  what is in them.
-/

namespace Cadence

open Number

variable {σ β : Type}

/-! ## Ranges -/

/-- A tempo between 1 and 999, and a first beat that is finite. -/
structure ClockSettings.InRange (s : ClockSettings) : Prop where
  /-- The tempo is finite. -/
  tempo_finite : s.tempo.isFinite = true
  /-- It is at least 1. -/
  one_le_tempo : 1.0 ≤ s.tempo
  /-- It is at most 999. -/
  tempo_le : s.tempo ≤ 999.0
  /-- The first beat is finite. -/
  startBeat_finite : s.startBeat.isFinite = true

/-- Some microseconds between two ticks, but no more than a tenth of a second, and an active wait that fits
in between. -/
structure DriverSettings.InRange (s : DriverSettings) : Prop where
  /-- The tick interval is at least one microsecond. -/
  one_le_tick : 1 ≤ s.tickIntervalMicros
  /-- It is at most a tenth of a second. -/
  tick_le : s.tickIntervalMicros ≤ 100000
  /-- The active wait is no longer. -/
  activeWait_le : s.activeWaitMicros ≤ s.tickIntervalMicros

/-- Numbers that a reconciliation can work with. -/
structure SyncSettings.InRange (s : SyncSettings) : Prop where
  /-- The phase offset is finite. -/
  phaseOffset_finite : s.phaseOffset.isFinite = true
  /-- The interval between two reconciliations is finite and above zero. -/
  resyncInterval_pos : isPositive s.resyncInterval = true
  /-- The quantum is finite and above zero, if there is one. -/
  quantum_pos : ∀ quantum, s.quantum = some quantum → isPositive quantum = true
  /-- The tempo difference that is left alone is finite and not negative. -/
  tempoEpsilon_nonneg : isNonNegative s.tempoEpsilon = true
  /-- The phase error that is left alone is finite and not negative. -/
  phaseTolerance_nonneg : isNonNegative s.phaseTolerance = true
  /-- The gain is finite and above zero. -/
  gain_pos : isPositive s.correctionGain = true
  /-- It is at most 1. -/
  gain_le : s.correctionGain ≤ 1.0
  /-- The largest correction is finite and above zero. -/
  maxCorrection_pos : isPositive s.maxCorrection = true
  /-- There is a warning after at least one failure. -/
  one_le_threshold : 1 ≤ s.failureWarnThreshold

/-- Every section is in range. Nothing in the log's section can be out of it. -/
structure Config.InRange (c : Config) : Prop where
  /-- The start of the timeline. -/
  clock : c.clock.InRange
  /-- The driver loop. -/
  driver : c.driver.InRange
  /-- Following a session. -/
  sync : c.sync.InRange

/-! ## Repairs of one value -/

section Repair

variable {α : Type} {value fallback : α}

/-- A repaired value is in range if the fallback is. -/
theorem Repaired.check_valid (valid : α → Bool) (hfallback : valid fallback = true) (warning : String) :
    valid (Repaired.check (valid value) value fallback warning).value = true := by
  unfold Repaired.check
  split_ifs with h
  · exact h
  · exact hfallback

/-- A value in range is kept, with nothing to say. -/
theorem Repaired.check_of_valid {inRange : Bool} (h : inRange = true) (warning : String) :
    Repaired.check inRange value fallback warning = ⟨value, []⟩ := by
  rw [Repaired.check, if_pos h]

/-- A value that is quietly repaired is in range if the fallback is. -/
theorem keepOr_valid (valid : α → Bool) (hfallback : valid fallback = true) :
    valid (keepOr (valid value) value fallback) = true := by
  unfold keepOr
  split_ifs with h
  · exact h
  · exact hfallback

/-- A value in range is kept. -/
theorem keepOr_of_valid {inRange : Bool} (h : inRange = true) :
    keepOr inRange value fallback = value := by
  rw [keepOr, if_pos h]

end Repair

/-- The smaller of a number and one that is not below it is the number. -/
theorem smaller_of_le {x y : Float} (h : x ≤ y) : smaller x y = x := by
  have hnan : x.isNaN = false := (le_iff.mp h).1
  rw [smaller, if_neg (Bool.eq_false_iff.mp hnan), if_neg (not_lt_of_le h)]

/-- A gain above zero that is cut down to 1 is still above zero. -/
theorem smaller_one {gain : Float} (h : isPositive gain = true) :
    isPositive (smaller gain 1.0) = true ∧ smaller gain 1.0 ≤ 1.0 := by
  have hnan : gain.isNaN = false := isNaN_of_isFinite (value_pos_of_isPositive h).1
  rw [smaller, if_neg (Bool.eq_false_iff.mp hnan)]
  split_ifs with hbelow
  · exact ⟨by decide +kernel, by decide +kernel⟩
  · exact ⟨h, le_of_not_lt rfl hnan hbelow⟩

/-! ## Sections -/

namespace ClockSettings

theorem inRange_iff (s : ClockSettings) :
    s.InRange ↔ (s.tempo.isFinite && 1.0 ≤ s.tempo && s.tempo ≤ 999.0) = true ∧
      s.startBeat.isFinite = true := by
  simp only [Bool.and_eq_true, decide_eq_true_eq]
  exact ⟨fun h => ⟨⟨⟨h.tempo_finite, h.one_le_tempo⟩, h.tempo_le⟩, h.startBeat_finite⟩,
    fun ⟨⟨⟨hfinite, hlow⟩, hhigh⟩, hbeat⟩ => ⟨hfinite, hlow, hhigh, hbeat⟩⟩

theorem validate_inRange (s : ClockSettings) : s.validate.value.InRange :=
  (inRange_iff _).mpr
    ⟨Repaired.check_valid (fun x : Float => x.isFinite && 1.0 ≤ x && x ≤ 999.0)
      (by decide +kernel) _, Repaired.check_valid Float.isFinite (by decide +kernel) _⟩

theorem validate_of_inRange {s : ClockSettings} (h : s.InRange) : s.validate = ⟨s, []⟩ := by
  obtain ⟨htempo, hbeat⟩ := (inRange_iff s).mp h
  unfold validate
  simp only [Repaired.check_of_valid htempo, Repaired.check_of_valid hbeat, List.append_nil]

end ClockSettings

namespace DriverSettings

theorem inRange_iff (s : DriverSettings) :
    s.InRange ↔ (0 < s.tickIntervalMicros && s.tickIntervalMicros ≤ 100000) = true ∧
      s.activeWaitMicros ≤ s.tickIntervalMicros := by
  simp only [Bool.and_eq_true, decide_eq_true_eq]
  have hpos : 1 ≤ s.tickIntervalMicros ↔ 0 < s.tickIntervalMicros := by
    rw [UInt64.le_iff_toNat_le, UInt64.lt_iff_toNat_lt]
    exact Nat.succ_le_iff
  exact ⟨fun h => ⟨⟨hpos.mp h.one_le_tick, h.tick_le⟩, h.activeWait_le⟩,
    fun ⟨⟨hlow, hhigh⟩, hwait⟩ => ⟨hpos.mpr hlow, hhigh, hwait⟩⟩

theorem validate_inRange (s : DriverSettings) : s.validate.value.InRange :=
  (inRange_iff _).mpr
    ⟨Repaired.check_valid (fun x : UInt64 => 0 < x && x ≤ 100000) (by decide) _,
      Std.min_le_right⟩

theorem validate_of_inRange {s : DriverSettings} (h : s.InRange) : s.validate = ⟨s, []⟩ := by
  obtain ⟨htick, hwait⟩ := (inRange_iff s).mp h
  unfold validate
  simp only [Repaired.check_of_valid htick, Std.LawfulOrderLeftLeaningMin.min_eq_left _ _ hwait]

end DriverSettings

namespace SyncSettings

theorem validate_inRange (s : SyncSettings) : s.validate.value.InRange where
  phaseOffset_finite := Repaired.check_valid Float.isFinite (by decide +kernel) _
  resyncInterval_pos := Repaired.check_valid isPositive (by decide +kernel) _
  quantum_pos quantum h := by
    cases hquantum : s.quantum with
    | none => simp [validate, hquantum] at h
    | some asked =>
      simp only [validate, hquantum, Repaired.check] at h
      split_ifs at h with hpos
      cases h
      exact hpos
  tempoEpsilon_nonneg := keepOr_valid isNonNegative (by decide +kernel)
  phaseTolerance_nonneg := keepOr_valid isNonNegative (by decide +kernel)
  gain_pos := (smaller_one (Repaired.check_valid isPositive (by decide +kernel) _)).1
  gain_le := (smaller_one (Repaired.check_valid isPositive (by decide +kernel) _)).2
  maxCorrection_pos := Repaired.check_valid isPositive (by decide +kernel) _
  one_le_threshold := by
    change 1 ≤ if s.failureWarnThreshold = 0 then 1 else s.failureWarnThreshold
    split_ifs with h
    -- A threshold of zero becomes 1.
    rw [UInt32.le_iff_toNat_le]
    exact Nat.one_le_iff_ne_zero.mpr fun hzero => h (UInt32.toNat_inj.mp hzero)

theorem validate_of_inRange {s : SyncSettings} (h : s.InRange) : s.validate = ⟨s, []⟩ := by
  have hthreshold : s.failureWarnThreshold ≠ 0 := by
    intro hzero
    have hle := h.one_le_threshold
    rw [hzero] at hle
    exact absurd hle (by decide)
  unfold validate
  simp only [Repaired.check_of_valid h.phaseOffset_finite,
    Repaired.check_of_valid h.resyncInterval_pos, Repaired.check_of_valid h.gain_pos,
    Repaired.check_of_valid h.maxCorrection_pos, keepOr_of_valid h.tempoEpsilon_nonneg,
    keepOr_of_valid h.phaseTolerance_nonneg, smaller_of_le h.gain_le, if_neg hthreshold,
    List.append_nil]
  -- A quantum is checked only if there is one.
  split
  case h_1 hquantum =>
    rw [← hquantum]
    rfl
  case h_2 quantum hquantum =>
    rw [Repaired.check_of_valid (h.quantum_pos quantum hquantum), ← hquantum]
    rfl

end SyncSettings

/-! ## Whole configurations -/

namespace Config

/-- Validation ends in the ranges. -/
theorem validate_inRange (c : Config) : c.validate.value.InRange :=
  ⟨c.clock.validate_inRange, c.driver.validate_inRange, c.sync.validate_inRange⟩

/-- It leaves alone what is in the ranges, and has nothing to say. -/
theorem validate_of_inRange {c : Config} (h : c.InRange) : c.validate = ⟨c, []⟩ := by
  unfold validate
  simp only [ClockSettings.validate_of_inRange h.clock, DriverSettings.validate_of_inRange h.driver,
    SyncSettings.validate_of_inRange h.sync, List.append_nil]

/-- What the clock relies on. -/
structure Usable (c : Config) : Prop where
  /-- A clock can be created with it, at any date and over any transport. -/
  starts : ∀ {σ β : Type} (time : WallTime) (session : σ),
    ∃ conductor : Conductor σ β, Conductor.create c time session = .ok conductor
  /-- When the session is joined with its offset and interval, nothing is refused but by the session. -/
  joins : ∀ {σ β : Type} [Transport σ] (conductor : Conductor σ β) {fault : Fault},
    (conductor.enableSync c.sync.phaseOffset c.sync.resyncInterval).1 = .error fault →
      ∃ reason, fault = .syncUnavailable reason
  /-- There is a correction for every phase, whatever numbers the two sides report. -/
  corrects : ∀ (localBpm localBeat : Float) (target : CorrectionTarget Float),
    ∃ correction, Correction.plan? c.sync.rules localBpm localBeat target = some correction

end Config

/-! ## What the clock relies on -/

/-- A playhead starts at any finite beat under any tempo that is finite and above zero. -/
theorem Playhead.start_of_valid {bpm beat : Float} (hbpm : isPositive bpm = true)
    (hbeat : beat.isFinite = true) (time : WallTime) (meter : Meter) :
    Playhead.start time bpm meter beat = .ok ⟨time, ⟨bpm, time.micros, beat⟩, meter⟩ := by
  rw [Playhead.start, checkTempo, if_pos hbpm, checkBeat, if_pos hbeat]
  rfl

/-- Joining with a finite offset and an interval above zero is refused only by the session. -/
theorem Follower.fault_enable [Transport σ] {f : Follower σ} {p : Playhead} {offset interval : Float}
    {fault : Fault} (hoffset : offset.isFinite = true) (hinterval : isPositive interval = true)
    (h : (f.enable p offset interval).answer = .error fault) :
    ∃ reason, fault = .syncUnavailable reason := by
  unfold enable at h
  rw [checkPeriod, if_pos hinterval] at h
  simp only [hoffset, Bool.not_true, Bool.false_eq_true, if_false] at h
  cases hfollowing : f.following with
  | some following =>
    rw [hfollowing] at h
    cases h
  | none =>
    rw [hfollowing] at h
    simp only [join] at h
    split at h
    · cases h
      exact ⟨_, rfl⟩
    · cases h

namespace Config

/-- The clock can rely on every configuration that is in range. -/
theorem InRange.usable {c : Config} (h : c.InRange) : c.Usable where
  starts time session := by
    have hpos : isPositive c.clock.tempo = true :=
      Bool.and_eq_true_iff.mpr ⟨h.clock.tempo_finite, decide_eq_true <|
        below_of_below_of_atMost (by decide +kernel : (0.0 : Float) < 1.0) h.clock.one_le_tempo⟩
    simp only [Conductor.create, Playhead.start_of_valid hpos h.clock.startBeat_finite]
    exact ⟨_, rfl⟩
  joins conductor fault hfault := by
    rw [Conductor.enableSync_answer] at hfault
    exact Follower.fault_enable h.sync.phaseOffset_finite h.sync.resyncInterval_pos hfault
  corrects localBpm localBeat target := by
    have hlimit : 0.0 ≤ c.sync.rules.limit :=
      atMost_of_below (of_decide_eq_true (Bool.and_eq_true_iff.mp h.sync.maxCorrection_pos).2)
    exact Option.isSome_iff_exists.mp (Correction.plan?_isSome hlimit localBpm localBeat target)

/-- Validation brings any configuration into the ranges, and so to one that the clock can rely on. It keeps
a configuration that is in the ranges, and says nothing about it. So validating twice gives what validating
once gives, and nothing is said the second time. -/
theorem validated_usable (c : Config) :
    c.validate.value.InRange ∧ c.validate.value.Usable ∧
      (c.InRange → c.validate.value = c ∧ c.validate.messages = []) ∧
      c.validate.value.validate.value = c.validate.value ∧
      c.validate.value.validate.messages = [] := by
  have hrange := c.validate_inRange
  refine ⟨hrange, hrange.usable, fun h => ?_, ?_⟩
  · rw [validate_of_inRange h]
    exact ⟨rfl, rfl⟩
  · rw [validate_of_inRange hrange]
    exact ⟨rfl, rfl⟩

/-- Settings at the ends of their ranges are kept, and of settings that are out of range each is replaced. -/
theorem settings_kept_and_replaced :
    let kept : Config :=
      { clock := { tempo := 999.0, startBeat := -8.0 }
        driver := { tickIntervalMicros := 500, activeWaitMicros := 500 }
        sync := { quantum := some 2.0, correctionGain := 1.0, failureWarnThreshold := 1 } }
    let replaced : Config :=
      { clock := { tempo := 0.0 / 0.0 }
        driver := { tickIntervalMicros := 250, activeWaitMicros := 300 }
        sync := { quantum := some (-4.0), correctionGain := 7.5, failureWarnThreshold := 0 } }
    kept.InRange ∧ kept.validate.value = kept ∧ kept.validate.messages = [] ∧
      replaced.validate.value.InRange ∧ replaced.validate.value.Usable ∧ replaced.validate.value =
        { driver := { tickIntervalMicros := 250, activeWaitMicros := 250 }
          sync := { correctionGain := 1.0, failureWarnThreshold := 1 } } := by
  intro kept replaced
  have hkept : kept.validate.value = kept := by decide +kernel
  have hrange : kept.InRange := hkept ▸ kept.validate_inRange
  obtain ⟨hvalue, hmessages⟩ := (validated_usable kept).2.2.1 hrange
  obtain ⟨hreplaced, husable, -⟩ := validated_usable replaced
  exact ⟨hrange, hvalue, hmessages, hreplaced, husable, by decide +kernel⟩

end Config

end Cadence
