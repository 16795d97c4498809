import Mathlib
import Cadence.Proofs.Bar
import Cadence.Proofs.Run.Playhead

/-!
# How far a reconciliation takes the clock back

A reconciliation can move the clock back, by a nudge towards the phase of the session. The phase error is
the short way round, so it is no more than half the bar over which the phase is aligned, and a nudge is the
whole of the error, a fraction of it, or less. The main statements are:

- `neg_half_le_phaseDistance`: the phase error is no further below zero than half a bar;
- `Correction.neg_half_le_nudge?`: neither is a nudge, if the gain is at most 1;
- `Follower.now_le_reconcileIfDue`: so far a reconciliation can take the playhead back, and no further.
-/

namespace Cadence

open Number

/-! ## The phase error -/

/-- The phase error is no further below zero than half a bar. -/
theorem neg_half_le_phaseDistance {localBeat phase offset quantum : Float}
    (hquantum : quantum.isFinite = true) (hhalf : (quantum / 2.0).isFinite = true)
    (h : (phaseDistance localBeat phase offset quantum).isNaN = false) :
    -(quantum / 2.0) ≤ phaseDistance localBeat phase offset quantum := by
  unfold phaseDistance at h ⊢
  change (cycleRemainder _ quantum - quantum / 2.0).isNaN = false at h
  change -(quantum / 2.0) ≤ cycleRemainder _ quantum - quantum / 2.0
  generalize Measure.cycle (phase + offset) quantum - Measure.cycle localBeat quantum +
    quantum / Measure.ofNat 2 = x at h ⊢
  -- The position is defined if the distance is.
  have hcycle : (cycleRemainder x quantum).isNaN = false := by
    by_contra hnan
    rw [isNaN_sub (Bool.not_eq_false _ ▸ hnan)] at h
    cases h
  have hle := difference_le_difference (cycleRemainder_nonneg hquantum hcycle) hhalf
  -- Half a bar below zero is what is left of a position of zero.
  refine atMost_trans ?_ hle
  obtain ⟨hneg, hvalue⟩ := value_neg hhalf
  obtain ⟨hplace, hnan⟩ := place_sub (x := 0.0) rfl hhalf
  refine le_iff.mpr ⟨isNaN_of_isFinite hneg, hnan, ?_⟩
  rw [hplace, ← rounded_value hneg, hvalue, value_zero, zero_sub]

/-! ## The nudge -/

/-- A number that is brought between two opposite bounds is no further below zero than it was. -/
theorem le_clamp? {bound x limit r : Float} (h : clamp? x (-limit) limit = some r)
    (hbound : bound ≤ 0.0) (hx : x.isNaN = false → bound ≤ x) (hr : r.isNaN = false) : bound ≤ r := by
  unfold clamp? at h
  split_ifs at h with hlimits hlow hhigh
  · cases h
    have hlow : x < -limit := of_decide_eq_true hlow
    exact atMost_trans (hx (lt_iff.mp hlow).1) (atMost_of_below hlow)
  -- A limit that is not below its negation is not below zero.
  · cases h
    have hlimits : -limit ≤ limit := of_decide_eq_true hlimits
    refine atMost_trans hbound (le_iff.mpr ⟨rfl, hr, ?_⟩)
    have hplace := (le_iff.mp hlimits).2.2
    rw [(place_neg hr).1] at hplace
    rw [place_zero]
    by_contra hbelow
    exact hbelow ((EReal.neg_nonneg.mpr (not_le.mp hbelow).le).trans hplace)
  · cases h
    exact hx hr

namespace Correction

variable {rules : CorrectionRules Float} {localBeat error quantum nudge : Float}

/-- A nudge is no further below zero than half a bar if the phase error is not, and the gain is at most
1. -/
theorem neg_half_le_nudge? (hgain : isPositive rules.gain = true) (hone : rules.gain ≤ 1.0)
    (hhalf : (quantum / 2.0).isFinite = true) (hnonneg : 0 ≤ value (quantum / 2.0))
    (herror : error.isNaN = false → -(quantum / 2.0) ≤ error)
    (h : nudge? rules localBeat error quantum = some nudge) (hnudge : nudge.isNaN = false) :
    -(quantum / 2.0) ≤ nudge := by
  obtain ⟨hfinite, hpos⟩ := value_pos_of_isPositive hgain
  obtain ⟨hneg, hvalue⟩ := value_neg hhalf
  have hzero : -(quantum / 2.0) ≤ 0.0 := by
    refine le_iff.mpr ⟨isNaN_of_isFinite hneg, rfl, ?_⟩
    rw [place_zero, place_eq_value hneg, hvalue]
    exact_mod_cast neg_nonpos.mpr hnonneg
  -- Nothing, the whole error, or a limited fraction of it.
  unfold nudge? at h
  split_ifs at h
  · cases h
    exact hzero
  · cases h
    exact herror hnudge
  · refine le_clamp? h hzero (fun hproduct => ?_) hnudge
    have hnan : error.isNaN = false := by
      by_contra hnan
      rw [isNaN_mul (Bool.not_eq_false _ ▸ hnan)] at hproduct
      cases hproduct
    refine atMost_trans ?_ (product_le_product (herror hnan) hfinite hpos)
    -- A fraction of half a bar is no more than half a bar.
    obtain ⟨hplace, hproductnan⟩ := place_mul hneg hfinite
    refine le_iff.mpr ⟨isNaN_of_isFinite hneg, hproductnan, ?_⟩
    rw [hplace, ← rounded_value hneg, hvalue]
    refine rounded_mono ?_
    have hle : value rules.gain ≤ 1 := by
      have hplace := (le_iff.mp hone).2.2
      rw [place_eq_value hfinite, place_eq_value rfl, value_one] at hplace
      exact_mod_cast hplace
    nlinarith

/-- Neither is the nudge of a correction that is worked out. -/
theorem neg_half_le_plan? {localBpm : Float} {target : CorrectionTarget Float}
    {correction : Correction Float} (hgain : isPositive rules.gain = true) (hone : rules.gain ≤ 1.0)
    (hquantum : target.quantum.isFinite = true) (hnonneg : 0 ≤ value target.quantum)
    (h : plan? rules localBpm localBeat target = some correction)
    (hnudge : correction.nudge.isNaN = false) : -(target.quantum / 2.0) ≤ correction.nudge := by
  obtain ⟨hhalf, hhalfnonneg⟩ := isFinite_half hquantum hnonneg
  unfold plan? at h
  obtain ⟨nudge, heq, rfl⟩ := Option.map_eq_some_iff.mp h
  exact neg_half_le_nudge? hgain hone hhalf hhalfnonneg
    (neg_half_le_phaseDistance hquantum hhalf) heq hnudge

end Correction

/-! ## Reconciliations -/

theorem Playhead.meter_shift (p : Playhead) (beats : Float) : (p.shift beats).meter = p.meter := by
  unfold shift
  split_ifs <;> rfl

namespace Follower

variable {σ : Type}

theorem now_le_adoptTempo {p : Playhead} (hnow : p.now.isNaN = false) (tempo : Option Float) :
    p.now ≤ (adoptTempo p tempo).1.now := by
  rcases adoptTempo_cases p tempo with heq | ⟨bpm, hbpm, heq⟩ <;> rw [heq]
  · exact atMost_refl hnow
  · exact Playhead.now_le_now_of_changeTempo hbpm rfl rfl hnow

theorem meter_applyCorrection (p : Playhead) (correction : Correction Float) :
    (applyCorrection p correction).1.meter = p.meter := by
  have htempo : (adoptTempo p correction.tempo).1.meter = p.meter := by
    rcases adoptTempo_cases p correction.tempo with heq | ⟨bpm, -, heq⟩ <;> rw [heq]
  unfold applyCorrection
  simp only
  split_ifs
  · exact htempo
  · exact (Playhead.meter_shift _ _).trans htempo

/-- A correction leaves the playhead where it is, or nudges it by what it says. -/
theorem now_le_applyCorrection {p : Playhead} (hnow : p.now.isNaN = false)
    (correction : Correction Float) :
    p.now ≤ (applyCorrection p correction).1.now ∨
      ∃ p' : Playhead, p.now ≤ p'.now ∧ correction.nudge.isFinite = true ∧
        (applyCorrection p correction).1 = p'.shift correction.nudge := by
  have hle := now_le_adoptTempo hnow correction.tempo
  unfold applyCorrection
  simp only
  split_ifs
  · exact .inl hle
  · by_cases hfinite : correction.nudge.isFinite = true
    · exact .inr ⟨_, hle, hfinite, rfl⟩
    · refine .inl ?_
      rw [Playhead.shift, if_neg hfinite]
      exact hle

/-- The bar over which the phase is aligned is of finite length, and not of a negative one. -/
theorem quantum_bounds (f : Follower σ) (p : Playhead) :
    (f.quantum p).isFinite = true ∧ 0 ≤ value (f.quantum p) := by
  unfold quantum
  cases h : f.settings.quantum.filter isPositive with
  | none =>
    obtain ⟨hfinite, hpos, -⟩ := p.meter.barLength_bounds
    exact ⟨hfinite, hpos.le⟩
  | some quantum =>
    obtain ⟨hfinite, hpos⟩ := value_pos_of_isPositive (Option.filter_eq_some_iff.mp h).2
    exact ⟨hfinite, hpos.le⟩

theorem quantum_congr {f f' : Follower σ} {p p' : Playhead} (hsettings : f'.settings = f.settings)
    (hmeter : p'.meter = p.meter) : f'.quantum p' = f.quantum p := by
  rw [quantum, quantum, hsettings, Playhead.barLength, Playhead.barLength, hmeter]

variable [Transport σ]

/-- A reconciliation leaves the settings and the meter alone, and so the bar over which the phase is
aligned. -/
theorem settings_reconcileIfDue (f : Follower σ) (p : Playhead) :
    (f.reconcileIfDue p).follower.settings = f.settings ∧
      (f.reconcileIfDue p).playhead.meter = p.meter := by
  have hreconciled := f.reconciled p
  generalize f.reconcileIfDue p = outcome at hreconciled ⊢
  cases hreconciled with
  | early | failed | unbounded => exact ⟨rfl, rfl⟩
  | corrected => exact ⟨rfl, meter_applyCorrection p _⟩

/-- A reconciliation takes the playhead back at most by a nudge of half the bar over which the phase is
aligned, if the gain is at most 1. -/
theorem now_le_reconcileIfDue {f : Follower σ} {p : Playhead} (hnow : p.now.isNaN = false)
    (hgain : isPositive f.settings.rules.gain = true) (hone : f.settings.rules.gain ≤ 1.0) :
    p.now ≤ (f.reconcileIfDue p).playhead.now ∨
      ∃ (p' : Playhead) (nudge : Float), p.now ≤ p'.now ∧ nudge.isFinite = true ∧
        -(f.quantum p / 2.0) ≤ nudge ∧ (f.reconcileIfDue p).playhead = p'.shift nudge := by
  have hreconciled := f.reconciled p
  generalize f.reconcileIfDue p = outcome at hreconciled ⊢
  cases hreconciled with
  | early | failed | unbounded => exact .inl (atMost_refl hnow)
  | @corrected known hknown hdue target correction hquantum hplan =>
    rcases now_le_applyCorrection hnow correction with hle | ⟨p', hle, hfinite, hshift⟩
    · exact .inl hle
    · refine .inr ⟨p', correction.nudge, hle, hfinite, ?_, hshift⟩
      -- The bar that the correction was worked out for is that of the follower.
      obtain ⟨hfinite', hnonneg⟩ := f.quantum_bounds p
      rw [← hquantum] at hfinite' hnonneg ⊢
      exact Correction.neg_half_le_plan? hgain hone hfinite' hnonneg hplan
        (isNaN_of_isFinite hfinite)

end Follower

end Cadence
