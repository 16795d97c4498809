import Mathlib
import Cadence.Proofs.Run.Effect
import Cadence.Proofs.Run.Playhead

/-!
# What changes what is followed

What is remembered while a session is followed changes in a few operations only: joining and leaving a
session, changing how it is followed, a jump, and a reconciliation that is due. `Operation.Refollows`
says what they do to it; everything else leaves it alone, also what the clock does by itself. The main
statements are:

- `Operation.refollows`: what an operation does to what is followed;
- `Task.following_carry`: starting a task does nothing to it.
-/

namespace Cadence

variable {σ β : Type}

namespace Conductor

/-- What is remembered of the session, while one is followed. -/
def following (c : Conductor σ β) : Option Following := c.follower.following

/-- A clock starts with the tempo and the meter of its configuration, follows nothing, and nobody
listens. -/
theorem create_cases {config : Config} {time : WallTime} {session : σ} {c : Conductor σ β}
    (h : create config time session = .ok c) :
    c.bpm = config.clock.tempo ∧ c.playhead.meter = config.clock.meter ∧
      c.follower = ⟨config.sync, session, none⟩ ∧ c.audience = .empty := by
  obtain ⟨playhead, hstart, hresult⟩ := bind_ok h
  obtain ⟨-, -, rfl⟩ := Playhead.start_ok hstart
  rw [← Except.ok.inj hresult]
  exact ⟨rfl, rfl, rfl, rfl⟩

/-! ## What leaves it alone -/

theorem emitAll_follower (c : Conductor σ β) (outputs : List Output) :
    (c.emitAll outputs).follower = c.follower := by
  induction outputs generalizing c with
  | nil => rfl
  | cons output rest ih =>
    refine (ih (c.emit output)).trans ?_
    cases output <;> rfl

theorem moveTime_follower (c : Conductor σ β) (move : WallTime → WallTime) :
    (c.moveTime move).follower = c.follower := rfl

/-- Taking over what the follower leaves behind takes over what it follows. -/
theorem adopt_following {α : Type} (c : Conductor σ β) (o : Follower.Outcome σ α) :
    (c.adopt o).2.following = o.follower.following :=
  congrArg Follower.following (emitAll_follower _ _)

variable [Transport σ]

/-- Passing a tempo on to the session changes the transport alone. -/
theorem publishTempo_following (c : Conductor σ β) (bpm beat : Float) :
    (c.publishTempo bpm beat).following = c.following := by
  have hpropose : (c.follower.propose bpm).1.following = c.follower.following := by
    unfold Follower.propose
    split_ifs
    · split <;> rfl
    · rfl
  exact (congrArg Follower.following (emitAll_follower _ _)).trans hpropose

theorem changeTempoAt_following (c : Conductor σ β) (beat bpm : Float) :
    (c.changeTempoAt beat bpm).2.following = c.following := by
  unfold changeTempoAt
  split
  · rfl
  · exact publishTempo_following _ _ _

end Conductor

/-! ## What changes it -/

namespace Follower

variable [Transport σ]

theorem withStatus_following (p : Playhead) (f : Follower σ) (outputs : List Output) :
    (Outcome.withStatus p f outputs).follower.following = f.following := by
  unfold Outcome.withStatus status
  cases h : f.following <;> simp [h]

/-- Asking for a session to be followed is refused, joins it, or changes how it is followed. -/
theorem enable_following (f : Follower σ) (p : Playhead) (offset interval : Float) :
    (f.enable p offset interval).follower.following = f.following ∨
      isPositive interval = true ∧
        ((f.following = none ∧ ∃ peers, (f.enable p offset interval).follower.following =
          some ⟨offset, interval, p.now, 0, peers⟩) ∨
        ∃ known, f.following = some known ∧ (f.enable p offset interval).follower.following =
          some { known with phaseOffset := offset, resyncInterval := interval }) := by
  have henabled := f.enabled p offset interval
  generalize f.enable p offset interval = outcome at henabled ⊢
  cases henabled with
  | refused | unjoined => exact .inl rfl
  | changed hknown hinterval =>
    exact .inr ⟨hinterval, .inr ⟨_, hknown, withStatus_following _ _ _⟩⟩
  | joined hidle hinterval hconnect peers =>
    exact .inr ⟨hinterval, .inl ⟨hidle, peers, withStatus_following _ _ _⟩⟩

theorem disable_following (f : Follower σ) (p : Playhead) :
    (f.disable p).follower.following = none := by
  unfold disable
  cases h : f.following <;> simp [h]

end Follower

namespace Conductor

/-- A jump is refused, or makes the next reconciliation due at the beat that it leads to. -/
theorem setTime_cases (c : Conductor σ β) (beat : Float) :
    (∃ fault, c.setTime beat = (.error fault, c)) ∨
      (c.setTime beat).1 = .ok () ∧
        (c.setTime beat).2.following =
          c.following.map fun known => { known with nextResync := (c.setTime beat).2.now } := by
  unfold setTime
  cases c.playhead.setTime beat with
  | error fault => exact .inl ⟨fault, rfl⟩
  | ok playhead => exact .inr ⟨rfl, rfl⟩

variable [Transport σ]

/-- A reconciliation leaves what is followed alone if it is not due. Otherwise the next one is an
interval later than the beat that it read, whether the session could be read or not. -/
theorem reconcileIfDue_cases (c : Conductor σ β) :
    (¬ (∃ known, c.following = some known ∧ known.nextResync ≤ c.now) ∧
        c.reconcileIfDue.2.following = c.following) ∨
      ∃ known failures peers, c.following = some known ∧ known.nextResync ≤ c.now ∧
        c.reconcileIfDue.2.following =
          some { known with
            nextResync := c.now + known.resyncInterval, failures := failures, peers := peers } := by
  have hadopt := c.adopt_following (c.follower.reconcileIfDue c.playhead)
  change c.reconcileIfDue.2.following = _ at hadopt
  rw [hadopt]
  have hreconciled := c.follower.reconciled c.playhead
  generalize c.follower.reconcileIfDue c.playhead = outcome at hreconciled ⊢
  cases hreconciled with
  | early h => exact .inl ⟨h, rfl⟩
  | failed hknown hdue | unbounded hknown hdue | corrected hknown hdue =>
    exact .inr ⟨_, _, _, hknown, hdue, rfl⟩

end Conductor

namespace Operation

variable [Transport σ]

/-- The operation asks for the session to be followed, with an interval. -/
def follows (op : Operation σ β) (c : Conductor σ β) : Option Float :=
  match op with
  | .enableSync _ interval => some interval
  | .enableConfiguredSync => some c.follower.settings.resyncInterval
  | _ => none

/-- What an operation does to what is followed. -/
inductive Refollows (c : Conductor σ β) : Operation σ β → Option Following → Prop
  /-- Nothing. -/
  | kept (op : Operation σ β) : Refollows c op c.following
  /-- A session is joined, and the first reconciliation is due at once. -/
  | joined {op : Operation σ β} {offset interval : Float} {peers : UInt64}
      (hop : op.follows c = some interval) (hinterval : isPositive interval = true)
      (hidle : c.following = none) :
      Refollows c op (some ⟨offset, interval, c.now, 0, peers⟩)
  /-- The session is followed already, and only the offset and the interval change. -/
  | changed {op : Operation σ β} {offset interval : Float} {known : Following}
      (hop : op.follows c = some interval) (hinterval : isPositive interval = true)
      (hknown : c.following = some known) :
      Refollows c op (some { known with phaseOffset := offset, resyncInterval := interval })
  /-- The session is left. -/
  | left : Refollows c .disableSync none
  /-- After a jump the next reconciliation is due at once. -/
  | jumped {beat : Float} (hok : (c.setTime beat).1 = .ok ()) :
      Refollows c (.setTime beat)
        (c.following.map fun known => { known with nextResync := (c.setTime beat).2.now })
  /-- After a reconciliation the next one is an interval later. -/
  | reconciled {known : Following} {failures : UInt32} {peers : UInt64}
      (hknown : c.following = some known) (hdue : known.nextResync ≤ c.now) :
      Refollows c .reconcile
        (some { known with
          nextResync := c.now + known.resyncInterval, failures := failures, peers := peers })

theorem Refollows.of_eq {c : Conductor σ β} {op : Operation σ β}
    (h : (op.apply c).following = c.following) : op.Refollows c (op.apply c).following := by
  rw [h]
  exact .kept op

theorem Refollows.of_follower {c : Conductor σ β} {op : Operation σ β}
    (h : (op.apply c).follower = c.follower) : op.Refollows c (op.apply c).following :=
  .of_eq (congrArg Follower.following h)

/-- Asking for the session to be followed does what it does to the follower. -/
theorem refollows_enableSync {op : Operation σ β} {c : Conductor σ β} {offset interval : Float}
    (hop : op.follows c = some interval) :
    op.Refollows c (c.enableSync offset interval).2.following := by
  have hadopt := c.adopt_following (c.follower.enable c.playhead offset interval)
  have hsame : (c.enableSync offset interval).2.following =
      (c.follower.enable c.playhead offset interval).follower.following := by
    rcases c.enableSync_cases offset interval with heq | heq <;> rw [heq] <;> exact hadopt
  rw [hsame]
  rcases c.follower.enable_following c.playhead offset interval with
    hkept | ⟨hpositive, ⟨hidle, peers, hjoined⟩ | ⟨known, hknown, hchanged⟩⟩
  · rw [hkept]
    exact .kept op
  · rw [hjoined]
    exact .joined hop hpositive hidle
  · rw [hchanged]
    exact .changed hop hpositive hknown

theorem refollows (op : Operation σ β) (c : Conductor σ β) :
    op.Refollows c (op.apply c).following := by
  cases op with
  | advance micros => exact .of_follower (c.moveTime_follower (·.advanceMicros micros))
  | advanceBy seconds nanoseconds =>
    exact .of_follower (c.moveTime_follower (·.advance seconds nanoseconds))
  | moveTo date => exact .of_follower (c.moveTime_follower (·.moveTo date))
  | enableSync offset interval => exact refollows_enableSync rfl
  | enableConfiguredSync => exact refollows_enableSync rfl
  | disableSync =>
    have hleft : c.disableSync.2.following = none :=
      (c.adopt_following _).trans (c.follower.disable_following c.playhead)
    rw [apply, hleft]
    exact .left
  | setTime beat =>
    simp only [apply]
    rcases c.setTime_cases beat with ⟨fault, hrefused⟩ | ⟨hok, hjumped⟩
    · rw [hrefused]
      exact .kept _
    · rw [hjumped]
      exact .jumped hok
  | reconcile =>
    simp only [apply]
    rcases c.reconcileIfDue_cases with ⟨-, hkept⟩ | ⟨known, failures, peers, hknown, hdue, hset⟩
    · rw [hkept]
      exact .kept _
    · rw [hset]
      exact .reconciled hknown hdue
  | setBpm bpm =>
    refine .of_eq ?_
    simp only [apply, Conductor.setBpm]
    split
    · rfl
    · exact Conductor.publishTempo_following _ _ _
  | playheadBpm | playheadBpmAt | playheadTime =>
    refine .of_follower ?_
    simp only [apply, accepted]
    split <;> rfl
  | shift beats =>
    refine .of_follower ?_
    simp only [apply, Conductor.shift]
    split <;> rfl
  | syncStatus =>
    refine .of_eq ?_
    simp only [apply, Conductor.syncStatus, Conductor.following, Follower.status]
    split <;> rename_i heq <;> simp [heq]
  | playheadShift | playheadMeter | setMeter | outside => exact .kept _
  | _ => exact .of_follower (sameCourse c rfl rfl).follower

end Operation

/-- Starting a task does nothing to what is followed. -/
theorem Task.following_carry [Transport σ] (task : Task β) (c : Conductor σ β) :
    (task.carry c).following = c.following := by
  cases task with
  | act | actFor => rfl
  | rearm token beat =>
    unfold carry
    simp only
    split_ifs
    · exact congrArg Follower.following (c.rearm_untouched token beat).follower
    · rfl
  | tempo beat bpm => exact c.changeTempoAt_following beat bpm

end Cadence
