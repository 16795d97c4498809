import Mathlib
import Cadence.Proofs.Resync
import Cadence.Proofs.Run.Announcing

/-!
# Notices that replay the clock

Whoever has heard all notices of a clock knows its tempo and its meter: they are those that the notices
told last. The clock changes them in four ways, at once, at a bar line, with the session, and as to the
meter, and announces every change once, when it is made, and none that was refused. Only the playhead by
itself can be changed behind the back of the clock (`Operation.bypasses`).

- `Step.replays`: after one step the tempo and the meter are those that its notices told last;
- `Step.announces_changes`: it announces its changes of them, and no others;
- `notices_replay_clock`: so a listener that was there from the start can replay the clock.
-/

namespace Cadence

variable {σ β : Type}

/-! ## What notices tell -/

namespace Notice

/-- The tempo that is told. -/
def tempo? : Notice → Option Float
  | .tempoChanged bpm _ => some bpm
  | _ => none

/-- The meter that is told. -/
def meter? : Notice → Option Meter
  | .meterChanged meter => some meter
  | _ => none

/-- A tempo or a meter is told. -/
def isChange (notice : Notice) : Bool := notice.tempo?.isSome || notice.meter?.isSome

end Notice

/-- What notices told last of something, or what it was before all of them. -/
def lastTold {α : Type} (read : Notice → Option α) (initial : α) (notices : List Notice) : α :=
  (notices.filterMap read).getLast?.getD initial

theorem lastTold_append {α : Type} (read : Notice → Option α) (initial : α)
    (notices notices' : List Notice) :
    lastTold read initial (notices ++ notices') =
      lastTold read (lastTold read initial notices) notices' := by
  simp only [lastTold, List.filterMap_append, List.getLast?_append]
  cases (notices'.filterMap read).getLast? <;> rfl

/-! ## What a step changes -/

/-- The operation changes the tempo or the meter of the playhead behind the back of the clock. -/
def Operation.bypasses : Operation σ β → Bool
  | .playheadBpm _ => true
  | .playheadBpmAt _ _ => true
  | .playheadMeter _ => true
  | _ => false

/-- Nothing happens behind the back of the clock. -/
def Event.ThroughClock : Event σ β → Prop
  | .called op _ => op.bypasses = false
  | _ => True

instance (event : Event σ β) : Decidable event.ThroughClock :=
  match event with
  | .called op _ => inferInstanceAs (Decidable (op.bypasses = false))
  | .measured _ | .started _ _ _ | .failed _ _ _ | .passed _ => isTrue trivial

variable [Transport σ]

/-- The changes of the tempo and the meter that an event makes, as they are to be told. -/
def Event.changes : Event σ β → List Notice
  | .called (.setBpm bpm) c => onAccept (c.setBpm bpm).1 (.tempoChanged bpm c.now)
  | .called (.setMeter meter) _ => [.meterChanged meter]
  | .called .reconcile c => c.reconcileIfDue.1.tempo?.toList.map (.tempoChanged · c.now)
  | .started _ e c =>
    match e.task with
    | .tempo beat bpm => onAccept (c.changeTempoAt beat bpm).1 (.tempoChanged bpm beat)
    | _ => []
  | _ => []

/-- An operation that leaves the playhead alone changes neither. -/
theorem Event.changes_of_still {op : Operation σ β} {c : Conductor σ β}
    (h : op.movesPlayhead = false) : (Event.called op c).changes = [] := by
  cases op with
  | setBpm | setMeter | reconcile => cases h
  | _ => rfl

/-- The tempo and the meter of a clock are those that some notices told last. -/
structure Conductor.Replays (c : Conductor σ β) (notices : List Notice) (c' : Conductor σ β) : Prop where
  /-- The tempo. -/
  bpm : c'.bpm = lastTold Notice.tempo? c.bpm notices
  /-- The meter. -/
  meter : c'.playhead.meter = lastTold Notice.meter? c.playhead.meter notices

namespace Conductor

/-- A tempo change that is announced as it was asked for. -/
theorem replays_publishTempo (c : Conductor σ β) {playhead : Playhead} {bpm beat : Float}
    (hbpm : playhead.bpm = bpm) (hmeter : playhead.meter = c.playhead.meter) :
    c.Replays [.tempoChanged bpm beat] ({ c with playhead }.publishTempo bpm beat) := by
  refine ⟨?_, ?_⟩
  · rw [Conductor.bpm, publishTempo_playhead]
    exact hbpm
  · rw [publishTempo_playhead]
    exact hmeter

end Conductor

omit [Transport σ] in
/-- Nothing is changed, and no change is told. -/
theorem Conductor.Replays.kept {c c' : Conductor σ β} {notices : List Notice}
    (hbpm : c'.bpm = c.bpm) (hmeter : c'.playhead.meter = c.playhead.meter)
    (h : notices.filter Notice.isChange = []) : c.Replays notices c' := by
  have hnone : ∀ notice ∈ notices, notice.tempo? = none ∧ notice.meter? = none := by
    simpa [List.filter_eq_nil_iff, Notice.isChange] using h
  refine ⟨hbpm.trans ?_, hmeter.trans ?_⟩
  · rw [lastTold, List.filterMap_eq_nil_iff.mpr fun notice hnotice => (hnone notice hnotice).1]
    rfl
  · rw [lastTold, List.filterMap_eq_nil_iff.mpr fun notice hnotice => (hnone notice hnotice).2]
    rfl

omit [Transport σ] in
theorem Conductor.replays_moveTime (c : Conductor σ β) (move : WallTime → WallTime) :
    c.Replays [] (c.moveTime move) :=
  .kept rfl rfl rfl

/-- Adopting nothing or one tempo is told as it is. -/
theorem filter_isChange_adopted (tempo : Option Float) (beat : Float) :
    (tempo.toList.map (Notice.tempoChanged · beat)).filter Notice.isChange =
      tempo.toList.map (Notice.tempoChanged · beat) := by
  cases tempo <;> rfl

/-- An operation announces its changes of the tempo and the meter, and no others. -/
theorem Operation.announces_changes (op : Operation σ β) (c : Conductor σ β) :
    (op.notices c).filter Notice.isChange = (Event.called op c).changes := by
  have henable (offset interval : Float) :
      ((c.follower.enable c.playhead offset interval).outputs.filterMap Output.notice?).filter
        Notice.isChange = [] := by
    rcases c.follower.notices_enable c.playhead offset interval with ⟨heq, -⟩ | ⟨peers, heq, -⟩ <;>
      rw [heq] <;> rfl
  cases op with
  | setBpm bpm =>
    simp only [notices, Event.changes]
    cases (c.setBpm bpm).1 <;> rfl
  | setTime beat =>
    simp only [notices, Event.changes]
    cases (c.setTime beat).1 <;> rfl
  | enableSync | enableConfiguredSync => exact henable _ _
  | disableSync =>
    simp only [notices, Event.changes, c.follower.notices_disable c.playhead]
    split_ifs <;> rfl
  | reconcile =>
    obtain ⟨-, hnotices⟩ := c.follower.reconcileIfDue_told c.playhead
    simp only [notices, hnotices]
    exact filter_isChange_adopted _ _
  | _ => rfl

omit [Transport σ] in
/-- A jump leaves the tempo and the meter alone, whether it is accepted or not. -/
theorem Operation.course_accepted_setTime (c : Conductor σ β) (beat : Float) :
    (accepted c (c.playhead.setTime beat)).bpm = c.bpm ∧
      (accepted c (c.playhead.setTime beat)).playhead.meter = c.playhead.meter := by
  cases hset : c.playhead.setTime beat with
  | error fault => exact ⟨rfl, rfl⟩
  | ok playhead =>
    obtain ⟨-, rfl⟩ := Playhead.setTime_ok hset
    exact ⟨rfl, rfl⟩

omit [Transport σ] in
theorem Operation.playhead_setTime (c : Conductor σ β) (beat : Float) :
    (c.setTime beat).2.playhead = (accepted c (c.playhead.setTime beat)).playhead := by
  unfold Conductor.setTime accepted
  cases c.playhead.setTime beat <;> rfl

/-- After an operation the tempo and the meter are those that it announced. -/
theorem Operation.replays {op : Operation σ β} (c : Conductor σ β) (h : op.bypasses = false) :
    c.Replays (op.notices c) (op.apply c) := by
  by_cases hmoves : op.movesPlayhead = true
  · cases op with
    | playheadBpm | playheadBpmAt | playheadMeter => cases h
    | setBpm bpm =>
      rw [apply, notices]
      rcases c.setBpm_cases bpm with ⟨fault, heq⟩ | ⟨playhead, hbpm, hmeter, heq⟩ <;> rw [heq]
      · exact ⟨rfl, rfl⟩
      · exact c.replays_publishTempo hbpm hmeter
    | setMeter meter => exact ⟨rfl, rfl⟩
    | reconcile =>
      obtain ⟨hbpm, hnotices⟩ := c.follower.reconcileIfDue_told c.playhead
      have hplayhead :
          c.reconcileIfDue.2.playhead = (c.follower.reconcileIfDue c.playhead).playhead :=
        c.adopt_playhead _
      refine ⟨?_, ?_⟩
      · rw [apply, notices, hnotices, Conductor.bpm, hplayhead, hbpm]
        cases (c.follower.reconcileIfDue c.playhead).answer.tempo? <;> rfl
      · rw [apply, notices, hnotices, hplayhead, (c.follower.settings_reconcileIfDue c.playhead).2]
        cases (c.follower.reconcileIfDue c.playhead).answer.tempo? <;> rfl
    | setTime beat =>
      obtain ⟨hbpm, hmeter⟩ := course_accepted_setTime c beat
      rw [Conductor.bpm, ← playhead_setTime c beat] at hbpm
      rw [← playhead_setTime c beat] at hmeter
      exact .kept hbpm hmeter (announces_changes _ c)
    | playheadTime beat =>
      obtain ⟨hbpm, hmeter⟩ := course_accepted_setTime c beat
      exact .kept hbpm hmeter rfl
    | playheadShift beats =>
      exact .kept (c.playhead.shift_bpm beats) (c.playhead.meter_shift beats) rfl
    | shift beats =>
      simp only [apply, Conductor.shift]
      split
      · exact .kept rfl rfl rfl
      · exact .kept (c.playhead.shift_bpm _) (c.playhead.meter_shift _) rfl
    | advance micros => exact c.replays_moveTime (·.advanceMicros micros)
    | advanceBy seconds nanoseconds => exact c.replays_moveTime (·.advance seconds nanoseconds)
    | moveTo date => exact c.replays_moveTime (·.moveTo date)
    | _ => cases hmoves
  · -- The playhead stays, and no change is announced.
    rw [Bool.not_eq_true] at hmoves
    have hsame := op.playhead_apply c hmoves
    have hnone := op.announces_changes c
    rw [Event.changes_of_still hmoves] at hnone
    exact .kept (congrArg Playhead.bpm hsame) (congrArg Playhead.meter hsame) hnone

/-- When a task is started, the tempo and the meter are those that the clock announces. -/
theorem Task.replays (task : Task β) (c : Conductor σ β) :
    c.Replays (task.notices c) (task.carry c) := by
  cases task with
  | act | actFor => exact ⟨rfl, rfl⟩
  | rearm token beat =>
    simp only [carry, notices]
    split_ifs
    · have hsame := (c.rearm_untouched token beat).playhead
      exact .kept (congrArg Playhead.bpm hsame) (congrArg Playhead.meter hsame) rfl
    · exact ⟨rfl, rfl⟩
  | tempo beat bpm =>
    simp only [carry, notices]
    rcases c.changeTempoAt_cases beat bpm with ⟨fault, heq⟩ | ⟨playhead, hbpm, hmeter, heq⟩ <;>
      rw [heq]
    · exact ⟨rfl, rfl⟩
    · exact c.replays_publishTempo hbpm hmeter

/-- A step announces its changes of the tempo and the meter, and no others. -/
theorem Event.announces_changes (event : Event σ β) :
    event.notices.filter Notice.isChange = event.changes := by
  cases event with
  | called op c => exact op.announces_changes c
  | started reading e c =>
    simp only [notices, changes]
    cases e.task with
    | tempo beat bpm =>
      simp only [Task.notices]
      cases (c.changeTempoAt beat bpm).1 <;> rfl
    | act | actFor | rearm => rfl
  | measured | failed | passed => rfl

/-- After a step the tempo and the meter are those that it announced. -/
theorem Step.replays {m m' : Moment σ β} {event : Event σ β} (hstep : Step m event m')
    (h : event.ThroughClock) : m.clock.Replays event.notices m'.clock := by
  cases hstep with
  | @call c u op permitted => exact op.replays c h
  | @start c u reading e rest => exact e.task.replays c
  | measure | fail | pass => exact ⟨rfl, rfl⟩

/-! ## Over a run -/

/-- Over a run the tempo and the meter are those that were announced last. -/
theorem Run.replays {m m' : Moment σ β} {events : List (Event σ β)} (hrun : Run m events m')
    (h : ∀ event ∈ events, event.ThroughClock) :
    m.clock.Replays (events.flatMap Event.notices) m'.clock := by
  induction hrun with
  | nil => exact ⟨rfl, rfl⟩
  | @snoc events event m₁ m₂ _ hstep ih =>
    rw [List.forall_mem_append] at h
    obtain ⟨hbpm, hmeter⟩ := ih h.1
    obtain ⟨hbpm', hmeter'⟩ := hstep.replays (h.2 event (.head _))
    rw [List.flatMap_append, List.flatMap_singleton]
    exact ⟨by rw [lastTold_append, ← hbpm, hbpm'], by rw [lastTold_append, ← hmeter, hmeter']⟩

/-- A listener that was there when the clock was created, and stays, can replay the clock: at any time the
tempo is the one that it has heard last, and so is the meter. It has heard every change of them once, in
the order in which they were made, and no others. -/
theorem notices_replay_clock {config : Config} {session : σ} {events : List (Event σ β)}
    {m : Moment σ β} (h : Attended config session events m)
    (hclock : ∀ event ∈ events, event.ThroughClock) :
    m.clock.bpm = lastTold Notice.tempo? config.clock.tempo (heard 0 events m) ∧
      m.clock.playhead.meter = lastTold Notice.meter? config.clock.meter (heard 0 events m) ∧
      (heard 0 events m).filter Notice.isChange = events.flatMap Event.changes := by
  have hheard := h.heard_eq
  obtain ⟨time, c, hcreate, hrun, -⟩ := h
  obtain ⟨hbpm, hmeter, -, -⟩ := Conductor.create_cases hcreate
  have hreplays := hrun.replays hclock
  rw [hheard, ← hbpm, ← hmeter]
  refine ⟨hreplays.bpm, hreplays.meter, ?_⟩
  rw [List.filter_flatMap]
  simp only [Event.announces_changes]

/-- Bodies that go over to 90 bpm. -/
def LawfulPerformer.hastening : LawfulPerformer Partner Unit Unit :=
  ofOperations (fun _ => [.setBpm 90.0]) (fun _ => .ok ()) (by simp [Operation.Permitted])

/-- Three quarter notes. -/
def Meter.waltz : Meter where
  numerator := 3
  denominator := Meter.common.denominator
  numerator_ne_zero := by decide
  denominator_ne_zero := Meter.common.denominator_ne_zero

/-- A partner is joined, the meter is changed, and an action and a tempo change at the next bar line are
on their way when the clock gets to beat 5. -/
def Conductor.changing : List (Operation Partner Unit) :=
  [.enableSync 0.0 4.0, .setBpmAtNextBar 100.0, .setMeter .waltz,
    .scheduleAt 1.0 ⟨"hasten", ()⟩, .setBpm 0.0, .moveTo 2500000]

/-- The next tick changes the tempo three times: with the partner, in the action, and at the bar line. -/
theorem changing_replayed :
    ∃ (events : List (Event Partner Unit)) (m : Moment Partner Unit),
      Attended {} ({} : Partner) events m ∧
        m.clock.bpm = 100.0 ∧ (heard 0 events m).filter Notice.isChange =
          [.meterChanged .waltz, .tempoChanged 60.0 5.0,
            .tempoChanged 90.0 5.25, .tempoChanged 100.0 4.0] := by
  have hcreate : Conductor.create {} ⟨0⟩ ({} : Partner) = .ok Conductor.partnered :=
    Conductor.eq_ok_get _ _
  have hattended := Attended.rehearse (L := LawfulPerformer.hastening) hcreate
    (show PermittedAll _ Conductor.changing by decide +kernel) rfl (by decide +kernel)
  obtain ⟨hbpm, -, hchanges⟩ := notices_replay_clock hattended (by decide +kernel)
  refine ⟨_, _, hattended, hbpm.trans ?_, hchanges.trans ?_⟩ <;> decide +kernel

end Cadence
