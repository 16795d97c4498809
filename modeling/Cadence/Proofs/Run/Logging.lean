import Mathlib
import Cadence.Proofs.Run.Announcing

/-!
# Errors in the log

The clock logs an error for one reason only: an entry failed. Whatever else it has to say is a warning, or
of less weight. So the errors that a run adds to the log are those of the failures in it, one for each and
in order, beside those that somebody writes around the clock.

- `Operation.errors_apply`: no operation of the clock logs an error;
- `Run.errors_eq`: the errors in the log after a run.
-/

namespace Cadence

variable {σ β : Type}

/-! ## What is said -/

/-- The errors among some log messages. -/
def Log.errors (log : List Log.Message) : List Log.Message := log.filter (·.level = .error)

theorem Log.errors_append (log log' : List Log.Message) :
    Log.errors (log ++ log') = Log.errors log ++ Log.errors log' := List.filter_append ..

/-- Any minimum but the highest severity lets errors through. -/
theorem Log.errors_filter_passes {minimum : Log.Severity} (h : minimum ≠ .fatal)
    (log : List Log.Message) : Log.errors (log.filter (·.passes minimum)) = Log.errors log := by
  rw [Log.errors, List.filter_filter, Log.errors]
  refine List.filter_congr fun m _ => ?_
  cases hlevel : m.level <;> cases minimum <;> simp [Log.Message.passes, hlevel, Log.Severity.rank] at h ⊢

/-- None of the outputs is an error. -/
def Mild (outputs : List Output) : Prop :=
  ∀ message, .logged message ∈ outputs → message.level ≠ .error

theorem mild_nil : Mild [] := nofun

theorem mild_note {level : Log.Severity} (h : level ≠ .error) (text : String) :
    Mild [Follower.note level text] := by
  intro message hmem
  cases List.mem_singleton.mp hmem
  exact h

theorem mild_announced (notice : Notice) : Mild [.announced notice] := by
  intro message hmem
  cases List.mem_singleton.mp hmem

theorem Mild.append {outputs outputs' : List Output} (h : Mild outputs) (h' : Mild outputs') :
    Mild (outputs ++ outputs') := by
  intro message hmem
  rcases List.mem_append.mp hmem with hmem | hmem
  · exact h message hmem
  · exact h' message hmem

namespace Conductor

/-- The errors in the log of the clock. -/
def errors (c : Conductor σ β) : List Log.Message := Log.errors c.log

theorem errors_of_log_eq {c c' : Conductor σ β} (h : c'.log = c.log) : c'.errors = c.errors :=
  congrArg Log.errors h

/-- Messages that are no errors may be added to the log. -/
theorem errors_of_log_append {c c' : Conductor σ β} {said : List Log.Message}
    (h : c'.log = c.log ++ said) (hsaid : ∀ message ∈ said, message.level ≠ .error) :
    c'.errors = c.errors := by
  rw [errors, h, Log.errors_append]
  have hnone : Log.errors said = [] := by
    rw [Log.errors, List.filter_eq_nil_iff]
    intro message hmem
    simpa using hsaid message hmem
  rw [hnone, List.append_nil]
  rfl

theorem errors_say (c : Conductor σ β) {level : Log.Severity} (h : level ≠ .error) (text : String) :
    (c.say level text).errors = c.errors :=
  errors_of_log_append rfl (List.forall_mem_singleton.mpr h)

theorem errors_emitAll (c : Conductor σ β) {outputs : List Output} (h : Mild outputs) :
    (c.emitAll outputs).errors = c.errors := by
  induction outputs generalizing c with
  | nil => rfl
  | cons output rest ih =>
    refine (ih (c.emit output) fun message hmem => h message (.tail _ hmem)).trans ?_
    cases output with
    | logged message =>
      exact errors_of_log_append rfl (List.forall_mem_singleton.mpr (h message (.head _)))
    | announced notice => rfl

theorem errors_adopt {α : Type} (c : Conductor σ β) (o : Follower.Outcome σ α) (h : Mild o.outputs) :
    (c.adopt o).2.errors = c.errors :=
  errors_emitAll _ h

/-! ## Scheduling and points -/

theorem moveTime_log (c : Conductor σ β) (move : WallTime → WallTime) :
    (c.moveTime move).log = c.log := rfl

theorem submit_log (c : Conductor σ β) (beat : Float) (priority : Bool) (task : Task β)
    (owner : Option PointId) : (c.submit beat priority task owner).2.log = c.log := by
  unfold submit
  split
  · rfl
  · simp only
    split_ifs <;> rfl

theorem submitBatch_log (c : Conductor σ β) (batch : List (Float × Task β × PointId)) :
    (c.submitBatch batch).log = c.log := by
  rw [submitBatch_eq]
  split_ifs <;> rfl

/-- A point whose beat is not finite is worth a warning. -/
theorem errors_adoptResolved (c : Conductor σ β) (r : Resolved (Action β)) :
    (c.adoptResolved r).errors = c.errors := by
  refine errors_of_log_append rfl fun message hmem => ?_
  obtain ⟨id, -, rfl⟩ := List.mem_map.mp hmem
  exact Log.Severity.noConfusion

theorem restart_log (c : Conductor σ β) (id : PointId) (kind : PointKind) :
    (c.restart id kind).log = c.log := by
  unfold restart
  split
  · split <;> rfl
  · rfl

theorem errors_bind (c : Conductor σ β) (id : PointId) (beat : Float) :
    (c.bind id beat).2.errors = c.errors := by
  unfold bind
  split
  · rfl
  · rename_i beat _
    split
    · rfl
    · rename_i node _
      split
      · rfl
      · have hresolved : ((c.restart id node.kind).adoptResolved
            ((c.restart id node.kind).points.resolve id beat)).errors = c.errors :=
          (errors_adoptResolved _ _).trans (errors_of_log_eq (c.restart_log id node.kind))
        simp only
        split
        · exact hresolved
        · refine (errors_of_log_eq (submitBatch_log _ _)).trans ?_
          exact (errors_say _ Log.Severity.noConfusion _).trans hresolved

theorem errors_rearm (c : Conductor σ β) (token : Token) (beat : Float) :
    (c.rearm token beat).errors = c.errors := by
  have hresolved := errors_adoptResolved c (c.points.rearm token.point beat token)
  unfold rearm
  simp only
  split
  · exact hresolved
  · exact (errors_of_log_eq (submitBatch_log _ _)).trans hresolved

theorem addAction_log (c : Conductor σ β) (id : PointId) (action : Action β) :
    (c.addAction id action).log = c.log := by
  unfold addAction
  split
  · exact submitBatch_log _ _
  · rfl

theorem clearPoint_log (c : Conductor σ β) (id : PointId) : (c.clearPoint id).2.log = c.log := by
  unfold clearPoint
  split <;> rfl

theorem errors_every (c : Conductor σ β) (period : Float) (action : Action β) :
    (c.every period action).2.errors = c.errors := by
  have hcreated : (c.recurringPoint period).2.log = c.log := by
    unfold recurringPoint
    split <;> rfl
  unfold every
  rcases hpoint : c.recurringPoint period with ⟨_ | id, c'⟩
  · rw [hpoint] at hcreated
    exact errors_of_log_eq hcreated
  · rw [hpoint] at hcreated
    have hadded : (c'.addAction id action).errors = c.errors :=
      errors_of_log_eq ((c'.addAction_log id action).trans hcreated)
    have hbound := (errors_bind (c'.addAction id action) id
      ((c'.addAction id action).now + period)).trans hadded
    simp only
    rcases hbind : (c'.addAction id action).bind id ((c'.addAction id action).now + period) with
      ⟨_ | _, c''⟩ <;> rw [hbind] at hbound <;> exact hbound

end Conductor

/-! ## Following a session -/

variable [Transport σ]

namespace Follower

theorem mild_propose (f : Follower σ) (bpm : Float) : Mild (f.propose bpm).2 := by
  unfold propose
  split_ifs
  · split
    · exact mild_nil
    · exact mild_note Log.Severity.noConfusion _
  · exact mild_nil

theorem mild_enable (f : Follower σ) (p : Playhead) (offset interval : Float) :
    Mild (f.enable p offset interval).outputs := by
  unfold enable
  split
  · exact mild_nil
  · split_ifs
    · exact mild_nil
    · split
      · exact mild_note Log.Severity.noConfusion _
      · unfold join
        simp only
        split
        · exact mild_nil
        · exact (mild_note Log.Severity.noConfusion _).append (mild_announced _)

theorem mild_disable (f : Follower σ) (p : Playhead) : Mild (f.disable p).outputs := by
  unfold disable
  split
  · exact mild_nil
  · exact (mild_note Log.Severity.noConfusion _).append (mild_announced _)

omit [Transport σ] in
theorem mild_applyCorrection (p : Playhead) (correction : Correction Float) :
    Mild (applyCorrection p correction).2 := by
  have htempo : Mild (adoptTempo p correction.tempo).2 := by
    unfold adoptTempo
    split
    · exact mild_nil
    · split
      · exact mild_nil
      · exact (mild_note Log.Severity.noConfusion _).append (mild_announced _)
  unfold applyCorrection
  simp only
  split_ifs
  · exact htempo
  · exact htempo.append (mild_note Log.Severity.noConfusion _)

/-- A failed reconciliation is worth a warning at most. -/
theorem mild_reconcileIfDue (f : Follower σ) (p : Playhead) :
    Mild (f.reconcileIfDue p).outputs := by
  unfold reconcileIfDue reconcile
  split_ifs
  · split
    · exact mild_nil
    · simp only
      split
      · unfold recordFailure
        simp only
        split_ifs <;> exact mild_note Log.Severity.noConfusion _
      · unfold adopt
        -- What is said of a recovery comes before what is said of the correction.
        have hrecovered (failures : UInt32) : Mild (if 0 < failures then
            [note .info s!"Sync recovered after {failures} failed attempts"] else []) := by
          split_ifs
          · exact mild_note Log.Severity.noConfusion _
          · exact mild_nil
        simp only
        split
        · exact hrecovered _
        · exact (hrecovered _).append (mild_applyCorrection _ _)
  · exact mild_nil

end Follower

namespace Conductor

theorem errors_publishTempo (c : Conductor σ β) (bpm beat : Float) :
    (c.publishTempo bpm beat).errors = c.errors := by
  unfold publishTempo
  refine (errors_of_log_eq rfl).trans ((errors_emitAll _ (c.follower.mild_propose bpm)).trans ?_)
  exact errors_say c Log.Severity.noConfusion _

theorem errors_setBpm (c : Conductor σ β) (bpm : Float) : (c.setBpm bpm).2.errors = c.errors := by
  unfold setBpm
  split
  · rfl
  · exact errors_publishTempo _ _ _

theorem errors_changeTempoAt (c : Conductor σ β) (beat bpm : Float) :
    (c.changeTempoAt beat bpm).2.errors = c.errors := by
  unfold changeTempoAt
  split
  · rfl
  · exact errors_publishTempo _ _ _

omit [Transport σ] in
theorem setBpmAtNextBar_log (c : Conductor σ β) (bpm : Float) :
    (c.setBpmAtNextBar bpm).2.log = c.log := by
  unfold setBpmAtNextBar
  split
  · rfl
  · rename_i accepted _
    have hsubmit := c.submit_log c.nextBar true (.tempo c.nextBar accepted) none
    simp only
    rcases hanswer : c.submit c.nextBar true (.tempo c.nextBar accepted) none with
      ⟨_ | _, c'⟩ <;> rw [hanswer] at hsubmit <;> exact hsubmit

omit [Transport σ] in
theorem errors_setTime (c : Conductor σ β) (beat : Float) :
    (c.setTime beat).2.errors = c.errors := by
  unfold setTime
  split
  · rfl
  · exact errors_of_log_append rfl (List.forall_mem_singleton.mpr Log.Severity.noConfusion)

theorem errors_enableSync (c : Conductor σ β) (offset interval : Float) :
    (c.enableSync offset interval).2.errors = c.errors := by
  have hadopt := c.errors_adopt _ (c.follower.mild_enable c.playhead offset interval)
  unfold enableSync
  rcases hanswer : c.adopt (c.follower.enable c.playhead offset interval) with ⟨_ | _, c'⟩ <;>
    rw [hanswer] at hadopt <;> exact hadopt

omit [Transport σ] in
theorem errors_start (c : Conductor σ β) : c.start.errors = c.errors := by
  unfold start
  split_ifs
  · rfl
  · refine errors_of_log_append rfl fun message hmem => ?_
    simp only [List.mem_cons, List.not_mem_nil, or_false] at hmem
    rcases hmem with rfl | rfl <;> exact Log.Severity.noConfusion

omit [Transport σ] in
theorem errors_stop (c : Conductor σ β) : c.stop.errors = c.errors := by
  unfold stop
  split_ifs
  · refine errors_of_log_append rfl fun message hmem => ?_
    simp only [List.mem_cons, List.not_mem_nil, or_false] at hmem
    rcases hmem with rfl | rfl | rfl <;> exact Log.Severity.noConfusion
  · rfl

end Conductor

/-! ## Operations -/

open Conductor

/-- An operation of the clock logs no error. -/
theorem Operation.errors_apply {op : Operation σ β} (c : Conductor σ β) (h : op.isOutside = false) :
    (op.apply c).errors = c.errors := by
  cases op with
  | outside => cases h
  | advance micros => exact errors_of_log_eq (c.moveTime_log (·.advanceMicros micros))
  | advanceBy seconds nanoseconds =>
    exact errors_of_log_eq (c.moveTime_log (·.advance seconds nanoseconds))
  | moveTo date => exact errors_of_log_eq (c.moveTime_log (·.moveTo date))
  | setBpm bpm => exact c.errors_setBpm bpm
  | setTime beat => exact c.errors_setTime beat
  | every period action => exact c.errors_every period action
  | bind id beat => exact c.errors_bind id beat
  | enableSync offset interval => exact c.errors_enableSync offset interval
  | enableConfiguredSync => exact c.errors_enableSync _ _
  | disableSync => exact c.errors_adopt _ (c.follower.mild_disable c.playhead)
  | reconcile => exact c.errors_adopt _ (c.follower.mild_reconcileIfDue c.playhead)
  | start => exact c.errors_start
  | stop => exact c.errors_stop
  | close => exact (errors_say _ Log.Severity.noConfusion _).trans c.errors_stop
  | setMeter | clear =>
    exact errors_of_log_append rfl (List.forall_mem_singleton.mpr Log.Severity.noConfusion)
  | scheduleAt | schedulePriority | scheduleOwned | schedule =>
    exact errors_of_log_eq (submit_log _ _ _ _ _)
  | scheduleAfter beats action | scheduleIn span action =>
    refine errors_of_log_eq ?_
    simp only [apply, Conductor.scheduleIn, Conductor.scheduleAfter]
    split
    · rfl
    · exact submit_log _ _ _ _ _
  | setBpmAtNextBar bpm => exact errors_of_log_eq (c.setBpmAtNextBar_log bpm)
  | addAction id action => exact errors_of_log_eq (c.addAction_log id action)
  | clearPoint id => exact errors_of_log_eq (c.clearPoint_log id)
  | playheadBpm | playheadBpmAt | playheadTime =>
    simp only [apply, accepted]
    split <;> rfl
  | shift beats =>
    simp only [apply, Conductor.shift]
    split <;> rfl
  | recurringPoint period =>
    simp only [apply, Conductor.recurringPoint]
    split <;> rfl
  | _ => rfl

/-- Neither does the clock when it starts a task. -/
theorem Task.errors_carry (task : Task β) (c : Conductor σ β) : (task.carry c).errors = c.errors := by
  cases task with
  | act | actFor => rfl
  | rearm token beat =>
    simp only [carry]
    split_ifs
    · exact c.errors_rearm token beat
    · rfl
  | tempo beat bpm => exact c.errors_changeTempoAt beat bpm

/-! ## Runs -/

/-- The line that the log gets for a failed entry. It names the owner, if there is one. -/
def errorLine (e : Entry (Task β)) (reason : String) : Log.Message :=
  ⟨.error, some e.dueBeat, (Conductor.failureOf e reason).message ++
    (e.owner.map fun id => s!" (owned by {id.text})").getD ""⟩

namespace Event

/-- The errors that an event adds to the log. -/
def errorLines : Event σ β → List Log.Message
  | .called (.outside _ _ log) c => (Log.errors log).drop c.errors.length
  | .failed e reason _ => [errorLine e reason]
  | _ => []

/-- Whatever is written around the clock, no error is taken out of the log. -/
def KeepsErrors : Event σ β → Prop
  | .called (.outside _ _ log) c => c.errors <+: Log.errors log
  | _ => True

end Event

omit [Transport σ] in
/-- A failure is logged as an error. -/
theorem Conductor.errors_reportFailure (c : Conductor σ β) (e : Entry (Task β)) (reason : String) :
    (c.reportFailure e reason).errors = c.errors ++ [errorLine e reason] := by
  have hlog : (c.reportFailure e reason).log = c.log ++ [errorLine e reason] := by
    unfold reportFailure errorLine
    cases e.owner <;> rfl
  rw [errors, hlog, Log.errors_append]
  rfl

/-- What one step adds to the errors in the log. -/
theorem Step.errors_eq {m m' : Moment σ β} {event : Event σ β} (h : Step m event m')
    (hkeeps : event.KeepsErrors) : m'.clock.errors = m.clock.errors ++ event.errorLines := by
  cases h with
  | @call c u op permitted =>
    cases op with
    | outside session audience log =>
      obtain ⟨written, hwritten⟩ := hkeeps
      change Log.errors log = c.errors ++ (Log.errors log).drop c.errors.length
      rw [← hwritten, List.drop_left]
    | _ => exact (Operation.errors_apply c rfl).trans (List.append_nil _).symm
  | @start c u reading e rest => exact (e.task.errors_carry c).trans (List.append_nil _).symm
  | fail => exact Conductor.errors_reportFailure _ _ _
  | measure | pass => exact (List.append_nil _).symm

/-- What a run adds to them, if nobody takes any of them out. -/
theorem Run.errors_eq {m m' : Moment σ β} {events : List (Event σ β)} (h : Run m events m')
    (hkeeps : ∀ event ∈ events, event.KeepsErrors) :
    m'.clock.errors = m.clock.errors ++ events.flatMap Event.errorLines := by
  induction h with
  | nil => exact (List.append_nil _).symm
  | @snoc events event m₁ m₂ _ hstep ih =>
    rw [List.forall_mem_append] at hkeeps
    rw [hstep.errors_eq (hkeeps.2 event (.head _)), ih hkeeps.1, List.flatMap_append,
      List.flatMap_singleton, List.append_assoc]

end Cadence
