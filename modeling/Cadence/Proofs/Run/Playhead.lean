import Mathlib
import Cadence.Proofs.Run.Effect
import Cadence.Proofs.Timeline

/-!
# What moves the playhead

Most operations leave the playhead alone. `Operation.movesPlayhead` lists those that can move it, and
`Operation.Retimes` says what they do to the timeline, together with what they have checked by then. What
holds of the timeline over a history is read off that. The main statements are:

- `Operation.untouched`: the operations that leave the playhead, the follower and the audience alone;
- `Operation.playhead_apply`: no other operation moves the playhead;
- `Follower.reconciled`: what a reconciliation comes to;
- `Operation.retimes`: what an operation does to the timeline;
- `History.isPositive_bpm`: over any history the tempo in force is one that is accepted as a tempo.
-/

namespace Cadence

variable {σ β : Type}

/-- The operation can move the playhead. -/
def Operation.movesPlayhead : Operation σ β → Bool
  | .advance _ => true
  | .advanceBy _ _ => true
  | .moveTo _ => true
  | .playheadBpm _ => true
  | .playheadBpmAt _ _ => true
  | .playheadTime _ => true
  | .playheadShift _ => true
  | .playheadMeter _ => true
  | .setBpm _ => true
  | .setMeter _ => true
  | .setTime _ => true
  | .shift _ => true
  | .reconcile => true
  | _ => false

/-- The operation starts or stops following the session, reads its state, or is a change of the session
itself. -/
def Operation.concernsSession : Operation σ β → Bool
  | .enableSync _ _ => true
  | .enableConfiguredSync => true
  | .disableSync => true
  | .syncStatus => true
  | .outside _ _ _ => true
  | _ => false

/-- The operation clears everything at once. -/
def Operation.clearsAll : Operation σ β → Bool
  | .clear => true
  | _ => false

namespace Playhead

theorem shift_bpm (p : Playhead) (beats : Float) : (p.shift beats).bpm = p.bpm := by
  unfold shift
  split_ifs <;> rfl

end Playhead

namespace Follower

/-- Adopting a tempo leaves the playhead alone, or changes the tempo now. -/
theorem adoptTempo_cases (p : Playhead) (tempo : Option Float) :
    (adoptTempo p tempo).1 = p ∨ ∃ bpm, isPositive bpm = true ∧ (adoptTempo p tempo).1 =
      { p with timeline := p.timeline.changeTempo p.time.micros bpm } := by
  unfold adoptTempo
  split
  · exact .inl rfl
  · split
    · exact .inl rfl
    · rename_i hset
      exact .inr ⟨_, Playhead.setBpm_ok hset⟩

/-- A correction leaves a tempo that counts as one. -/
theorem isPositive_applyCorrection {p : Playhead} (h : isPositive p.bpm = true)
    (correction : Correction Float) : isPositive (applyCorrection p correction).1.bpm = true := by
  have htempo : isPositive (adoptTempo p correction.tempo).1.bpm = true := by
    rcases adoptTempo_cases p correction.tempo with heq | ⟨bpm, hbpm, heq⟩ <;> rw [heq]
    · exact h
    · exact hbpm
  unfold applyCorrection
  simp only
  split_ifs
  · exact htempo
  · rw [Playhead.shift_bpm]
    exact htempo

/-- What a reconciliation comes to. Once it is due, the next one is set an interval later, before the
session is read. -/
inductive Reconciled (f : Follower σ) (p : Playhead) : Outcome σ Reconciliation → Prop
  /-- Nothing is followed, or the reconciliation is not due. -/
  | early (h : ¬ ∃ known, f.following = some known ∧ known.nextResync ≤ p.now) :
      Reconciled f p ⟨.skipped, p, f, []⟩
  /-- The session could not be read. -/
  | failed {known : Following} (hknown : f.following = some known) (hdue : known.nextResync ≤ p.now)
      (session : σ) (failures : UInt32) (outputs : List Output) :
      Reconciled f p ⟨.skipped, p, { f with session, following := some { known with
        nextResync := p.now + known.resyncInterval, failures } }, outputs⟩
  /-- There is no answer to the phase that was read. -/
  | unbounded {known : Following} (hknown : f.following = some known)
      (hdue : known.nextResync ≤ p.now) (session : σ) (peers : UInt64) (outputs : List Output) :
      Reconciled f p ⟨.unbounded, p, { f with session, following := some { known with
        nextResync := p.now + known.resyncInterval, failures := 0, peers } }, outputs⟩
  /-- The correction that was worked out is carried out. -/
  | corrected {known : Following} (hknown : f.following = some known)
      (hdue : known.nextResync ≤ p.now) {target : CorrectionTarget Float}
      {correction : Correction Float} (hquantum : target.quantum = f.quantum p)
      (hplan : Correction.plan? f.settings.rules p.bpm p.now target = some correction)
      (session : σ) (peers : UInt64) (outputs : List Output) :
      Reconciled f p ⟨.corrected correction, (applyCorrection p correction).1,
        { f with session, following := some { known with
          nextResync := p.now + known.resyncInterval, failures := 0, peers } }, outputs⟩

theorem reconciled [Transport σ] (f : Follower σ) (p : Playhead) :
    f.Reconciled p (f.reconcileIfDue p) := by
  unfold reconcileIfDue reconcile
  cases hknown : f.following with
  | none => exact .early (by simp [hknown])
  | some known =>
    by_cases hdue : known.nextResync ≤ p.now
    · rw [if_pos (by simp [hdue])]
      simp only
      split
      · exact .failed hknown hdue _ _ _
      · unfold adopt
        simp only
        split
        · exact .unbounded hknown hdue _ _ _
        · rename_i hplan
          exact .corrected hknown hdue rfl hplan _ _ _
    · rw [if_neg (by simp [hdue])]
      refine .early ?_
      rintro ⟨known', heq, hle⟩
      cases hknown.symm.trans heq
      exact hdue hle

/-- What asking for the session to be followed comes to. -/
inductive Enabled [Transport σ] (f : Follower σ) (p : Playhead) (offset interval : Float) :
    Outcome σ (Except Fault SyncStatus) → Prop
  /-- The offset or the interval is refused. -/
  | refused (fault : Fault) : Enabled f p offset interval (.refused p f fault)
  /-- It is followed already, and only the offset and the interval change. -/
  | changed {known : Following} (hknown : f.following = some known)
      (hinterval : isPositive interval = true) (message : Log.Message) :
      Enabled f p offset interval (.withStatus p { f with following := some { known with
        phaseOffset := offset, resyncInterval := interval } } [.logged message])
  /-- The session refuses to be joined. -/
  | unjoined (hidle : f.following = none) {refusal : Refusal} {session : σ}
      (hconnect : Transport.connect f.session p.bpm (f.quantum p) = (.error refusal, session))
      (fault : Fault) :
      Enabled f p offset interval (.refused p { f with session } fault)
  /-- The session is joined and read, and the first reconciliation is due at once. -/
  | joined (hidle : f.following = none) (hinterval : isPositive interval = true) {joined : σ}
      (hconnect : Transport.connect f.session p.bpm (f.quantum p) = (.ok (), joined))
      (peers : UInt64) (message : Log.Message) :
      Enabled f p offset interval (.withStatus p { f with
        session := (Transport.capture joined (f.quantum p)).2
        following := some ⟨offset, interval, p.now, 0, peers⟩ }
          [.logged message, .announced (.syncEnabled peers)])

theorem enabled [Transport σ] (f : Follower σ) (p : Playhead) (offset interval : Float) :
    f.Enabled p offset interval (f.enable p offset interval) := by
  unfold enable
  cases hcheck : checkPeriod interval with
  | error fault => exact .refused fault
  | ok value =>
    have hinterval : isPositive interval = true ∧ value = interval := by
      unfold checkPeriod at hcheck
      split_ifs at hcheck with hpositive
      exact ⟨hpositive, (Except.ok.inj hcheck).symm⟩
    obtain ⟨hpositive, rfl⟩ := hinterval
    simp only
    split_ifs
    · exact .refused _
    · cases hknown : f.following with
      | some known => exact .changed hknown hpositive _
      | none =>
        simp only [join]
        split
        · rename_i hconnect
          exact .unjoined hknown hconnect _
        · rename_i hconnect
          exact .joined hknown hpositive hconnect _ _

theorem enable_playhead [Transport σ] (f : Follower σ) (p : Playhead) (offset interval : Float) :
    (f.enable p offset interval).playhead = p := by
  have henabled := f.enabled p offset interval
  generalize f.enable p offset interval = outcome at henabled ⊢
  cases henabled <;> rfl

/-- A reconciliation leaves the playhead alone, or carries the correction out that it answers. -/
theorem reconcileIfDue_playhead [Transport σ] (f : Follower σ) (p : Playhead) :
    (f.reconcileIfDue p).playhead = p ∨ ∃ correction,
      (f.reconcileIfDue p).answer = .corrected correction ∧
        (f.reconcileIfDue p).playhead = (applyCorrection p correction).1 := by
  have hreconciled := f.reconciled p
  generalize f.reconcileIfDue p = outcome at hreconciled ⊢
  cases hreconciled with
  | early | failed | unbounded => exact .inl rfl
  | corrected => exact .inr ⟨_, rfl, rfl⟩

end Follower

namespace Conductor

/-- Two clocks have the same playhead and the same follower. -/
structure SameCourse (c c' : Conductor σ β) : Prop where
  /-- The playhead is the same. -/
  playhead : c'.playhead = c.playhead
  /-- The follower is the same. -/
  follower : c'.follower = c.follower

/-- Two clocks differ at most in what is queued and in the points, and in what was logged: nothing was
announced in between either. -/
structure Untouched (c c' : Conductor σ β) : Prop extends c.SameCourse c' where
  /-- The audience is the same, with what it has heard. -/
  audience : c'.audience = c.audience

namespace Untouched

theorem refl (c : Conductor σ β) : c.Untouched c := ⟨⟨rfl, rfl⟩, rfl⟩

theorem trans {c c' c'' : Conductor σ β} (h : c.Untouched c') (h' : c'.Untouched c'') :
    c.Untouched c'' :=
  ⟨⟨h'.playhead.trans h.playhead, h'.follower.trans h.follower⟩, h'.audience.trans h.audience⟩

/-- What comes before may have changed anything else. -/
theorem after {c c' c'' : Conductor σ β} (h : c'.Untouched c'') (hplayhead : c'.playhead = c.playhead)
    (hfollower : c'.follower = c.follower) (haudience : c'.audience = c.audience) :
    c.Untouched c'' :=
  trans ⟨⟨hplayhead, hfollower⟩, haudience⟩ h

end Untouched

/-- Submitting a task leaves the playhead, the follower and the audience alone. -/
theorem submit_untouched (c : Conductor σ β) (beat : Float) (priority : Bool) (task : Task β)
    (owner : Option PointId) : c.Untouched (c.submit beat priority task owner).2 := by
  unfold submit
  split
  · exact .refl c
  · simp only
    split_ifs <;> exact ⟨⟨rfl, rfl⟩, rfl⟩

/-- So does queuing a tempo change at the next bar line. -/
theorem setBpmAtNextBar_untouched (c : Conductor σ β) (bpm : Float) :
    c.Untouched (c.setBpmAtNextBar bpm).2 := by
  unfold setBpmAtNextBar
  split
  · exact .refl c
  · rename_i bpm' _
    have hsubmit :=
      c.submit_untouched c.nextBar true (.tempo c.nextBar bpm') none
    simp only
    split <;> rename_i heq <;> rwa [heq] at hsubmit

theorem scheduleAfter_untouched (c : Conductor σ β) (beats : Float) (action : Action β) :
    c.Untouched (c.scheduleAfter beats action).2 := by
  unfold scheduleAfter
  split
  · exact .refl c
  · exact c.submit_untouched _ _ _ _

theorem submitBatch_untouched (c : Conductor σ β) (batch : List (Float × Task β × PointId)) :
    c.Untouched (c.submitBatch batch) := by
  rw [submitBatch_eq]
  split_ifs <;> exact ⟨⟨rfl, rfl⟩, rfl⟩

theorem enqueue_untouched (c : Conductor σ β) (id : PointId) (r : Resolution (Action β)) :
    c.Untouched (c.enqueue id r) :=
  c.submitBatch_untouched (batchOf id r)

theorem clearPoint_untouched (c : Conductor σ β) (id : PointId) :
    c.Untouched (c.clearPoint id).2 := by
  unfold clearPoint
  split <;> exact ⟨⟨rfl, rfl⟩, rfl⟩

theorem restart_untouched (c : Conductor σ β) (id : PointId) (kind : PointKind) :
    c.Untouched (c.restart id kind) := by
  unfold restart
  split
  · split <;> exact ⟨⟨rfl, rfl⟩, rfl⟩
  · exact .refl c

/-- Binding a point leaves them alone. -/
theorem bind_untouched (c : Conductor σ β) (id : PointId) (beat : Float) :
    c.Untouched (c.bind id beat).2 := by
  unfold bind
  split
  · exact .refl c
  · split
    · exact .refl c
    · rename_i node _
      have hrestart := c.restart_untouched id node.kind
      split
      · exact .refl c
      · simp only
        split
        · exact ⟨⟨hrestart.playhead, hrestart.follower⟩, hrestart.audience⟩
        · exact hrestart.trans ((enqueue_untouched _ _ _).after rfl rfl rfl)

/-- So does moving a point on. -/
theorem rearm_untouched (c : Conductor σ β) (token : Token) (beat : Float) :
    c.Untouched (c.rearm token beat) := by
  unfold rearm
  simp only
  split
  · exact ⟨⟨rfl, rfl⟩, rfl⟩
  · exact (enqueue_untouched _ _ _).after rfl rfl rfl

theorem addAction_untouched (c : Conductor σ β) (id : PointId) (action : Action β) :
    c.Untouched (c.addAction id action) := by
  rw [addAction_eq]
  split
  · exact (submitBatch_untouched _ _).after rfl rfl rfl
  · exact ⟨⟨rfl, rfl⟩, rfl⟩

/-- Running an action every so many beats leaves them alone. -/
theorem every_untouched (c : Conductor σ β) (period : Float) (action : Action β) :
    c.Untouched (c.every period action).2 := by
  rcases c.every_cases period action with hsame | ⟨period', hevery⟩
  · rw [hsame]
    exact .refl c
  · rw [hevery]
    have hattached := (c.createPoint (.recurring period')).2.addAction_untouched c.points.nextId action
    exact .trans (hattached.after rfl rfl rfl) (bind_untouched _ _ _)

theorem moveTime_timeline (c : Conductor σ β) (move : WallTime → WallTime) :
    (c.moveTime move).playhead.timeline = c.playhead.timeline := rfl

/-- Taking over what the follower leaves behind takes over its playhead. -/
theorem adopt_playhead {α : Type} (c : Conductor σ β) (o : Follower.Outcome σ α) :
    (c.adopt o).2.playhead = o.playhead :=
  (emitAll_queue_points ({ c with
    playhead := o.playhead, follower := o.follower } : Conductor σ β) o.outputs).2.2

variable [Transport σ]

/-- Starting to follow the session leaves the playhead alone. -/
theorem enableSync_playhead (c : Conductor σ β) (offset interval : Float) :
    (c.enableSync offset interval).2.playhead = c.playhead := by
  have hadopt := c.adopt_playhead (c.follower.enable c.playhead offset interval)
  rw [c.follower.enable_playhead] at hadopt
  rcases c.enableSync_cases offset interval with heq | heq <;> rw [heq] <;> exact hadopt

theorem disableSync_playhead (c : Conductor σ β) : c.disableSync.2.playhead = c.playhead := by
  have hdisable : (c.follower.disable c.playhead).playhead = c.playhead := by
    unfold Follower.disable
    split <;> rfl
  exact (c.adopt_playhead _).trans hdisable

/-- Making a tempo change known leaves the playhead alone. -/
theorem publishTempo_playhead (c : Conductor σ β) (bpm beat : Float) :
    (c.publishTempo bpm beat).playhead = c.playhead := by
  unfold publishTempo
  exact (emitAll_queue_points _ _).2.2

end Conductor

namespace Operation

variable [Transport σ]

/-- An operation that neither can move the playhead nor concerns the session changes neither of them, and
announces nothing unless everything is cleared. -/
theorem untouched {op : Operation σ β} (c : Conductor σ β) (h : op.movesPlayhead = false)
    (hsession : op.concernsSession = false) (hclears : op.clearsAll = false) :
    c.Untouched (op.apply c) := by
  cases op with
  | setBpmAtNextBar bpm => exact c.setBpmAtNextBar_untouched bpm
  | scheduleAt beat action => exact c.submit_untouched _ _ _ _
  | scheduleAfter beats action => exact c.scheduleAfter_untouched _ _
  | schedule timing action => exact c.submit_untouched _ _ _ _
  | scheduleIn span action => exact c.scheduleAfter_untouched _ _
  | schedulePriority beat action => exact c.submit_untouched _ _ _ _
  | scheduleOwned beat action owner => exact c.submit_untouched _ _ _ _
  | every period action => exact c.every_untouched period action
  | recurringPoint period =>
    simp only [apply, Conductor.recurringPoint]
    split <;> exact ⟨⟨rfl, rfl⟩, rfl⟩
  | bind id beat => exact c.bind_untouched id beat
  | addAction id action => exact c.addAction_untouched id action
  | clearPoint id => exact c.clearPoint_untouched id
  | start =>
    simp only [apply, Conductor.start]
    split_ifs <;> exact ⟨⟨rfl, rfl⟩, rfl⟩
  | stop =>
    simp only [apply, Conductor.stop]
    split_ifs <;> exact ⟨⟨rfl, rfl⟩, rfl⟩
  | close =>
    simp only [apply, Conductor.close, Conductor.stop]
    split_ifs <;> exact ⟨⟨rfl, rfl⟩, rfl⟩
  | cancel | cancelOwners | cancelEntry | clearQueue | createPoint | derivePoint
  | clearAllPoints => exact ⟨⟨rfl, rfl⟩, rfl⟩
  | clear => cases hclears
  | enableSync | enableConfiguredSync | disableSync | syncStatus | outside => cases hsession
  | advance | advanceBy | moveTo | playheadBpm | playheadBpmAt | playheadTime | playheadShift
  | playheadMeter | setBpm | setMeter | setTime | shift | reconcile => cases h

/-- An operation that neither can move the playhead nor concerns the session leaves both alone. -/
theorem sameCourse {op : Operation σ β} (c : Conductor σ β) (h : op.movesPlayhead = false)
    (hsession : op.concernsSession = false) : c.SameCourse (op.apply c) := by
  cases hclears : op.clearsAll with
  | false => exact (untouched c h hsession hclears).toSameCourse
  | true =>
    cases op with
    | clear => exact ⟨rfl, rfl⟩
    | _ => cases hclears

/-- An operation that is not listed leaves the playhead alone. -/
theorem playhead_apply {op : Operation σ β} (c : Conductor σ β) (h : op.movesPlayhead = false) :
    (op.apply c).playhead = c.playhead := by
  cases hsession : op.concernsSession with
  | false => exact (sameCourse c h hsession).playhead
  | true =>
    cases op with
    | enableSync offset interval => exact c.enableSync_playhead offset interval
    | enableConfiguredSync => exact c.enableSync_playhead _ _
    | disableSync => exact c.disableSync_playhead
    | syncStatus | outside => rfl
    | _ => cases hsession

/-- What an operation does to the timeline of a clock, and what it has checked by then. -/
inductive Retimes (c : Conductor σ β) : Operation σ β → Timeline Float → Prop
  /-- Nothing. A refused change does nothing either. -/
  | kept (op : Operation σ β) : Retimes c op c.playhead.timeline
  /-- The tempo changes now. -/
  | tempo {op : Operation σ β} {bpm : Float} (hop : op = .setBpm bpm ∨ op = .playheadBpm bpm)
      (hbpm : isPositive bpm = true) :
      Retimes c op (c.playhead.timeline.changeTempo c.playhead.time.micros bpm)
  /-- The tempo changes as of a beat. -/
  | tempoAt {beat bpm : Float} (hbpm : isPositive bpm = true) (hbeat : beat.isFinite = true) :
      Retimes c (.playheadBpmAt beat bpm) (c.playhead.timeline.changeTempoAt beat bpm)
  /-- The timeline jumps to a beat. -/
  | jump {op : Operation σ β} {beat : Float} (hop : op = .setTime beat ∨ op = .playheadTime beat)
      (hbeat : beat.isFinite = true) :
      Retimes c op (c.playhead.timeline.jump c.playhead.time.micros beat)
  /-- The timeline is moved by a number of beats. -/
  | shift {op : Operation σ β} {beats : Float} (hop : op = .shift beats ∨ op = .playheadShift beats)
      (hbeats : beats.isFinite = true) : Retimes c op (c.playhead.timeline.shift beats)
  /-- A correction that was worked out is carried out. -/
  | corrected {correction : Correction Float}
      (h : (c.follower.reconcileIfDue c.playhead).answer = .corrected correction) :
      Retimes c .reconcile (Follower.applyCorrection c.playhead correction).1.timeline

namespace Retimes

variable {c : Conductor σ β} {op : Operation σ β}

theorem of_setBpm {bpm beat : Float} {playhead : Playhead}
    (hop : op = .setBpm bpm ∨ op = .playheadBpm bpm)
    (hset : c.playhead.setBpm bpm = .ok (beat, playhead)) : Retimes c op playhead.timeline := by
  obtain ⟨hbpm, rfl⟩ := Playhead.setBpm_ok hset
  exact .tempo hop hbpm

theorem of_setTime {beat : Float} {playhead : Playhead}
    (hop : op = .setTime beat ∨ op = .playheadTime beat)
    (hset : c.playhead.setTime beat = .ok playhead) : Retimes c op playhead.timeline := by
  obtain ⟨hbeat, rfl⟩ := Playhead.setTime_ok hset
  exact .jump hop hbeat

/-- A number of beats that is not finite moves nothing. -/
theorem of_shift {beats : Float} (hop : op = .shift beats ∨ op = .playheadShift beats) :
    Retimes c op (c.playhead.shift beats).timeline := by
  unfold Playhead.shift
  split_ifs with hbeats
  · exact .shift hop hbeats
  · exact .kept op

end Retimes

theorem retimes (op : Operation σ β) (c : Conductor σ β) :
    op.Retimes c (op.apply c).playhead.timeline := by
  cases hmoves : op.movesPlayhead with
  | false =>
    rw [op.playhead_apply c hmoves]
    exact .kept op
  | true =>
    cases op with
    | advance | advanceBy | moveTo =>
      rw [apply, Conductor.moveTime_timeline]
      exact .kept _
    | playheadMeter | setMeter => exact .kept _
    | playheadBpm bpm =>
      simp only [apply]
      cases hset : c.playhead.setBpm bpm with
      | error fault => exact .kept _
      | ok answer => exact .of_setBpm (.inr rfl) hset
    | playheadBpmAt beat bpm =>
      simp only [apply]
      cases hset : c.playhead.setBpmAt beat bpm with
      | error fault => exact .kept _
      | ok playhead =>
        obtain ⟨hbpm, hbeat, rfl⟩ := Playhead.setBpmAt_ok hset
        exact .tempoAt hbpm hbeat
    | playheadTime beat =>
      simp only [apply]
      cases hset : c.playhead.setTime beat with
      | error fault => exact .kept _
      | ok playhead => exact .of_setTime (.inr rfl) hset
    | playheadShift beats => exact .of_shift (.inr rfl)
    | setBpm bpm =>
      simp only [apply, Conductor.setBpm]
      cases hset : c.playhead.setBpm bpm with
      | error fault => exact .kept _
      | ok answer =>
        rw [Conductor.publishTempo_playhead]
        exact .of_setBpm (.inl rfl) hset
    | setTime beat =>
      simp only [apply, Conductor.setTime]
      cases hset : c.playhead.setTime beat with
      | error fault => exact .kept _
      | ok playhead => exact .of_setTime (.inl rfl) hset
    | shift beats =>
      -- The clock checks the number of beats as well, and passes it on as it is.
      simp only [apply, Conductor.shift]
      cases hcheck : checkBeat beats with
      | error fault => exact .kept _
      | ok value =>
        obtain ⟨-, rfl⟩ := checkBeat_ok hcheck
        exact .of_shift (.inl rfl)
    | reconcile =>
      change Retimes c .reconcile (c.adopt _).2.playhead.timeline
      rw [Conductor.adopt_playhead]
      rcases c.follower.reconcileIfDue_playhead c.playhead with heq | ⟨correction, hanswer, heq⟩
      · rw [heq]
        exact .kept _
      · rw [heq]
        exact .corrected hanswer
    | _ => cases hmoves

/-- An operation leaves a tempo that counts as one: it checks the tempo that it sets, or keeps the one in
force. -/
theorem isPositive_bpm_apply (op : Operation σ β) {c : Conductor σ β}
    (h : isPositive c.bpm = true) : isPositive (op.apply c).bpm = true := by
  have hretimes := op.retimes c
  change isPositive (op.apply c).playhead.timeline.bpm = true
  generalize (op.apply c).playhead.timeline = timeline at hretimes ⊢
  cases hretimes with
  | kept | jump | shift => exact h
  | tempo _ hbpm | tempoAt hbpm => exact hbpm
  | corrected => exact Follower.isPositive_applyCorrection h _

end Operation

variable [Transport σ]

/-- What the clock does by itself for a task leaves the timeline alone, or changes the tempo as of a
beat. -/
theorem Task.timeline_carry (task : Task β) (c : Conductor σ β) :
    (task.carry c).playhead.timeline = c.playhead.timeline ∨
      ∃ beat bpm, isPositive bpm = true ∧ beat.isFinite = true ∧
        (task.carry c).playhead.timeline = c.playhead.timeline.changeTempoAt beat bpm := by
  unfold carry
  split
  · exact .inl rfl
  · exact .inl rfl
  · split_ifs
    · rw [(Conductor.rearm_untouched _ _ _).playhead]
      exact .inl rfl
    · exact .inl rfl
  · rename_i beat bpm
    unfold Conductor.changeTempoAt
    cases hset : c.playhead.setBpmAt beat bpm with
    | error fault => exact .inl rfl
    | ok playhead =>
      obtain ⟨hbpm, hbeat, rfl⟩ := Playhead.setBpmAt_ok hset
      simp only [Conductor.publishTempo_playhead]
      exact .inr ⟨beat, bpm, hbpm, hbeat, rfl⟩

/-- What the clock does by itself for a task leaves a tempo that counts as one. -/
theorem Task.isPositive_bpm_carry (task : Task β) {c : Conductor σ β}
    (h : isPositive c.bpm = true) : isPositive (task.carry c).bpm = true := by
  change isPositive (task.carry c).playhead.timeline.bpm = true
  rcases task.timeline_carry c with heq | ⟨beat, bpm, hbpm, -, heq⟩
  · rw [heq]
    exact h
  · rw [heq]
    exact hbpm

omit [Transport σ] in
/-- A clock starts with the tempo and the beat of its configuration, which are checked. -/
theorem Conductor.create_ok {config : Config} {time : WallTime} {session : σ} {c : Conductor σ β}
    (h : create config time session = .ok c) :
    isPositive config.clock.tempo = true ∧ config.clock.startBeat.isFinite = true ∧
      c.playhead.timeline = ⟨config.clock.tempo, time.micros, config.clock.startBeat⟩ := by
  obtain ⟨playhead, hstart, hresult⟩ := bind_ok h
  obtain ⟨hbpm, hbeat, rfl⟩ := Playhead.start_ok hstart
  rw [← Except.ok.inj hresult]
  exact ⟨hbpm, hbeat, rfl⟩

/-- Over any history the tempo in force is one that is accepted as a tempo. -/
theorem History.isPositive_bpm {events : List (Event σ β)} {m : Moment σ β}
    (h : History events m) : isPositive m.clock.bpm = true := by
  induction h using History.induction with
  | created hcreate =>
    obtain ⟨hbpm, -, heq⟩ := Conductor.create_ok hcreate
    rw [Conductor.bpm, Playhead.bpm, heq]
    exact hbpm
  | stepped _ hstep ih =>
    cases hstep with
    | @call c u op permitted => exact op.isPositive_bpm_apply ih
    | measure => exact ih
    | @start c u reading e rest => exact e.task.isPositive_bpm_carry ih
    | fail => exact ih
    | pass => exact ih

end Cadence
