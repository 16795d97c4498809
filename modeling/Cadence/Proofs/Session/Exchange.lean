import Mathlib
import Cadence.Proofs.Run.Answer
import Cadence.Proofs.Run.Following

/-!
# Clocks with another session

A clock touches its session only through the calls of the transport, and only some operations make such
calls. So the session can be exchanged: what is done with another one is the same but for the session, if
the exchange carries over the calls that are made. It does so in two cases. A map between transports may
carry every call over (`Transport.Hom`); or no call is made, because nothing is followed and the operation
does not ask for it, and then any map will do.

- `Follower.status_mapSession` and the lemmas after it: the calls of the follower are carried over;
- `Operation.apply_mapSession`: what an operation leaves and answers with another session.
-/

namespace Cadence

variable {σ τ β : Type}

/-- A map between transports that carries every call over: the image answers what the original answers,
and is left as the image of what the original is left as. -/
structure Transport.Hom [Transport σ] [Transport τ] (φ : σ → τ) : Prop where
  /-- The names are the same. -/
  name : ∀ s, Transport.name (φ s) = Transport.name s
  /-- Joining is carried over. -/
  connect : ∀ s tempo quantum, Transport.connect (φ s) tempo quantum =
    (Transport.connect s tempo quantum).map id φ
  /-- Leaving is carried over. -/
  disconnect : ∀ s, Transport.disconnect (φ s) = φ (Transport.disconnect s)
  /-- Reading is carried over. -/
  capture : ∀ s quantum, Transport.capture (φ s) quantum = (Transport.capture s quantum).map id φ
  /-- Proposing is carried over. -/
  propose : ∀ s tempo, Transport.propose (φ s) tempo = (Transport.propose s tempo).map id φ

namespace Follower

/-- The follower with another session in the place of its own. -/
def mapSession (φ : σ → τ) (f : Follower σ) : Follower τ := ⟨f.settings, φ f.session, f.following⟩

/-- What an operation leaves behind, with another session. -/
def Outcome.mapSession {α : Type} (φ : σ → τ) (o : Outcome σ α) : Outcome τ α :=
  ⟨o.answer, o.playhead, o.follower.mapSession φ, o.outputs⟩

@[simp]
theorem settings_mapSession (φ : σ → τ) (f : Follower σ) :
    (f.mapSession φ).settings = f.settings := rfl

@[simp]
theorem session_mapSession (φ : σ → τ) (f : Follower σ) :
    (f.mapSession φ).session = φ f.session := rfl

@[simp]
theorem following_mapSession (φ : σ → τ) (f : Follower σ) :
    (f.mapSession φ).following = f.following := rfl

@[simp]
theorem quantum_mapSession (φ : σ → τ) (f : Follower σ) (p : Playhead) :
    (f.mapSession φ).quantum p = f.quantum p := rfl

variable [Transport σ] [Transport τ] {φ : σ → τ}

/-- The map carries over the calls that the follower makes: every call, or it follows nothing. -/
def CarriedBy (f : Follower σ) (φ : σ → τ) : Prop := Transport.Hom φ ∨ f.following = none

/-- The state of the follower is reported the same. -/
theorem status_mapSession {f : Follower σ} (h : f.CarriedBy φ) (p : Playhead) :
    (f.mapSession φ).status p = (f.status p).map id (·.mapSession φ) := by
  unfold status
  cases hknown : f.following with
  | none =>
    simp only [following_mapSession, hknown]
    rfl
  | some known =>
    -- Something is followed, so every call is carried over.
    have hom := h.resolve_right (by simp [hknown])
    simp only [following_mapSession, session_mapSession, quantum_mapSession, hknown, hom.capture]
    rfl

theorem propose_mapSession {f : Follower σ} (h : f.CarriedBy φ) (bpm : Float) :
    (f.mapSession φ).propose bpm = (f.propose bpm).map (·.mapSession φ) id := by
  unfold propose isEnabled
  cases hknown : f.following with
  | none => simp [hknown]
  | some known =>
    have hom := h.resolve_right (by simp [hknown])
    simp only [following_mapSession, session_mapSession, hknown, hom.propose, Option.isSome_some,
      if_true]
    rcases Transport.propose f.session bpm with ⟨_ | _, session⟩ <;> rfl

theorem disable_mapSession {f : Follower σ} (h : f.CarriedBy φ) (p : Playhead) :
    (f.mapSession φ).disable p = (f.disable p).mapSession φ := by
  unfold disable
  cases hknown : f.following with
  | none => simp only [following_mapSession, hknown, Outcome.mapSession]
  | some known =>
    have hom := h.resolve_right (by simp [hknown])
    simp only [following_mapSession, session_mapSession, hknown, hom.disconnect]
    rfl

omit [Transport σ] [Transport τ] in
theorem adopt_mapSession (f : Follower σ) (p : Playhead) (known : Following) (remote : Snapshot) :
    (f.mapSession φ).adopt p known remote = (f.adopt p known remote).mapSession φ := by
  unfold adopt
  simp only [settings_mapSession, quantum_mapSession]
  split <;> rfl

theorem reconcileIfDue_mapSession {f : Follower σ} (h : f.CarriedBy φ) (p : Playhead) :
    (f.mapSession φ).reconcileIfDue p = (f.reconcileIfDue p).mapSession φ := by
  unfold reconcileIfDue reconcile
  cases hknown : f.following with
  | none =>
    simp only [following_mapSession, hknown]
    rfl
  | some known =>
    have hom := h.resolve_right (by simp [hknown])
    simp only [following_mapSession, session_mapSession, quantum_mapSession, hknown, hom.capture,
      Prod.map_fst, id]
    split_ifs
    · cases usable (Transport.capture f.session (f.quantum p)).1 with
      | error refusal => rfl
      | ok remote =>
        exact adopt_mapSession (φ := φ) ⟨f.settings, (Transport.capture f.session (f.quantum p)).2,
          some known⟩ p _ remote
    · rfl

theorem withStatus_mapSession {f : Follower σ} (h : f.CarriedBy φ) (p : Playhead)
    (outputs : List Output) :
    Outcome.withStatus p (f.mapSession φ) outputs = (Outcome.withStatus p f outputs).mapSession φ := by
  unfold Outcome.withStatus
  rw [status_mapSession h]
  rfl

theorem join_mapSession (hom : Transport.Hom φ) (f : Follower σ) (p : Playhead)
    (offset interval : Float) :
    (f.mapSession φ).join p offset interval = (f.join p offset interval).mapSession φ := by
  unfold join
  simp only [session_mapSession, quantum_mapSession, hom.connect, hom.name]
  rcases Transport.connect f.session p.bpm (f.quantum p) with ⟨_ | _, joined⟩
  · rfl
  · simp only [Prod.map_apply, id, hom.capture]
    exact withStatus_mapSession (f := ⟨f.settings, _, _⟩) (.inl hom) _ _

theorem enable_mapSession (hom : Transport.Hom φ) (f : Follower σ) (p : Playhead)
    (offset interval : Float) :
    (f.mapSession φ).enable p offset interval = (f.enable p offset interval).mapSession φ := by
  unfold enable
  cases checkPeriod interval with
  | error fault => rfl
  | ok interval =>
    simp only
    split_ifs
    · rfl
    · cases hknown : f.following with
      | some known =>
        simp only [following_mapSession, hknown]
        exact withStatus_mapSession (f := { f with following := some _ }) (.inl hom) p _
      | none =>
        simp only [following_mapSession, hknown]
        exact join_mapSession hom f p offset interval

end Follower

namespace Conductor

/-- The clock with another session in the place of its own. -/
def mapSession (φ : σ → τ) (c : Conductor σ β) : Conductor τ β where
  playhead := c.playhead
  queue := c.queue
  points := c.points
  follower := c.follower.mapSession φ
  audience := c.audience
  log := c.log
  driver := c.driver

section

variable (φ : σ → τ) (c : Conductor σ β)

@[simp]
theorem playhead_mapSession : (c.mapSession φ).playhead = c.playhead := rfl

@[simp]
theorem nextBar_mapSession : (c.mapSession φ).nextBar = c.nextBar := rfl

@[simp]
theorem points_mapSession : (c.mapSession φ).points = c.points := rfl

@[simp]
theorem follower_mapSession : (c.mapSession φ).follower = c.follower.mapSession φ := rfl

@[simp]
theorem now_mapSession : (c.mapSession φ).now = c.now := rfl

/-! ## What does not concern the session -/

omit c in
theorem ite_mapSession {p q : Prop} [Decidable p] [Decidable q] {x y : Conductor τ β}
    {x' y' : Conductor σ β} (h : p ↔ q) (hx : x = x'.mapSession φ) (hy : y = y'.mapSession φ) :
    (if p then x else y) = (if q then x' else y').mapSession φ := by
  rw [apply_ite (mapSession φ), ← hx, ← hy]
  exact if_congr h rfl rfl

theorem create_mapSession (config : Config) (time : WallTime) (session : σ) :
    (create config time (φ session) : Except Fault (Conductor τ β)) =
      (create config time session).map (mapSession φ) := by
  unfold create
  simp only
  cases Playhead.start time config.clock.tempo config.clock.meter config.clock.startBeat <;> rfl

theorem moveTime_mapSession (move : WallTime → WallTime) :
    (c.mapSession φ).moveTime move = (c.moveTime move).mapSession φ := rfl

theorem emitAll_mapSession (outputs : List Output) :
    (c.mapSession φ).emitAll outputs = (c.emitAll outputs).mapSession φ := by
  induction outputs generalizing c with
  | nil => rfl
  | cons output rest ih =>
    refine .trans ?_ (ih (c.emit output))
    cases output <;> rfl

theorem submit_mapSession (beat : Float) (priority : Bool) (task : Task β) (owner : Option PointId) :
    (c.mapSession φ).submit beat priority task owner =
      (c.submit beat priority task owner).map id (mapSession φ) := by
  unfold submit
  cases checkBeat beat with
  | error fault => rfl
  | ok beat => exact congrArg (Prod.mk _) (ite_mapSession φ .rfl rfl rfl)

theorem scheduleAfter_mapSession (beats : Float) (action : Action β) :
    (c.mapSession φ).scheduleAfter beats action =
      (c.scheduleAfter beats action).map id (mapSession φ) := by
  unfold scheduleAfter
  cases checkBeat beats with
  | error fault => rfl
  | ok beats => exact c.submit_mapSession φ _ _ _ _

theorem setBpmAtNextBar_mapSession (bpm : Float) :
    (c.mapSession φ).setBpmAtNextBar bpm = (c.setBpmAtNextBar bpm).map id (mapSession φ) := by
  unfold setBpmAtNextBar
  cases checkTempo bpm with
  | error fault => rfl
  | ok bpm =>
    simp only [nextBar_mapSession, submit_mapSession]
    rcases c.submit c.nextBar true (.tempo c.nextBar bpm) none with ⟨_ | _, c'⟩ <;>
      rfl

theorem submitBatch_mapSession (batch : List (Float × Task β × PointId)) :
    (c.mapSession φ).submitBatch batch = (c.submitBatch batch).mapSession φ := by
  rw [submitBatch_eq, submitBatch_eq]
  exact ite_mapSession φ .rfl rfl rfl

theorem setTime_mapSession (beat : Float) :
    (c.mapSession φ).setTime beat = (c.setTime beat).map id (mapSession φ) := by
  unfold setTime
  simp only [playhead_mapSession]
  cases c.playhead.setTime beat <;> rfl

theorem shift_mapSession (beats : Float) :
    (c.mapSession φ).shift beats = (c.shift beats).map id (mapSession φ) := by
  unfold shift
  cases checkBeat beats <;> rfl

theorem start_mapSession : (c.mapSession φ).start = c.start.mapSession φ := by
  unfold start
  exact ite_mapSession φ .rfl rfl rfl

theorem stop_mapSession : (c.mapSession φ).stop = c.stop.mapSession φ := by
  unfold stop
  exact ite_mapSession φ .rfl rfl rfl

theorem close_mapSession : (c.mapSession φ).close = c.close.mapSession φ := by
  unfold close
  rw [stop_mapSession]
  rfl

theorem recurringPoint_mapSession (period : Float) :
    (c.mapSession φ).recurringPoint period = (c.recurringPoint period).map id (mapSession φ) := by
  unfold recurringPoint
  cases checkPeriod period <;> rfl

theorem clearPoint_mapSession (id : PointId) :
    (c.mapSession φ).clearPoint id = (c.clearPoint id).map (·) (mapSession φ) := by
  unfold clearPoint
  simp only [points_mapSession]
  rcases c.points.resetSubtree id with ⟨_ | _, points⟩ <;> rfl

theorem restart_mapSession (id : PointId) (kind : PointKind) :
    (c.mapSession φ).restart id kind = (c.restart id kind).mapSession φ := by
  unfold restart
  simp only [points_mapSession]
  cases kind with
  | recurring period => rcases c.points.resetSubtree id with ⟨_ | _, points⟩ <;> rfl
  | _ => rfl

/-- Binding a point does the same with another session. -/
theorem bind_mapSession (id : PointId) (beat : Float) :
    (c.mapSession φ).bind id beat = (c.bind id beat).map (·) (mapSession φ) := by
  unfold bind
  cases checkBeat beat with
  | error fault => rfl
  | ok beat =>
    simp only [points_mapSession, restart_mapSession]
    cases c.points.node? id with
    | none => rfl
    | some node =>
      simp only
      split
      · rfl
      · cases ((c.restart id node.kind).points.resolve id beat).outcome with
        | error fault => rfl
        | ok resolution =>
          exact congrArg (Prod.mk _) (submitBatch_mapSession φ
            (((c.restart id node.kind).adoptResolved _).say .debug _) _)

theorem rearm_mapSession (token : Token) (beat : Float) :
    (c.mapSession φ).rearm token beat = (c.rearm token beat).mapSession φ := by
  unfold rearm
  simp only [points_mapSession]
  cases (c.points.rearm token.point beat token).outcome with
  | error fault => rfl
  | ok resolution => exact submitBatch_mapSession φ (c.adoptResolved _) _

theorem addAction_mapSession (id : PointId) (action : Action β) :
    (c.mapSession φ).addAction id action = (c.addAction id action).mapSession φ := by
  unfold addAction
  simp only [points_mapSession, now_mapSession]
  rcases c.points.addAction id action c.now with ⟨_ | (_ | entry), points⟩
  · rfl
  · rfl
  · exact submitBatch_mapSession φ { c with points } _

theorem every_mapSession (period : Float) (action : Action β) :
    (c.mapSession φ).every period action = (c.every period action).map id (mapSession φ) := by
  unfold every
  rw [recurringPoint_mapSession]
  rcases c.recurringPoint period with ⟨_ | point, created⟩
  · rfl
  · simp only [Prod.map_apply, id, addAction_mapSession, bind_mapSession, now_mapSession]
    rcases (created.addAction point action).bind point ((created.addAction point action).now + period)
      with ⟨_ | _, bound⟩ <;> rfl

end

/-! ## What concerns the session -/

section

variable [Transport σ] [Transport τ] {φ : σ → τ} {c : Conductor σ β}

omit [Transport σ] [Transport τ] in
theorem adopt_mapSession {α : Type} (o : Follower.Outcome σ α) :
    (c.mapSession φ).adopt (o.mapSession φ) = (c.adopt o).map id (mapSession φ) :=
  congrArg (Prod.mk _)
    (emitAll_mapSession φ { c with playhead := o.playhead, follower := o.follower } _)

theorem publishTempo_mapSession (h : c.follower.CarriedBy φ) (bpm beat : Float) :
    (c.mapSession φ).publishTempo bpm beat = (c.publishTempo bpm beat).mapSession φ := by
  unfold publishTempo
  simp only [follower_mapSession, Follower.propose_mapSession h]
  exact congrArg (announce · _)
    (emitAll_mapSession φ { c.say .info _ with follower := (c.follower.propose bpm).1 } _)

theorem setBpm_mapSession (h : c.follower.CarriedBy φ) (bpm : Float) :
    (c.mapSession φ).setBpm bpm = (c.setBpm bpm).map id (mapSession φ) := by
  unfold setBpm
  simp only [playhead_mapSession]
  cases c.playhead.setBpm bpm with
  | error fault => rfl
  | ok changed =>
    exact congrArg (Prod.mk _) (publishTempo_mapSession (c := { c with playhead := changed.2 }) h _ _)

theorem changeTempoAt_mapSession (h : c.follower.CarriedBy φ) (beat bpm : Float) :
    (c.mapSession φ).changeTempoAt beat bpm = (c.changeTempoAt beat bpm).map id (mapSession φ) := by
  unfold changeTempoAt
  simp only [playhead_mapSession]
  cases c.playhead.setBpmAt beat bpm with
  | error fault => rfl
  | ok playhead =>
    exact congrArg (Prod.mk _) (publishTempo_mapSession (c := { c with playhead }) h _ _)

theorem enableSync_mapSession (hom : Transport.Hom φ) (offset interval : Float) :
    (c.mapSession φ).enableSync offset interval =
      (c.enableSync offset interval).map id (mapSession φ) := by
  unfold enableSync
  simp only [follower_mapSession, playhead_mapSession, Follower.enable_mapSession hom,
    adopt_mapSession]
  rcases c.adopt (c.follower.enable c.playhead offset interval) with ⟨_ | _, c'⟩ <;> rfl

theorem disableSync_mapSession (h : c.follower.CarriedBy φ) :
    (c.mapSession φ).disableSync = c.disableSync.map id (mapSession φ) := by
  unfold disableSync
  simp only [follower_mapSession, playhead_mapSession, Follower.disable_mapSession h,
    adopt_mapSession]

theorem syncStatus_mapSession (h : c.follower.CarriedBy φ) :
    (c.mapSession φ).syncStatus = c.syncStatus.map id (mapSession φ) := by
  unfold syncStatus
  simp only [follower_mapSession, playhead_mapSession, Follower.status_mapSession h]
  rfl

theorem reconcileIfDue_mapSession (h : c.follower.CarriedBy φ) :
    (c.mapSession φ).reconcileIfDue = c.reconcileIfDue.map id (mapSession φ) := by
  unfold reconcileIfDue
  simp only [follower_mapSession, playhead_mapSession, Follower.reconcileIfDue_mapSession h,
    adopt_mapSession]

end

end Conductor

/-! ## Operations -/

namespace Operation

/-- The operation on a clock with another session. -/
def mapSession (φ : σ → τ) : Operation σ β → Operation τ β
  | .advance micros => .advance micros
  | .advanceBy seconds nanoseconds => .advanceBy seconds nanoseconds
  | .moveTo date => .moveTo date
  | .playheadBpm bpm => .playheadBpm bpm
  | .playheadBpmAt beat bpm => .playheadBpmAt beat bpm
  | .playheadTime beat => .playheadTime beat
  | .playheadShift beats => .playheadShift beats
  | .playheadMeter meter => .playheadMeter meter
  | .setBpm bpm => .setBpm bpm
  | .setBpmAtNextBar bpm => .setBpmAtNextBar bpm
  | .setMeter meter => .setMeter meter
  | .setTime beat => .setTime beat
  | .shift beats => .shift beats
  | .scheduleAt beat action => .scheduleAt beat action
  | .scheduleAfter beats action => .scheduleAfter beats action
  | .schedule timing action => .schedule timing action
  | .scheduleIn span action => .scheduleIn span action
  | .schedulePriority beat action => .schedulePriority beat action
  | .scheduleOwned beat action owner => .scheduleOwned beat action owner
  | .every period action => .every period action
  | .cancel id => .cancel id
  | .cancelOwners ids => .cancelOwners ids
  | .cancelEntry id => .cancelEntry id
  | .clearQueue => .clearQueue
  | .clear => .clear
  | .createPoint kind => .createPoint kind
  | .recurringPoint period => .recurringPoint period
  | .derivePoint derivation => .derivePoint derivation
  | .bind id beat => .bind id beat
  | .addAction id action => .addAction id action
  | .clearPoint id => .clearPoint id
  | .clearAllPoints => .clearAllPoints
  | .enableSync offset interval => .enableSync offset interval
  | .enableConfiguredSync => .enableConfiguredSync
  | .disableSync => .disableSync
  | .syncStatus => .syncStatus
  | .reconcile => .reconcile
  | .start => .start
  | .stop => .stop
  | .close => .close
  | .outside session audience log => .outside (φ session) audience log

/-- What is left and read with another session, once it is known what both amount to. -/
theorem both_mapSession {α : Type} {φ : σ → τ} (read : α → Answer) {result : α × Conductor σ β}
    {result' : α × Conductor τ β} (h : result' = result.map id (Conductor.mapSession φ)) :
    result'.2 = result.2.mapSession φ ∧ read result'.1 = read result.1 := by
  subst h
  exact ⟨rfl, rfl⟩

variable [Transport σ] [Transport τ]

/-- The map carries over the calls that the operation makes: every call, or nothing is followed, and the
operation does not ask for the session to be followed. -/
def CarriedBy (op : Operation σ β) (c : Conductor σ β) (φ : σ → τ) : Prop :=
  Transport.Hom φ ∨ c.following = none ∧ op.follows c = none

/-- With another session an operation answers the same, and leaves the same clock but for the
session. -/
theorem apply_mapSession {op : Operation σ β} {c : Conductor σ β} {φ : σ → τ}
    (h : op.CarriedBy c φ) :
    (op.mapSession φ).apply (c.mapSession φ) = (op.apply c).mapSession φ ∧
      (op.mapSession φ).answer (c.mapSession φ) = op.answer c := by
  have hcalls : c.follower.CarriedBy φ := h.imp id And.left
  cases op with
  | advance micros => exact ⟨c.moveTime_mapSession φ (·.advanceMicros micros), rfl⟩
  | advanceBy seconds nanoseconds =>
    exact ⟨c.moveTime_mapSession φ (·.advance seconds nanoseconds), rfl⟩
  | moveTo date => exact ⟨c.moveTime_mapSession φ (·.moveTo date), rfl⟩
  | playheadBpm bpm =>
    simp only [mapSession, apply, answer, Conductor.playhead_mapSession, and_true]
    cases c.playhead.setBpm bpm <;> rfl
  | playheadBpmAt beat bpm =>
    simp only [mapSession, apply, answer, Conductor.playhead_mapSession, and_true]
    cases c.playhead.setBpmAt beat bpm <;> rfl
  | playheadTime beat =>
    simp only [mapSession, apply, answer, Conductor.playhead_mapSession, and_true]
    cases c.playhead.setTime beat <;> rfl
  | setBpm bpm => exact both_mapSession (.of fun _ => .done) (Conductor.setBpm_mapSession hcalls bpm)
  | setBpmAtNextBar bpm => exact both_mapSession (.of .beat) (c.setBpmAtNextBar_mapSession φ bpm)
  | setTime beat => exact both_mapSession (.of fun _ => .done) (c.setTime_mapSession φ beat)
  | shift beats => exact both_mapSession (.of fun _ => .done) (c.shift_mapSession φ beats)
  | scheduleAt | schedule | schedulePriority | scheduleOwned =>
    exact both_mapSession (.of .entry) (c.submit_mapSession φ _ _ _ _)
  | scheduleAfter | scheduleIn =>
    exact both_mapSession (.of .entry) (c.scheduleAfter_mapSession φ _ _)
  | every period action => exact both_mapSession (.of .point) (c.every_mapSession φ period action)
  | recurringPoint period => exact both_mapSession (.of .point) (c.recurringPoint_mapSession φ period)
  | bind id beat => exact both_mapSession (.of fun _ => .done) (c.bind_mapSession φ id beat)
  | addAction id action => exact ⟨c.addAction_mapSession φ id action, rfl⟩
  | clearPoint id => exact both_mapSession .count (c.clearPoint_mapSession φ id)
  | start => exact ⟨c.start_mapSession φ, rfl⟩
  | stop => exact ⟨c.stop_mapSession φ, rfl⟩
  | close => exact ⟨c.close_mapSession φ, rfl⟩
  | enableSync | enableConfiguredSync =>
    -- These ask for the session to be followed, so every call is carried over.
    have hom := h.resolve_right fun hidle => Option.some_ne_none _ hidle.2
    exact both_mapSession (.of .status) (Conductor.enableSync_mapSession hom _ _)
  | disableSync => exact both_mapSession .flag (Conductor.disableSync_mapSession hcalls)
  | syncStatus => exact both_mapSession .status (Conductor.syncStatus_mapSession hcalls)
  | reconcile => exact both_mapSession .reconciled (Conductor.reconcileIfDue_mapSession hcalls)
  | _ => exact ⟨rfl, rfl⟩

end Operation

/-- So does the clock for a task by itself. -/
theorem Task.carry_mapSession [Transport σ] [Transport τ] (task : Task β) {c : Conductor σ β}
    {φ : σ → τ} (h : c.follower.CarriedBy φ) :
    task.carry (c.mapSession φ) = (task.carry c).mapSession φ := by
  cases task with
  | act | actFor => rfl
  | rearm token beat =>
    unfold carry
    refine Conductor.ite_mapSession φ .rfl (c.rearm_mapSession φ token beat) rfl
  | tempo beat bpm => exact congrArg Prod.snd (Conductor.changeTempoAt_mapSession h beat bpm)

end Cadence
