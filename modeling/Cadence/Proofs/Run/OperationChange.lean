import Mathlib
import Cadence.Proofs.Run.PointChange

/-!
# What every operation changes

The operations of the clock one by one. `Operation.Resets` says which points an operation resets, and
the main statement is `Operation.change`: the points and the queue afterwards come about by exactly
those resets, by dropping entries, and then by requesting some with live tokens. No operation but
attaching an action requests anything for a recurring point that it does not reset.
-/

namespace Cadence

variable {σ β : Type}

namespace Operation

/-- The operation resets the point: clearing does with what derives from a point, and so does binding
a recurring point to a finite beat; a jump and a clear do with every point. -/
def Resets (op : Operation σ β) (c : Conductor σ β) (q : PointId) : Prop :=
  match op with
  | .clearPoint id => c.points.DerivesFrom q id
  | .bind id beat =>
    beat.isFinite = true ∧ (∃ period, c.points.Recurs id period) ∧ c.points.DerivesFrom q id
  | .setTime beat => beat.isFinite = true
  | .clear => True
  | .clearAllPoints => True
  | _ => False

/-- The requests of an operation are for no recurring point that it does not reset, unless it attaches
an action. -/
def QuietUnlessAttaching (op : Operation σ β) (c : Conductor σ β) (requests : List (Request β)) :
    Prop :=
  (∀ id action, op ≠ .addAction id action) → ∀ r ∈ requests, r.Quiet c.points (op.Resets c)

/-- Changing the playhead alone changes neither the queue nor the points. -/
theorem accepted_queue_points (c : Conductor σ β) (changed : Except Fault Playhead) :
    (accepted c changed).queue = c.queue ∧ (accepted c changed).points = c.points := by
  cases changed <;> exact ⟨rfl, rfl⟩

end Operation

namespace Conductor

/-- Moving time changes neither the queue nor the points. -/
theorem moveTime_queue_points (c : Conductor σ β) (move : WallTime → WallTime) :
    (c.moveTime move).queue = c.queue ∧ (c.moveTime move).points = c.points := ⟨rfl, rfl⟩

theorem adopt_queue_points {α : Type} (c : Conductor σ β) (o : Follower.Outcome σ α) :
    (c.adopt o).2.queue = c.queue ∧ (c.adopt o).2.points = c.points := by
  obtain ⟨hq, hp, -⟩ := ({ c with
    playhead := o.playhead, follower := o.follower } : Conductor σ β).emitAll_queue_points o.outputs
  exact ⟨hq, hp⟩

/-- Starting to follow the session takes over what the follower leaves behind, and wakes the driver if
nothing was refused. -/
theorem enableSync_cases [Transport σ] (c : Conductor σ β) (offset interval : Float) :
    (c.enableSync offset interval).2 = (c.adopt (c.follower.enable c.playhead offset interval)).2 ∨
      (c.enableSync offset interval).2 =
        (c.adopt (c.follower.enable c.playhead offset interval)).2.wake := by
  unfold enableSync
  rcases c.adopt (c.follower.enable c.playhead offset interval) with ⟨_ | status, c'⟩
  · exact .inl rfl
  · exact .inr rfl

/-- Starting to follow the session changes neither the queue nor the points. -/
theorem enableSync_queue_points [Transport σ] (c : Conductor σ β) (offset interval : Float) :
    (c.enableSync offset interval).2.queue = c.queue ∧
      (c.enableSync offset interval).2.points = c.points := by
  have hadopt := c.adopt_queue_points (c.follower.enable c.playhead offset interval)
  rcases c.enableSync_cases offset interval with heq | heq <;> rw [heq] <;> exact hadopt

theorem shift_queue_points (c : Conductor σ β) (beats : Float) :
    (c.shift beats).2.queue = c.queue ∧ (c.shift beats).2.points = c.points := by
  unfold shift
  cases checkBeat beats <;> exact ⟨rfl, rfl⟩

theorem start_queue_points (c : Conductor σ β) :
    c.start.queue = c.queue ∧ c.start.points = c.points := by
  unfold start
  split_ifs <;> exact ⟨rfl, rfl⟩

theorem stop_queue_points (c : Conductor σ β) :
    c.stop.queue = c.queue ∧ c.stop.points = c.points := by
  unfold stop
  split_ifs <;> exact ⟨rfl, rfl⟩

/-- Making a tempo change known changes neither the queue nor the points. -/
theorem publishTempo_queue_points [Transport σ] (c : Conductor σ β) (bpm beat : Float) :
    (c.publishTempo bpm beat).queue = c.queue ∧ (c.publishTempo bpm beat).points = c.points := by
  unfold publishTempo
  obtain ⟨hq, hp, -⟩ := emitAll_queue_points
    ({ c.say .info s!"Tempo set to {Number.fixed 2 bpm} bpm at beat {Number.fixed 3 beat}" with
      follower := (c.follower.propose bpm).1 } : Conductor σ β) (c.follower.propose bpm).2
  exact ⟨hq, hp⟩

theorem setBpm_queue_points [Transport σ] (c : Conductor σ β) (bpm : Float) :
    (c.setBpm bpm).2.queue = c.queue ∧ (c.setBpm bpm).2.points = c.points := by
  unfold setBpm
  split
  · exact ⟨rfl, rfl⟩
  · exact publishTempo_queue_points _ _ _

/-- Carrying out a tempo change as of a beat changes neither the queue nor the points. -/
theorem changeTempoAt_queue_points [Transport σ] (c : Conductor σ β) (beat bpm : Float) :
    (c.changeTempoAt beat bpm).2.queue = c.queue ∧
      (c.changeTempoAt beat bpm).2.points = c.points := by
  unfold changeTempoAt
  split
  · exact ⟨rfl, rfl⟩
  · exact publishTempo_queue_points _ bpm beat

/-- Queuing a tempo change at the next bar line. -/
theorem queueChange_setBpmAtNextBar (c : Conductor σ β) (bpm : Float) :
    QueueChange c (c.setBpmAtNextBar bpm).2 := by
  unfold setBpmAtNextBar
  cases hcheck : checkTempo bpm with
  | error fault => exact .of_eq ⟨rfl, rfl⟩
  | ok bpm =>
    have hsubmit : QueueChange c
        (c.submit c.nextBar true (.tempo c.nextBar bpm) none).2 :=
      c.queueChange_submit _ true none rfl
    simp only
    split <;> rename_i heq <;> rw [heq] at hsubmit <;> exact hsubmit

/-- Queuing an action some beats from now. -/
theorem queueChange_scheduleAfter (c : Conductor σ β) (beats : Float) (action : Action β) :
    QueueChange c (c.scheduleAfter beats action).2 := by
  unfold scheduleAfter
  cases checkBeat beats with
  | error fault => exact .of_eq ⟨rfl, rfl⟩
  | ok beats => exact c.queueChange_submit _ false none rfl

theorem change_clearQueue (c : Conductor σ β) :
    Change c c.clearQueue.2 (fun _ => False) [] :=
  Change.of_dropped c.queue.evolves_clear rfl

theorem change_clearAllPoints (c : Conductor σ β) :
    Change c c.clearAllPoints (fun _ => True) [] :=
  Change.of_points rfl (Points.advances_resetAll c.points)

/-- A jump to a beat that is not finite is refused. -/
theorem setTime_of_not_isFinite (c : Conductor σ β) {beat : Float} (h : beat.isFinite = false) :
    c.setTime beat = (.error (.invalidBeat beat), c) := by
  simp [setTime, Playhead.setTime, checkBeat, h, Bind.bind, Except.bind]

/-- A jump to a finite beat drops every entry and resets every point. -/
theorem change_setTime (c : Conductor σ β) (beat : Float) :
    Change c (c.setTime beat).2 (fun _ => beat.isFinite = true) [] := by
  cases hbeat : beat.isFinite with
  | false =>
    rw [c.setTime_of_not_isFinite hbeat]
    exact (Change.of_eq rfl rfl).congr (by simp)
  | true =>
    have hplayhead : c.playhead.setTime beat =
        .ok { c.playhead with timeline := c.playhead.timeline.jump c.playhead.time.micros beat } := by
      simp [Playhead.setTime, checkBeat, hbeat, Bind.bind, Except.bind, pure, Except.pure]
    -- The jump moves the timeline and then clears the queue and the points.
    obtain ⟨c₁, hc₁⟩ : ∃ c₁ : Conductor σ β, c₁ = { c with
        playhead := { c.playhead with
          timeline := c.playhead.timeline.jump c.playhead.time.micros beat } } := ⟨_, rfl⟩
    have hq : (c.setTime beat).2.queue = c₁.clearQueue.2.clearAllPoints.queue := by
      unfold setTime
      rw [hplayhead, hc₁]
      rfl
    have hp : (c.setTime beat).2.points = c₁.clearQueue.2.clearAllPoints.points := by
      unfold setTime
      rw [hplayhead, hc₁]
      rfl
    have hmove : Change c c₁ (fun _ => False) [] := .of_eq (by rw [hc₁]) (by rw [hc₁])
    have hreset := hmove.trans_left (c₁.change_clearQueue.trans_left (change_clearAllPoints _))
    exact (hreset.trans (.of_eq hq hp)).congr (by simp)

/-- A clear drops every entry and resets every point. -/
theorem change_clear (c : Conductor σ β) : Change c c.clear (fun _ => True) [] := by
  have hreset := c.change_clearQueue.trans_left (change_clearAllPoints _)
  exact hreset.trans (.of_eq rfl rfl)

/-- Creating a point that recurs is refused, or creates it. -/
theorem recurringPoint_cases (c : Conductor σ β) (period : Float) :
    (c.recurringPoint period).2 = c ∨
      ∃ period', (c.recurringPoint period).2 = (c.createPoint (.recurring period')).2 := by
  unfold recurringPoint
  cases checkPeriod period with
  | error fault => exact .inl rfl
  | ok period' => exact .inr ⟨period', rfl⟩

theorem change_recurringPoint (c : Conductor σ β) (period : Float) :
    Change c (c.recurringPoint period).2 (fun _ => False) [] := by
  rcases c.recurringPoint_cases period with hsame | ⟨period', hcreate⟩
  · exact .of_eq (congrArg _ hsame) (congrArg _ hsame)
  · rw [hcreate]
    exact .of_points rfl (Points.advances_insert _ _)

/-- Running an action every so many beats is refused, or creates a recurring point, attaches the action
to it and binds it. -/
theorem every_cases (c : Conductor σ β) (period : Float) (action : Action β) :
    (c.every period action).2 = c ∨
      ∃ period', (c.every period action).2 =
        (((c.createPoint (.recurring period')).2.addAction c.points.nextId action).bind
          c.points.nextId (((c.createPoint (.recurring period')).2.addAction
            c.points.nextId action).now + period)).2 := by
  cases hcheck : checkPeriod period with
  | error fault => exact .inl (by simp [every, recurringPoint, hcheck])
  | ok period' =>
    refine .inr ⟨period', ?_⟩
    unfold every recurringPoint
    rw [hcheck]
    simp only
    rw [show (c.createPoint (.recurring period')).1 = c.points.nextId from rfl]
    split <;> rename_i heq <;> rw [heq]

/-- A recurring point that was just created. -/
theorem node?_createPoint_recurring (c : Conductor σ β) (period : Float) :
    (c.createPoint (.recurring period)).2.points.node? c.points.nextId =
      some (.fresh (.recurring period) true none) :=
  (Points.node?_insert _ _ _).trans (if_pos rfl)

/-- Creating a recurring point and attaching an action to it requests nothing. -/
theorem change_createPoint_addAction (c : Conductor σ β) (period : Float) (action : Action β) :
    Change c ((c.createPoint (.recurring period)).2.addAction c.points.nextId action)
      (fun _ => False) [] := by
  have hcreate : Change c (c.createPoint (.recurring period)).2 (fun _ => False) [] :=
    Change.of_points rfl (Points.advances_insert _ _)
  have hattach := (c.createPoint (.recurring period)).2.change_addAction c.points.nextId action
  have hnone : (c.createPoint (.recurring period)).2.attachRequests c.points.nextId action = [] := by
    unfold attachRequests Points.addAction
    rw [Points.find_of_node? (c.node?_createPoint_recurring period)]
    rfl
  rw [hnone] at hattach
  exact hcreate.trans_left hattach

/-- It leaves every other point as it was. -/
theorem node?_createPoint_addAction (c : Conductor σ β) (period : Float) (action : Action β)
    (q : PointId) :
    ((c.createPoint (.recurring period)).2.addAction c.points.nextId action).points.node? q =
      if q = c.points.nextId then
        some { (PointNode.fresh (.recurring period) true none : PointNode (Action β)) with
          actions := [action] }
      else c.points.node? q := by
  rw [(addAction_spec _ _ _).1, Points.node?_addAction]
  split_ifs with hq
  · rw [hq, c.node?_createPoint_recurring period]
    rfl
  · exact (Points.node?_insert _ _ _).trans (if_neg hq)

/-- Binding that point resets none that was there, for none derives from it. -/
theorem change_bind_created {c c' : Conductor σ β} (hlinked : c.points.Linked)
    (hcreated : Change c c' (fun _ => False) []) {beat : Float} {requests : List (Request β)}
    (hbind : Change c' (c'.bind c.points.nextId beat).2 (c'.BindResets c.points.nextId beat)
      requests) :
    Change c (c'.bind c.points.nextId beat).2 (fun _ => False) requests := by
  refine (hcreated.trans_left hbind).congr fun q hq => ⟨fun hr => ?_, False.elim⟩
  exact absurd hq (not_lt.mpr ((hcreated.points.linked hlinked).index_le hr.2.2))

/-- Running an action every so many beats creates a point, so it resets none that was there, and it
requests entries only for the new one. -/
theorem change_every (c : Conductor σ β) (hlinked : c.points.Linked) (period : Float)
    (action : Action β) :
    ∃ requests, Change c (c.every period action).2 (fun _ => False) requests ∧
      ∀ r ∈ requests, r.Quiet c.points fun _ => False := by
  rcases c.every_cases period action with hsame | ⟨period', hevery⟩
  · rw [hsame]
    exact ⟨[], .of_eq rfl rfl, by simp⟩
  · rw [hevery]
    have hboth := c.change_createPoint_addAction period' action
    have hlinked' := hboth.points.linked hlinked
    obtain ⟨requests, hbind, hquiet⟩ := change_bind _ hlinked' c.points.nextId
      (((c.createPoint (.recurring period')).2.addAction c.points.nextId action).now + period)
    refine ⟨requests, change_bind_created hlinked hboth hbind, ?_⟩
    intro r hr token node period'' htoken hnode hkind
    obtain ⟨node', hnode', hgrows, -⟩ := hboth.points.node hnode
    -- A recurring point that is asked for was bound, and that was the new one.
    have hreset := hquiet r hr token node' period'' htoken hnode' (hgrows.kind.trans hkind)
    exact absurd (Points.has_of_node? hnode) (not_lt.mpr (hlinked'.index_le hreset.2.2))

end Conductor

namespace Operation

/-- The operation creates, binds or resets points, or attaches an action to one. -/
def ConcernsPoints : Operation σ β → Prop
  | .setTime _ | .every _ _ | .clear | .createPoint _ | .recurringPoint _ | .derivePoint _
  | .bind _ _ | .addAction _ _ | .clearPoint _ | .clearAllPoints => True
  | _ => False

theorem not_resets {op : Operation σ β} (h : ¬ op.ConcernsPoints) (c : Conductor σ β) (q : PointId) :
    ¬ op.Resets c q := by
  cases op with
  | setTime | clear | bind | clearPoint | clearAllPoints => exact absurd trivial h
  | _ => exact id

variable [Transport σ]

/-- Any other operation changes the queue alone, if anything. -/
theorem queueChange {op : Operation σ β} (h : ¬ op.ConcernsPoints) (c : Conductor σ β) :
    QueueChange c (op.apply c) := by
  cases op with
  | setTime | every | clear | createPoint | recurringPoint | derivePoint | bind | addAction
  | clearPoint | clearAllPoints => exact absurd trivial h
  | advance micros => exact .of_eq (c.moveTime_queue_points (·.advanceMicros micros))
  | advanceBy seconds nanoseconds =>
    exact .of_eq (c.moveTime_queue_points (·.advance seconds nanoseconds))
  | moveTo date => exact .of_eq (c.moveTime_queue_points (·.moveTo date))
  | playheadBpm | playheadBpmAt | playheadTime => exact .of_eq (accepted_queue_points c _)
  | playheadShift | playheadMeter | setMeter | syncStatus | outside => exact .of_eq ⟨rfl, rfl⟩
  | setBpm bpm => exact .of_eq (c.setBpm_queue_points bpm)
  | setBpmAtNextBar bpm => exact c.queueChange_setBpmAtNextBar bpm
  | shift beats => exact .of_eq (c.shift_queue_points beats)
  | scheduleAt beat action => exact c.queueChange_submit beat false none rfl
  | scheduleAfter beats action => exact c.queueChange_scheduleAfter beats action
  | schedule timing action =>
    exact c.queueChange_submit (timing.targetBeat .ratios c.playhead) false none rfl
  | scheduleIn span action => exact c.queueChange_scheduleAfter (span.toBeats c.playhead) action
  | schedulePriority beat action => exact c.queueChange_submit beat true none rfl
  | scheduleOwned beat action owner => exact c.queueChange_submit beat false owner rfl
  | cancel | cancelOwners | cancelEntry => exact .of_dropped (c.queue.evolves_removeIf _) rfl
  | clearQueue => exact .of_dropped c.queue.evolves_clear rfl
  | enableSync offset interval => exact .of_eq (c.enableSync_queue_points offset interval)
  | enableConfiguredSync =>
    exact .of_eq (c.enableSync_queue_points c.follower.settings.phaseOffset
      c.follower.settings.resyncInterval)
  | disableSync => exact .of_eq (c.adopt_queue_points (c.follower.disable c.playhead))
  | reconcile => exact .of_eq (c.adopt_queue_points (c.follower.reconcileIfDue c.playhead))
  | start => exact .of_eq c.start_queue_points
  | stop => exact .of_eq c.stop_queue_points
  | close => exact .of_eq c.stop_queue_points

/-- An operation that changes as it resets, and requests nothing. -/
theorem change_of_silent {op : Operation σ β} {c : Conductor σ β}
    (h : Change c (op.apply c) (op.Resets c) []) :
    ∃ requests, Change c (op.apply c) (op.Resets c) requests ∧
      op.QuietUnlessAttaching c requests :=
  ⟨[], h, fun _ _ h => by cases h⟩

/-- What an operation changes. -/
theorem change (op : Operation σ β) {c : Conductor σ β} (hlinked : c.points.Linked)
    (hpermitted : op.Permitted c) :
    ∃ requests, Change c (op.apply c) (op.Resets c) requests ∧
      op.QuietUnlessAttaching c requests := by
  by_cases hop : op.ConcernsPoints
  swap
  · -- Without a token a request is for no point.
    obtain ⟨requests, hchange, -, hnone⟩ := queueChange hop c
    refine ⟨requests, hchange.congr fun q _ => ⟨False.elim, not_resets hop c q⟩, ?_⟩
    intro _ r hr token node period htoken
    rw [hnone r hr] at htoken
    cases htoken
  cases op with
  | setTime beat => exact change_of_silent (c.change_setTime beat)
  | every period action =>
    obtain ⟨requests, hchange, hquiet⟩ := c.change_every hlinked period action
    exact ⟨requests, hchange, fun _ => hquiet⟩
  | clear => exact change_of_silent c.change_clear
  | createPoint kind =>
    exact change_of_silent (.of_points rfl (Points.advances_insert _ _))
  | recurringPoint period => exact change_of_silent (c.change_recurringPoint period)
  | derivePoint d => exact change_of_silent (.of_points rfl (Points.advances_derive hpermitted))
  | bind id beat =>
    obtain ⟨requests, hchange, hquiet⟩ := c.change_bind hlinked id beat
    exact ⟨requests, hchange, fun _ => hquiet⟩
  | addAction id action =>
    exact ⟨_, c.change_addAction id action, fun h => absurd rfl (h id action)⟩
  | clearPoint id => exact change_of_silent (c.change_clearPoint hlinked id)
  | clearAllPoints => exact change_of_silent c.change_clearAllPoints
  | _ => exact absurd hop id

end Operation

end Cadence
