import Mathlib
import Cadence.Proofs.Run.OperationChange
import Cadence.Proofs.Run.Program

/-!
# What a refused operation leaves behind

An operation that is refused answers a fault. Most operations check everything before they change
anything, so there is nothing to take back. Two are composed of steps. Joining a session asks the
transport, which may change its own state when it refuses. Running an action periodically creates a point
and attaches the action before it binds the point, and only binding it looks at the first beat.

- `Conductor.Atomic`: what an operation that checks everything first leaves behind;
- `bind_of_error` and `enable_of_error`: why a binding is refused, and what joining a session leaves behind;
- `addAction_createPoint`: what is there before a periodic action is bound;
- `refused_unchanged`: what any refused operation leaves behind.
-/

namespace Cadence

variable {σ β : Type}

/-- The fault that is answered, if it is one. -/
def faultOf {α : Type} : Except Fault α → Option Fault
  | .error fault => some fault
  | .ok _ => none

theorem faultOf_eq_some {α : Type} {answer : Except Fault α} {fault : Fault} :
    faultOf answer = some fault ↔ answer = .error fault := by
  cases answer <;> simp [faultOf]

/-- The fault that an operation answers, if it is refused. -/
def Operation.fault? [Transport σ] (op : Operation σ β) (c : Conductor σ β) : Option Fault :=
  match op with
  | .playheadBpm bpm => faultOf (c.playhead.setBpm bpm)
  | .playheadBpmAt beat bpm => faultOf (c.playhead.setBpmAt beat bpm)
  | .playheadTime beat => faultOf (c.playhead.setTime beat)
  | .setBpm bpm => faultOf (c.setBpm bpm).1
  | .setBpmAtNextBar bpm => faultOf (c.setBpmAtNextBar bpm).1
  | .setTime beat => faultOf (c.setTime beat).1
  | .shift beats => faultOf (c.shift beats).1
  | .scheduleAt beat action => faultOf (c.scheduleAt beat action).1
  | .scheduleAfter beats action => faultOf (c.scheduleAfter beats action).1
  | .schedule timing action => faultOf (c.schedule timing action).1
  | .scheduleIn span action => faultOf (c.scheduleIn span action).1
  | .schedulePriority beat action => faultOf (c.schedulePriority beat action).1
  | .scheduleOwned beat action owner => faultOf (c.scheduleOwned beat action owner).1
  | .every period action => faultOf (c.every period action).1
  | .recurringPoint period => faultOf (c.recurringPoint period).1
  | .bind id beat => faultOf (c.bind id beat).1
  | .enableSync offset interval => faultOf (c.enableSync offset interval).1
  | .enableConfiguredSync => faultOf c.enableConfiguredSync.1
  | _ => none

/-- A recurring point that has an action and no beat. -/
def PointNode.unbound {α : Type} (period : Float) (action : α) : PointNode α :=
  { (PointNode.fresh (.recurring period) true none : PointNode α) with actions := [action] }

/-- The clock is as it was, except for what the transport makes of being asked. -/
def Conductor.Unchanged (c c' : Conductor σ β) : Prop :=
  c' = { c with follower := { c.follower with session := c'.follower.session } }

theorem Conductor.Unchanged.of_eq {c c' : Conductor σ β} (h : c' = c) : c.Unchanged c' := by
  subst h
  rfl

/-- The transport is asked, and nothing else happens. -/
theorem Conductor.unchanged_session (c : Conductor σ β) (session : σ) :
    c.Unchanged { c with follower := { c.follower with session } } :=
  rfl

namespace Conductor

/-- If what an operation leaves comes with a fault, it is the clock as it was. -/
def Atomic {α : Type} (c : Conductor σ β) (result : Except Fault α × Conductor σ β) : Prop :=
  ∀ fault, result.1 = .error fault → result.2 = c

variable {c : Conductor σ β} {fault : Fault}

theorem Atomic.refused {α : Type} (fault : Fault) :
    c.Atomic ((.error fault, c) : Except Fault α × Conductor σ β) :=
  fun _ _ => rfl

theorem Atomic.accepted {α : Type} (answer : α) (c' : Conductor σ β) :
    c.Atomic (.ok answer, c') :=
  fun _ h => nomatch h

/-! ## Scheduling -/

theorem atomic_submit (c : Conductor σ β) (beat : Float) (priority : Bool) (task : Task β)
    (owner : Option PointId) : c.Atomic (c.submit beat priority task owner) := by
  unfold submit
  cases checkBeat beat with
  | error fault => exact .refused fault
  | ok beat => exact .accepted _ _

theorem atomic_scheduleAfter (c : Conductor σ β) (beats : Float) (action : Action β) :
    c.Atomic (c.scheduleAfter beats action) := by
  unfold scheduleAfter
  cases checkBeat beats with
  | error fault => exact .refused fault
  | ok beats => exact c.atomic_submit _ _ _ _

theorem atomic_setBpmAtNextBar (c : Conductor σ β) (bpm : Float) :
    c.Atomic (c.setBpmAtNextBar bpm) := by
  unfold setBpmAtNextBar
  cases checkTempo bpm with
  | error fault => exact .refused fault
  | ok bpm =>
    have hsubmit := c.atomic_submit c.nextBar true (.tempo c.nextBar bpm) none
    simp only
    cases hanswer : c.submit c.nextBar true (.tempo c.nextBar bpm) none with
    | mk answer c' =>
      rw [hanswer] at hsubmit
      cases answer with
      | error fault =>
        -- The fault is passed on with what the submission left, which is the clock as it was.
        exact fun _ _ => hsubmit fault rfl
      | ok id => exact .accepted _ _

/-! ## The timeline -/

theorem atomic_shift [Transport σ] (c : Conductor σ β) (beats : Float) :
    c.Atomic (c.shift beats) := by
  unfold shift
  cases checkBeat beats with
  | error fault => exact .refused fault
  | ok beats => exact .accepted _ _

theorem atomic_setBpm [Transport σ] (c : Conductor σ β) (bpm : Float) : c.Atomic (c.setBpm bpm) := by
  unfold setBpm
  cases c.playhead.setBpm bpm with
  | error fault => exact .refused fault
  | ok changed => exact .accepted _ _

theorem atomic_setTime [Transport σ] (c : Conductor σ β) (beat : Float) :
    c.Atomic (c.setTime beat) := by
  unfold setTime
  cases c.playhead.setTime beat with
  | error fault => exact .refused fault
  | ok playhead => exact .accepted _ _

/-! ## Points -/

theorem atomic_recurringPoint (c : Conductor σ β) (period : Float) :
    c.Atomic (c.recurringPoint period) := by
  unfold recurringPoint
  cases checkPeriod period with
  | error fault => exact .refused fault
  | ok period => exact .accepted _ _

/-- A binding is refused for its beat, or because the point has taken its only one. -/
theorem bind_of_error {id : PointId} {beat : Float} (h : (c.bind id beat).1 = .error fault) :
    (c.bind id beat).2 = c ∧ (beat.isFinite = false ∨
      ∃ node, c.points.node? id = some node ∧ node.rebindable = false) := by
  unfold bind checkBeat at h ⊢
  cases hbeat : beat.isFinite with
  | false => exact ⟨by simp, .inl rfl⟩
  | true =>
    simp only [hbeat, if_true] at h ⊢
    cases hnode : c.points.node? id with
    | none =>
      rw [hnode] at h
      cases h
    | some node =>
      rw [hnode] at h
      simp only at h ⊢
      split at h
      · rename_i hre _
        exact ⟨rfl, .inr ⟨node, rfl, hre⟩⟩
      · split at h <;> cases h

/-- A recurring point that is there before its first beat, with the action attached to it. -/
theorem addAction_createPoint (period : Float) (action : Action β) :
    (c.createPoint (.recurring period)).2.addAction c.points.nextId action =
        { c with points :=
            ((c.points.insert (.recurring period)).2.addAction c.points.nextId action c.now).2 } ∧
      ∀ q, ((c.createPoint (.recurring period)).2.addAction c.points.nextId action).points.node? q =
        if q = c.points.nextId then some (.unbound period action) else c.points.node? q := by
  have hnode := c.node?_createPoint_recurring period
  have hanswer : ((c.createPoint (.recurring period)).2.points.addAction c.points.nextId action
      c.now).1 = .ok none := by
    unfold Points.addAction
    rw [Points.find_of_node? hnode]
    rfl
  have hattach : (c.createPoint (.recurring period)).2.addAction c.points.nextId action =
      { c with points :=
          ((c.points.insert (.recurring period)).2.addAction c.points.nextId action c.now).2 } := by
    rw [addAction_eq, show (c.createPoint (.recurring period)).2.now = c.now from rfl, hanswer]
    rfl
  exact ⟨hattach, c.node?_createPoint_addAction period action⟩

/-- Running an action periodically is refused for its period, and then nothing happens, or for its first
beat, and then the point stays behind with the action. -/
theorem every_of_error {period : Float} {action : Action β}
    (h : (c.every period action).1 = .error fault) :
    (c.every period action).2 = c ∨
      isPositive period = true ∧ (c.now + period).isFinite = false ∧
        (c.every period action).2 =
          (c.createPoint (.recurring period)).2.addAction c.points.nextId action := by
  unfold every recurringPoint checkPeriod at h ⊢
  by_cases hperiod : isPositive period = true
  swap
  · rw [if_neg hperiod]
    exact .inl rfl
  · right
    rw [if_pos hperiod] at h ⊢
    simp only at h ⊢
    rw [show (c.createPoint (.recurring period)).1 = c.points.nextId from rfl] at h ⊢
    -- What is bound is the clock with the new point, whose beat is read at the same time as before.
    obtain ⟨hattach, hnode⟩ := c.addAction_createPoint period action
    have hnow : ((c.createPoint (.recurring period)).2.addAction c.points.nextId action).now =
        c.now := by
      rw [hattach]
      rfl
    generalize (c.createPoint (.recurring period)).2.addAction c.points.nextId action = c' at *
    rw [hnow] at h ⊢
    cases hbind : c'.bind c.points.nextId (c.now + period) with
    | mk answer c'' =>
      rw [hbind] at h
      cases answer with
      | ok done => cases h
      | error refused =>
        obtain ⟨hsame, hbeat | ⟨node, hfound, hre⟩⟩ := bind_of_error (congrArg Prod.fst hbind)
        · rw [hbind] at hsame
          exact ⟨hperiod, hbeat, hsame⟩
        · -- The point takes any number of beats.
          rw [hnode, if_pos rfl] at hfound
          cases hfound
          cases hre

end Conductor

/-! ## The session -/

/-- Joining a session is refused with nothing changed but the transport. -/
theorem Follower.enable_of_error [Transport σ] {f : Follower σ} {p : Playhead}
    {offset interval : Float} {fault : Fault}
    (h : (f.enable p offset interval).answer = .error fault) :
    ∃ session, f.enable p offset interval = Outcome.refused p { f with session } fault := by
  unfold enable at h ⊢
  cases hcheck : checkPeriod interval with
  | error refused =>
    rw [hcheck] at h
    cases h
    exact ⟨f.session, rfl⟩
  | ok interval =>
    rw [hcheck] at h
    simp only at h ⊢
    split_ifs at h ⊢
    · cases h
      exact ⟨f.session, rfl⟩
    · cases hfollowing : f.following with
      | some following =>
        rw [hfollowing] at h
        cases h
      | none =>
        rw [hfollowing] at h
        simp only [join] at h ⊢
        cases hconnect : Transport.connect f.session p.bpm (f.quantum p) with
        | mk answer session =>
          rw [hconnect] at h
          cases answer with
          | error refusal =>
            cases h
            refine ⟨session, ?_⟩
            simp only [hfollowing]
          | ok done => cases h

/-- The answer to joining the session is that of the follower. -/
theorem Conductor.enableSync_answer [Transport σ] (c : Conductor σ β) (offset interval : Float) :
    (c.enableSync offset interval).1 = (c.follower.enable c.playhead offset interval).answer := by
  unfold enableSync adopt
  cases (c.follower.enable c.playhead offset interval).answer <;> rfl

theorem Conductor.enableSync_of_error [Transport σ] {c : Conductor σ β} {offset interval : Float}
    {fault : Fault} (h : (c.enableSync offset interval).1 = .error fault) :
    c.Unchanged (c.enableSync offset interval).2 := by
  obtain ⟨session, hrefused⟩ :=
    Follower.enable_of_error ((c.enableSync_answer offset interval).symm.trans h)
  unfold enableSync adopt
  rw [hrefused]
  exact c.unchanged_session session

/-! ## Any operation -/

/-- A refused operation leaves the clock as it was: the playhead, the queue, the points, what is followed,
the audience, the log and the driver. Only a periodic action whose first beat is not finite, although its
period is accepted, leaves a new recurring point behind, without a beat and with the action attached. -/
theorem refused_unchanged [Transport σ] (c : Conductor σ β) (op : Operation σ β) {fault : Fault}
    (h : op.fault? c = some fault) :
    c.Unchanged (op.apply c) ∨
      ∃ period action, op = .every period action ∧ isPositive period = true ∧
        (c.now + period).isFinite = false ∧
        op.apply c = { c with points := (op.apply c).points } ∧
        ∀ q, (op.apply c).points.node? q =
          if q = c.points.nextId then some (.unbound period action) else c.points.node? q := by
  cases op with
  | playheadBpm | playheadBpmAt | playheadTime =>
    left
    have hset := faultOf_eq_some.mp h
    simp only [Operation.apply, hset]
    exact .of_eq rfl
  | setBpm => exact .inl (.of_eq (c.atomic_setBpm _ _ (faultOf_eq_some.mp h)))
  | setBpmAtNextBar => exact .inl (.of_eq (c.atomic_setBpmAtNextBar _ _ (faultOf_eq_some.mp h)))
  | setTime => exact .inl (.of_eq (c.atomic_setTime _ _ (faultOf_eq_some.mp h)))
  | shift => exact .inl (.of_eq (c.atomic_shift _ _ (faultOf_eq_some.mp h)))
  | scheduleAt | schedule | schedulePriority | scheduleOwned =>
    exact .inl (.of_eq (c.atomic_submit _ _ _ _ _ (faultOf_eq_some.mp h)))
  | scheduleAfter | scheduleIn =>
    exact .inl (.of_eq (c.atomic_scheduleAfter _ _ _ (faultOf_eq_some.mp h)))
  | recurringPoint => exact .inl (.of_eq (c.atomic_recurringPoint _ _ (faultOf_eq_some.mp h)))
  | bind => exact .inl (.of_eq (Conductor.bind_of_error (faultOf_eq_some.mp h)).1)
  | enableSync | enableConfiguredSync =>
    exact .inl (Conductor.enableSync_of_error (faultOf_eq_some.mp h))
  | every period action =>
    rcases Conductor.every_of_error (faultOf_eq_some.mp h) with hsame | ⟨hperiod, hbeat, hleft⟩
    · exact .inl (.of_eq hsame)
    · obtain ⟨hattach, hnode⟩ := c.addAction_createPoint period action
      refine .inr ⟨period, action, rfl, hperiod, hbeat, ?_, fun q => ?_⟩
      · simp only [Operation.apply, hleft]
        rw [hattach]
      · simp only [Operation.apply, hleft]
        exact hnode q
  | advance | advanceBy | moveTo | playheadShift | playheadMeter | setMeter | cancel | cancelOwners
  | cancelEntry | clearQueue | clear | createPoint | derivePoint | addAction | clearPoint
  | clearAllPoints | disableSync | syncStatus | reconcile | start | stop | close | outside => cases h

/-- A one-shot point with an action that is bound a second time. -/
theorem second_binding_unchanged :
    let c : Conductor Offline Unit := Conductor.offline.applyAll
      [.createPoint .oneShot, .addAction ⟨0⟩ ⟨"chime", ()⟩, .bind ⟨0⟩ 4.0]
    let op : Operation Offline Unit := .bind ⟨0⟩ 8.0
    op.fault? c = some (.pointAlreadyBound ⟨0⟩ 4.0) ∧ c.Unchanged (op.apply c) := by
  intro c op
  have hfault : op.fault? c = some (.pointAlreadyBound ⟨0⟩ 4.0) := by decide +kernel
  rcases refused_unchanged c op hfault with hsame | ⟨_, _, hevery, -⟩
  · exact ⟨hfault, hsame⟩
  · simp [op] at hevery

/-- A periodic action is refused because its first beat is not finite, and leaves a point behind that was
not there before. -/
theorem refused_loop_leaves_point :
    let ops : List (Operation Offline Unit) := [.setTime 1.7e308]
    let c := Conductor.offline.applyAll ops
    let op : Operation Offline Unit := .every 1e308 ⟨"loop", ()⟩
    History (callEvents Conductor.offline ops) ⟨c, []⟩ ∧
      (op.fault? c).map Fault.name = some "InvalidBeat" ∧ c.points.size = 0 ∧
      (op.apply c).points.size = 1 ∧ ¬ c.Unchanged (op.apply c) := by
  intro ops c op
  have hbefore : c.points.size = 0 := by decide +kernel
  have hafter : (op.apply c).points.size = 1 := by decide +kernel
  refine ⟨Conductor.history_offline_calls (by decide +kernel), by decide +kernel, hbefore, hafter,
    fun hsame => ?_⟩
  have hsize := congrArg (·.points.size) hsame
  simp only [hafter, hbefore] at hsize
  cases hsize

end Cadence
