import Mathlib
import Cadence.Proofs.Silence

/-!
# What takes entries of a point off the queue

Nothing takes the entries of a point off the queue but an operation that resets the point, and one that asks
for them to be taken off. In particular, binding a point leaves alone what is queued for the points that
are computed from it, unless it recurs.

- `Operation.retains` says so for one operation;
- `History.token?_ne_of_dropped` says so for the entries that carry a token of the point.
-/

namespace Cadence

variable {σ β : Type}

/-- The operation asks for entries of the point to be taken off the queue. -/
def Operation.Withdraws (op : Operation σ β) (c : Conductor σ β) (q : PointId) : Prop :=
  match op with
  | .cancel id => id = q
  | .cancelOwners ids => q ∈ ids
  | .cancelEntry id => ∃ e ∈ c.queue.entries, e.id = id ∧ e.owner = some q
  | .clearQueue => True
  | _ => False

/-- The event resets the point, or asks for entries of it to be taken off the queue. -/
def Event.Disturbs (event : Event σ β) (q : PointId) : Prop :=
  match event with
  | .called op c => op.Resets c q ∨ op.Withdraws c q
  | _ => False

namespace Conductor

/-- Every queued entry of the point stays queued. -/
def Retains (c c' : Conductor σ β) (q : PointId) : Prop :=
  ∀ e ∈ c.queue.entries, e.owner = some q → e ∈ c'.queue.entries

variable {c c' c'' : Conductor σ β} {q : PointId}

namespace Retains

theorem of_eq (h : c'.queue = c.queue) : c.Retains c' q := by
  intro e he _
  rwa [h]

theorem of_evolves {dropped : Entry (Task β) → Bool} {added : List (Entry (Task β))}
    (h : c.queue.Evolves c'.queue dropped added)
    (hkept : ∀ e ∈ c.queue.entries, e.owner = some q → dropped e = false) : c.Retains c' q :=
  fun e he howner => h.mem_iff.mpr (.inl ⟨he, hkept e he howner⟩)

/-- Where nothing is dropped, everything stays queued. -/
theorem of_evolves_false {added : List (Entry (Task β))}
    (h : c.queue.Evolves c'.queue (fun _ => false) added) : c.Retains c' q :=
  of_evolves h fun _ _ _ => rfl

theorem trans (h : c.Retains c' q) (h' : c'.Retains c'' q) : c.Retains c'' q :=
  fun e he howner => h' e (h e he howner) howner

end Retains

theorem retains_submit (c : Conductor σ β) (q : PointId) (beat : Float) (priority : Bool)
    (task : Task β) (owner : Option PointId) : c.Retains (c.submit beat priority task owner).2 q :=
  .of_evolves_false (c.submit_spec beat priority task owner).2

theorem retains_scheduleAfter (c : Conductor σ β) (q : PointId) (beats : Float) (action : Action β) :
    c.Retains (c.scheduleAfter beats action).2 q := by
  unfold scheduleAfter
  cases checkBeat beats with
  | error fault => exact .of_eq rfl
  | ok beats => exact c.retains_submit q _ false _ none

theorem retains_setBpmAtNextBar (c : Conductor σ β) (q : PointId) (bpm : Float) :
    c.Retains (c.setBpmAtNextBar bpm).2 q := by
  unfold setBpmAtNextBar
  cases checkTempo bpm with
  | error fault => exact .of_eq rfl
  | ok bpm =>
    have hsubmit := c.retains_submit q c.nextBar true (.tempo c.nextBar bpm) none
    simp only
    split <;> rename_i heq <;> rwa [heq] at hsubmit

/-- An entry of a point stays queued when those of other points are taken off. -/
theorem retains_cancelOwners (c : Conductor σ β) {ids : List PointId} (h : q ∉ ids) :
    c.Retains (c.cancelOwners ids).2 q := by
  refine .of_evolves (c.evolves_cancelOwners ids) fun e _ howner => ?_
  simp [Entry.ownedBy, howner, h]

/-- Clearing a point takes nothing off the queue for a point that does not derive from it. -/
theorem retains_clearPoint (c : Conductor σ β) (hlinked : c.points.Linked) {id : PointId}
    (h : ¬ c.points.DerivesFrom q id) : c.Retains (c.clearPoint id).2 q := by
  by_cases hid : c.points.Has id
  · rw [c.clearPoint_of_has hid]
    exact retains_cancelOwners { c with points := (c.points.resetSubtree id).2 }
      fun hmem => h ((Points.mem_subtree_iff hlinked hid q).mp hmem)
  · exact .of_eq (congrArg _ (c.clearPoint_of_not_has hid))

/-- Binding a point takes nothing off the queue for a point that it does not reset. -/
theorem retains_bind (c : Conductor σ β) (hlinked : c.points.Linked) {id : PointId} {beat : Float}
    (h : ¬ c.BindResets id beat q) : c.Retains (c.bind id beat).2 q := by
  rcases c.bind_cases hlinked id beat with ⟨hsame, -⟩ | ⟨node, others, hnode, hbeat, henqueues, -⟩
  · exact .of_eq (congrArg _ hsame)
  · refine Retains.trans ?_ (.of_evolves_false henqueues.queue)
    -- Only a recurring point is cleared before it takes the beat.
    cases hkind : node.kind with
    | recurring period =>
      rw [c.restart_recurring (Points.has_of_node? hnode)]
      exact c.retains_clearPoint hlinked fun hderives =>
        h ⟨hbeat, ⟨period, node, hnode, hkind⟩, hderives⟩
    | _ => exact .of_eq rfl

/-- Running an action every so many beats takes nothing off the queue for a point that was there. -/
theorem retains_every (c : Conductor σ β) (hlinked : c.points.Linked) (hq : c.points.Has q)
    (period : Float) (action : Action β) : c.Retains (c.every period action).2 q := by
  rcases c.every_cases period action with hsame | ⟨period', hevery⟩
  · exact .of_eq (congrArg _ hsame)
  · rw [hevery]
    have hlinked' := (c.change_createPoint_addAction period' action).points.linked hlinked
    have hattached : c.Retains
        ((c.createPoint (.recurring period')).2.addAction c.points.nextId action) q :=
      .of_evolves_false
        ((c.createPoint (.recurring period')).2.addAction_spec c.points.nextId action).2
    refine hattached.trans (retains_bind _ hlinked' fun hreset => ?_)
    -- No point that was there derives from the new one.
    exact absurd hq (not_lt.mpr (hlinked'.index_le hreset.2.2))

end Conductor

variable [Transport σ]

/-- Every queued entry of a point stays queued, unless the operation resets the point or asks for its
entries to be taken off. -/
theorem Operation.retains (op : Operation σ β) {c : Conductor σ β} (hlinked : c.points.Linked)
    {q : PointId} (hq : c.points.Has q) (hresets : ¬ op.Resets c q)
    (hwithdraws : ¬ op.Withdraws c q) : c.Retains (op.apply c) q := by
  cases op with
  | clear | clearQueue => exact absurd trivial ‹_›
  | advance micros => exact .of_eq (c.moveTime_queue_points (·.advanceMicros micros)).1
  | advanceBy seconds nanoseconds =>
    exact .of_eq (c.moveTime_queue_points (·.advance seconds nanoseconds)).1
  | moveTo date => exact .of_eq (c.moveTime_queue_points (·.moveTo date)).1
  | setTime beat =>
    have hrefused := c.setTime_of_not_isFinite (Bool.eq_false_iff.mpr hresets)
    exact .of_eq (congrArg (·.2.queue) hrefused)
  | setBpm bpm => exact .of_eq (c.setBpm_queue_points bpm).1
  | setBpmAtNextBar bpm => exact c.retains_setBpmAtNextBar q bpm
  | playheadBpm | playheadBpmAt | playheadTime => exact .of_eq (accepted_queue_points c _).1
  | shift beats => exact .of_eq (c.shift_queue_points beats).1
  | scheduleAt beat action => exact c.retains_submit q beat false _ none
  | scheduleAfter beats action => exact c.retains_scheduleAfter q beats action
  | schedule timing action => exact c.retains_submit q _ false _ none
  | scheduleIn span action => exact c.retains_scheduleAfter q (span.toBeats c.playhead) action
  | schedulePriority beat action => exact c.retains_submit q beat true _ none
  | scheduleOwned beat action owner => exact c.retains_submit q beat false _ owner
  | every period action => exact c.retains_every hlinked hq period action
  | cancel id =>
    refine .of_evolves (c.queue.evolves_removeIf _) fun e _ howner => ?_
    rw [howner]
    exact decide_eq_false fun heq => hwithdraws (Option.some.inj heq).symm
  | cancelOwners ids => exact c.retains_cancelOwners hwithdraws
  | cancelEntry id =>
    refine .of_evolves (c.queue.evolves_removeIf _) fun e he howner => ?_
    exact decide_eq_false fun heq => hwithdraws ⟨e, he, heq, howner⟩
  | recurringPoint period =>
    refine .of_eq ?_
    rcases c.recurringPoint_cases period with hsame | ⟨period', hcreate⟩
    · exact congrArg _ hsame
    · exact (congrArg Conductor.queue hcreate).trans rfl
  | bind id beat => exact c.retains_bind hlinked hresets
  | addAction id action => exact .of_evolves_false (c.addAction_spec id action).2
  | clearPoint id => exact c.retains_clearPoint hlinked hresets
  | clearAllPoints => exact absurd trivial hresets
  | enableSync offset interval => exact .of_eq (c.enableSync_queue_points offset interval).1
  | enableConfiguredSync =>
    exact .of_eq (c.enableSync_queue_points c.follower.settings.phaseOffset
      c.follower.settings.resyncInterval).1
  | disableSync => exact .of_eq (c.adopt_queue_points (c.follower.disable c.playhead)).1
  | reconcile => exact .of_eq (c.adopt_queue_points (c.follower.reconcileIfDue c.playhead)).1
  | start => exact .of_eq c.start_queue_points.1
  | stop | close => exact .of_eq c.stop_queue_points.1
  | _ => exact .of_eq rfl

/-- An event that does not disturb a point drops no entry that carries a token of it. -/
theorem History.token?_ne_of_dropped {events : List (Event σ β)} {m m' : Moment σ β}
    {event : Event σ β} (h : History events m) (hstep : Step m event m') {t : Token}
    (hpoint : m.clock.points.Has t.point) (hcalm : ¬ event.Disturbs t.point) :
    ∀ e ∈ event.dropped, e.task.token? ≠ some t := by
  intro e he htoken
  cases hstep with
  | @call c u op permitted =>
    obtain ⟨hqueued, hgone⟩ := List.mem_filter.mp he
    obtain ⟨howner, -⟩ := h.generation_le (List.mem_append_left _ hqueued) htoken
    have hkept := op.retains h.sound.linked hpoint (fun hresets => hcalm (.inl hresets))
      (fun hwithdraws => hcalm (.inr hwithdraws)) e hqueued howner
    exact of_decide_eq_true hgone (List.mem_map_of_mem hkept)
  | _ => cases he

end Cadence
