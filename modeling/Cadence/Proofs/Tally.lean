import Mathlib
import Cadence.Proofs.Point.Tally
import Cadence.Proofs.SingleBeat
import Cadence.Proofs.Run.Program

/-!
# How often a point takes a beat

A point takes a beat when it is bound, when it recurs and moves on, and when it is computed from a point
that takes one; an action that is run every so many beats binds the point that it creates. Each of these
is counted. A point that is derived from points with beats is created with a beat, and this one is not.
The count of a point is compared with what happened to the clock, which is told by its events.

- `Operation.tallies` and `Step.tallies`: the points that an event reaches, and no others, count one more
  beat;
- `History.resolutionsOf_eq`: the count of a point is the number of events that reached it;
- `beats_counted` puts this together for one point, with where a beat comes from that was never counted.
-/

namespace Cadence

variable {σ β : Type}

/-! ## Operations -/

namespace Conductor

variable {c c' : Conductor σ β} {born : PointId → Float → Prop}

/-- Clearing a point resets some points, or none. -/
theorem resets_clearPoint (c : Conductor σ β) (id q : PointId) :
    (c.clearPoint id).2.points.node? q = (c.points.node? q).map PointNode.reset ∨
      (c.clearPoint id).2.points.node? q = c.points.node? q := by
  by_cases hid : c.points.Has id
  · rw [c.node?_clearPoint_eq hid]
    split_ifs
    · exact .inl rfl
    · exact .inr rfl
  · rw [c.clearPoint_of_not_has hid]
    exact .inr rfl

/-- So does starting a point over. -/
theorem tallies_restart {id : PointId} (hid : c.points.Has id) (kind : PointKind) :
    Points.Tallies c.points (c.restart id kind).points none born := by
  cases kind with
  | recurring period =>
    rw [c.restart_recurring hid]
    exact Points.tallies_of_resets (c.resets_clearPoint id)
  | _ => exact .of_eq rfl

/-- A clock that queues what a resolution asks for has counted the beats that it gave. -/
theorem Enqueues.tallies {root : PointId} {beat : Float} {others : List (PointEntry (Action β))}
    (h : c.Enqueues c' root beat others) (hlinked : c.points.Linked) (hroot : c.points.Has root)
    (hbeat : beat.isFinite = true) : Points.Tallies c.points c'.points (some root) born := by
  obtain ⟨given, hspreads, -⟩ := h.spreads hlinked hroot hbeat
  exact hspreads.tallies hroot

/-- A point that takes the beat that it is bound to is the source of what is counted. -/
theorem tallies_bind (hlinked : c.points.Linked) (id : PointId) (beat : Float) :
    Points.Tallies c.points (c.bind id beat).2.points (if c.accepts id beat then some id else none)
      born := by
  cases haccepts : c.accepts id beat with
  | false =>
    rw [bind_of_not_accepts haccepts]
    exact .of_eq rfl
  | true =>
    obtain ⟨node, others, hnode, hbeat, henqueues⟩ := bind_of_accepts hlinked haccepts
    have hid := Points.has_of_node? hnode
    have hrestart := (c.change_restart hlinked hnode).points
    exact (tallies_restart hid node.kind).trans
      (henqueues.tallies (hrestart.linked hlinked) (hrestart.has hid) hbeat)

/-- The point that is created last is not reached before it has a beat, and neither is any other from
it. -/
theorem not_reached_last {ps : Points (Action β)} (hlinked : ps.Linked) {root : PointId}
    (hlast : ∀ q, ps.Has q → q.index ≤ root.index) (hbeat : ps.beat? root = none) (q : PointId) :
    ¬ ps.Reached (some root) q := by
  rintro ⟨_, ⟨⟩, hq, hsome⟩
  have hhas : ps.Has q := (ps.node?_isSome_iff q).mp (Option.isSome_of_isSome_bind hsome)
  obtain rfl : q = root :=
    congrArg PointId.mk (le_antisymm (hlast q hhas) (hlinked.index_le hq))
  rw [hbeat] at hsome
  cases hsome

/-- Running an action every so many beats gives a beat to the point that it creates, if to any. -/
theorem tallies_every (hlinked : c.points.Linked) (period : Float) (action : Action β) :
    Points.Tallies c.points (c.every period action).2.points (some c.points.nextId) born := by
  rcases c.every_cases period action with hsame | ⟨period', hevery⟩
  · rw [hsame]
    refine Points.Tallies.of_none (.of_eq rfl) (not_reached_last hlinked (fun q hq => hq.le) ?_)
    rw [Points.beat?, Points.node?_nextId]
    rfl
  rw [hevery]
  have hlinked' := (c.change_createPoint_addAction period' action).points.linked hlinked
  have hpoints := ((c.createPoint (.recurring period')).2.addAction_spec c.points.nextId action).1
  have hcreated : Points.Tallies c.points
      ((c.createPoint (.recurring period')).2.addAction c.points.nextId action).points none born := by
    rw [hpoints]
    exact (Points.tallies_insert c.points _).trans (Points.tallies_addAction _ _ _ _)
  have hnode := c.node?_createPoint_addAction period' action
  generalize (c.createPoint (.recurring period')).2.addAction c.points.nextId action = c'
    at hlinked' hcreated hnode ⊢
  have hbind : Points.Tallies c'.points _ _ born :=
    c'.tallies_bind hlinked' c.points.nextId (c'.now + period)
  cases haccepts : c'.accepts c.points.nextId (c'.now + period) with
  | true =>
    rw [haccepts, if_pos rfl] at hbind
    exact hcreated.trans hbind
  | false =>
    -- The point is there, but it is bound to no beat.
    rw [bind_of_not_accepts haccepts]
    refine hcreated.of_none (not_reached_last hlinked' (fun q hq => ?_) ?_)
    · obtain ⟨node, hq⟩ := Points.exists_node? hq
      rw [hnode] at hq
      split_ifs at hq with heq
      · rw [heq]
      · exact (Points.has_of_node? hq).le
    · rw [Points.beat?, hnode, if_pos rfl]
      rfl

end Conductor

namespace Operation

/-- The point that an operation gives a beat to, if the point has one afterwards: a point that is bound and
does not refuse it, or the point that is created to run an action every so many beats. -/
def source? (op : Operation σ β) (c : Conductor σ β) : Option PointId :=
  match op with
  | .every _ _ => some c.points.nextId
  | _ => (op.given? c).map (·.1)

/-- The operation creates the point with the beat. -/
def Bears (op : Operation σ β) (c : Conductor σ β) (q : PointId) (beat : Float) : Prop :=
  match op with
  | .derivePoint d => q = c.points.nextId ∧ c.points.amount d = some beat
  | _ => False

variable [Transport σ]

/-- What an operation counts, and what it gives without counting it. -/
theorem tallies (op : Operation σ β) {c : Conductor σ β} (hlinked : c.points.Linked)
    (hpermitted : op.Permitted c) :
    Points.Tallies c.points (op.apply c).points (op.source? c) (op.Bears c) := by
  -- The operations that leave the points as they are have no source either.
  by_cases hop : op.ConcernsPoints
  swap
  · obtain ⟨_, -, hpoints, -⟩ := queueChange hop c
    have hnone : op.source? c = none := by
      cases op with
      | bind | every => exact absurd trivial hop
      | _ => rfl
    rw [hnone]
    exact .of_eq hpoints
  cases op with
  | setTime beat =>
    change Points.Tallies _ (c.setTime beat).2.points none _
    rw [c.points_setTime]
    split_ifs
    · exact Points.tallies_of_resets fun q => .inl (Points.node?_resetAll _ q)
    · exact .of_eq rfl
  | clear | clearAllPoints =>
    exact Points.tallies_of_resets fun q => .inl (Points.node?_resetAll _ q)
  | clearPoint id => exact Points.tallies_of_resets (Conductor.resets_clearPoint c id)
  | every period action => exact Conductor.tallies_every hlinked period action
  | createPoint kind => exact Points.tallies_insert _ kind
  | recurringPoint period =>
    change Points.Tallies _ (c.recurringPoint period).2.points none _
    rcases c.recurringPoint_cases period with hsame | ⟨period', hcreate⟩
    · exact .of_eq (congrArg (·.points) hsame)
    · rw [hcreate]
      exact Points.tallies_insert _ _
  | derivePoint d => exact Points.tallies_derive hpermitted
  | bind id beat =>
    have hsource : (Operation.bind id beat : Operation σ β).source? c =
        if c.accepts id beat then some id else none := by
      change (if c.accepts id beat then some (id, beat) else none).map (·.1) = _
      split_ifs <;> rfl
    rw [hsource]
    exact Conductor.tallies_bind hlinked id beat
  | addAction id action =>
    change Points.Tallies _ (c.addAction id action).points none _
    rw [(c.addAction_spec id action).1]
    exact Points.tallies_addAction _ _ _ _
  | _ => exact absurd hop id

omit [Transport σ] in
/-- A clear names no operands. -/
theorem Clears.permitted {op : Operation σ β} (h : op.Clears) (c : Conductor σ β) :
    op.Permitted c := by
  cases op with
  | derivePoint => exact absurd h id
  | _ => trivial

/-- A clear changes no count. -/
theorem Clears.resolutionsOf_eq {op : Operation σ β} (h : op.Clears) {c : Conductor σ β}
    (hlinked : c.points.Linked) (q : PointId) :
    (op.apply c).points.resolutionsOf q = c.points.resolutionsOf q := by
  have hnone : op.source? c = none := by
    cases op with
    | every | bind => exact absurd h id
    | _ => rfl
  refine (op.tallies hlinked (h.permitted c)).unreached q ?_
  rw [hnone]
  exact Points.not_reached_none _ q

end Operation

/-! ## Events -/

variable [Transport σ]

/-- What the clock counts when it starts a task. -/
theorem carry_tallies {c : Conductor σ β} (hlinked : c.points.Linked) {task : Task β}
    (hfinite : ∀ token beat, task = .rearm token beat → beat.isFinite = true)
    {born : PointId → Float → Prop} :
    Points.Tallies c.points (task.carry c).points ((task.given? c).map (·.1)) born := by
  cases task with
  | act | actFor => exact .of_eq rfl
  | tempo beat bpm => exact .of_eq (c.changeTempoAt_queue_points beat bpm).2
  | rearm token beat =>
    unfold Task.carry Task.given?
    dsimp only
    split_ifs with hlive
    · have hbeat := hfinite token beat rfl
      obtain ⟨others, henqueues⟩ := c.enqueues_rearm hlinked hlive hbeat
      obtain ⟨node, hnode, -⟩ := Points.isLive_iff.mp hlive
      exact henqueues.tallies hlinked (Points.has_of_node? hnode) hbeat
    · exact .of_eq rfl

namespace Event

/-- The point that an event gives a beat to, if the point has one afterwards. -/
def source? : Event σ β → Option PointId
  | .called op c => op.source? c
  | .started _ e c => (e.task.given? c).map (·.1)
  | _ => none

/-- The event creates the point with the beat. -/
def Bears : Event σ β → PointId → Float → Prop
  | .called op c => op.Bears c
  | _ => fun _ _ => False

/-- The points after an event. -/
def pointsAfter : Event σ β → Points (Action β)
  | .called op c => (op.apply c).points
  | .started _ e c => (e.task.carry c).points
  | .measured c | .failed _ _ c | .passed c => c.points

/-- The point takes a beat in the event. -/
def Reaches (event : Event σ β) (q : PointId) : Prop := event.pointsAfter.Reached event.source? q

end Event

section Step

variable {m m' : Moment σ β} {event : Event σ β}

theorem Step.points_eq (hstep : Step m event m') : m'.clock.points = event.pointsAfter := by
  cases hstep <;> rfl

/-- What a step counts, and what it gives without counting it. -/
theorem Step.tallies (hs : Sound m) (hstep : Step m event m') :
    Points.Tallies m.clock.points event.pointsAfter event.source? event.Bears := by
  cases hstep with
  | call permitted => exact Operation.tallies _ hs.linked permitted
  | @start c u reading e rest =>
    have hmem := Moment.mem_pending_next c reading e rest u
    exact carry_tallies hs.linked fun token beat => hs.finite_rearm hmem
  | _ => exact .of_eq rfl

end Step

/-! ## Histories -/

open Classical in
/-- How often a point takes a beat in events. -/
noncomputable def received (q : PointId) (events : List (Event σ β)) : ℕ :=
  events.countP fun event => event.Reaches q

open Classical in
theorem received_snoc (q : PointId) (events : List (Event σ β)) (event : Event σ β) :
    received q (events ++ [event]) = received q events + if event.Reaches q then 1 else 0 := by
  simp only [received, List.countP_append, List.countP_singleton, decide_eq_true_iff]

namespace History

variable {events : List (Event σ β)} {m : Moment σ β}

/-- The count of a point is the number of events that reached it. -/
theorem resolutionsOf_eq (h : History events m) (q : PointId) :
    m.clock.points.resolutionsOf q = received q events := by
  induction h using History.induction with
  | created hcreate =>
    rw [(sound_create hcreate).2.2]
    rfl
  | @stepped events m event m' h hstep ih =>
    have htallies := hstep.tallies h.sound
    rw [hstep.points_eq]
    by_cases hq : event.Reaches q
    · rw [htallies.reached q hq, received_snoc, if_pos hq, ih]
    · rw [htallies.unreached q hq, received_snoc, if_neg hq, ih, Nat.add_zero]

/-- A point that has a beat took one, or was created with the beat that it has. -/
theorem received_or_bears (h : History events m) {q : PointId} {beat : Float}
    (hbeat : m.clock.points.beat? q = some beat) :
    0 < received q events ∨ ∃ event ∈ events, event.Bears q beat := by
  induction h using History.induction with
  | created hcreate =>
    rw [(sound_create hcreate).2.2] at hbeat
    simp [Points.beat?, Points.node?, Points.empty] at hbeat
  | @stepped events m event m' h hstep ih =>
    rw [hstep.points_eq] at hbeat
    -- If the event does not reach the point, the beat is an old one or the point is new.
    by_cases hq : event.Reaches q
    · rw [received_snoc, if_pos hq]
      exact .inl (Nat.succ_pos _)
    · rw [received_snoc, if_neg hq, Nat.add_zero]
      rcases (hstep.tallies h.sound).kept q beat hq hbeat with hold | hborn
      · rcases ih hold with hpos | ⟨earlier, hearlier, hbears⟩
        · exact .inl hpos
        · exact .inr ⟨earlier, List.mem_append_left _ hearlier, hbears⟩
      · exact .inr ⟨event, List.mem_append_right _ (.head _), hborn⟩

end History

/-- A point counts the beats that it takes: when it is bound, when it moves on, and when it is computed from a
point that takes one. If it has a beat and counts none, it was derived with the beat that it has. Clearing
does not change the count. -/
theorem beats_counted {events : List (Event σ β)} {m : Moment σ β} (h : History events m)
    {q : PointId} {node : PointNode (Action β)} (hnode : m.clock.points.node? q = some node) :
    node.resolutions = received q events ∧
      (∀ beat, node.beat = some beat →
        0 < node.resolutions ∨ ∃ event ∈ events, event.Bears q beat) ∧
      ∀ op : Operation σ β, op.Clears →
        ∃ node', (op.apply m.clock).points.node? q = some node' ∧
          node'.resolutions = node.resolutions := by
  have hcount := (Points.resolutionsOf_of_node? hnode).symm.trans (h.resolutionsOf_eq q)
  refine ⟨hcount, fun beat hbeat => ?_, fun op hclears => ?_⟩
  · rw [hcount]
    refine h.received_or_bears ?_
    rw [Points.beat?, hnode, Option.bind_some, hbeat]
  · have hlinked := h.sound.linked
    obtain ⟨_, hchange, -⟩ := op.settles hlinked (hclears.permitted _)
    obtain ⟨node', hnode', -⟩ := hchange.points.node hnode
    refine ⟨node', hnode', ?_⟩
    rw [← Points.resolutionsOf_of_node? hnode', hclears.resolutionsOf_eq hlinked,
      Points.resolutionsOf_of_node? hnode]

namespace Conductor

/-- A point is derived from a recurring one, which is bound to the beat 4, and the beat 12 passes. -/
def stridingCalls : List (Operation Offline Unit) :=
  [.recurringPoint 4.0, .derivePoint ⟨.add, .point ⟨0⟩, .scalar 1.0⟩, .bind ⟨0⟩ 4.0, .advance 6000000]

/-- The clock after these calls. -/
def striding : Conductor Offline Unit := offline.applyAll stridingCalls

/-- What happens in the calls and in the passes of a tick after them. -/
def stridingEvents : List (Event Offline Unit) :=
  callEvents offline stridingCalls ++ LawfulPerformer.still.dueEvents (striding, ())

/-- The clock after that tick. -/
def strode : Conductor Offline Unit := (runDue LawfulPerformer.still.perform (striding, ())).2.1

theorem history_strode : History stridingEvents ⟨strode, []⟩ := by
  have hcalls : History (callEvents offline stridingCalls) ⟨striding, []⟩ :=
    history_offline_calls (by decide +kernel)
  exact hcalls.append (LawfulPerformer.run_due (L := LawfulPerformer.still) (s := (striding, ()))
    hcalls.sound (fun _ h => by cases h)).1

end Conductor

/-- The derived point takes the beats 5, 9 and 13, and a clear leaves it with the count of three. -/
theorem strides_beats_counted :
    ∃ node, Conductor.strode.points.node? ⟨1⟩ = some node ∧ node.beat = some 13.0 ∧
      received ⟨1⟩ Conductor.stridingEvents = 3 ∧
      ∃ node', Conductor.strode.clear.points.node? ⟨1⟩ = some node' ∧ node'.resolutions = 3 := by
  obtain ⟨node, hnode, hfields⟩ := Option.map_eq_some_iff.mp
    (show (Conductor.strode.points.node? ⟨1⟩).map (fun node => (node.beat, node.resolutions)) =
      some (some 13.0, 3) by decide +kernel)
  obtain ⟨hbeat, hcount⟩ := Prod.mk.inj hfields
  obtain ⟨hreceived, -, hclear⟩ := beats_counted Conductor.history_strode hnode
  obtain ⟨node', hnode', hsame⟩ := hclear .clear trivial
  exact ⟨node, hnode, hbeat, hreceived.symm.trans hcount, node', hnode', hsame.trans hcount⟩

/-- A point that is derived from a bound one has a beat from the start, and counts none. -/
theorem born_beat_uncounted :
    let calls : List (Operation Offline Unit) :=
      [.createPoint .oneShot, .bind ⟨0⟩ 2.0, .derivePoint ⟨.add, .point ⟨0⟩, .scalar 1.0⟩]
    History (callEvents Conductor.offline calls) ⟨Conductor.offline.applyAll calls, []⟩ ∧
      ((Conductor.offline.applyAll calls).points.node? ⟨1⟩).map
        (fun node => (node.beat, node.resolutions)) = some (some 3.0, 0) := by
  intro calls
  exact ⟨Conductor.history_offline_calls (by decide +kernel), by decide +kernel⟩

end Cadence
