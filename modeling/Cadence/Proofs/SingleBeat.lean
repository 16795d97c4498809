import Mathlib
import Cadence.Proofs.Accounting
import Cadence.Proofs.Run.Giving

/-!
# Points take their one beat once

A one-shot point, and a point computed from such points alone, takes one beat. It can get it in several
ways: it is bound itself, an operand is bound, or its operands have beats when it is created. A bind looks
only at the point that it is called on, so a derived point that is bound while an operand has no beat gets
another one when the operand does. This file follows these points through a history:

- `Operation.onward` and `Step.onward`: if such points are bound only when their operands have beats, each
  step either leaves one alone, creates it, attaches an action, or gives it a beat while it has none;
- `History.oneBeat` and `History.beat?_kept`: so its books are kept, and so is its beat;
- `beat_taken_once` puts this together for one point.
-/

namespace Cadence

variable {σ β : Type}

/-! ## What operations make of the points that take one beat -/

namespace Conductor

variable {c c' : Conductor σ β} {A : Set PointId}

/-- A resolution gives such a point a beat only while it has none. -/
theorem Enqueues.onward {root : PointId} {beat : Float} {others : List (PointEntry (Action β))}
    (h : c.Enqueues c' root beat others) (hlinked : c.points.Linked) (hroot : c.points.Has root)
    (hbeat : beat.isFinite = true) {id : PointId}
    (hunbound : c.points.DerivesFrom id root → c.points.beat? id = none)
    (hgrounded : id = root → c.points.Grounded root) :
    c.points.Onward c'.points id (asked (Task.deedOf? id) (resolutionRequests root
      ⟨c.points.wants root beat ++ others, c.points.rearmAfter root beat⟩)) := by
  obtain ⟨given, hspreads, hasked⟩ := h.spreads hlinked hroot hbeat
  rw [hasked]
  exact hspreads.onward hlinked hroot hunbound hgrounded

/-- A point without a beat accepts any finite one. -/
theorem bind_eq_ok {id : PointId} {beat : Float} {node : PointNode (Action β)}
    (hnode : c.points.node? id = some node) (hbeat : beat.isFinite = true)
    (hnone : node.beat = none) : (c.bind id beat).1 = .ok () := by
  unfold bind checkBeat
  simp only [hbeat, if_true, hnode]
  split
  · rename_i hsome
    rw [hnone] at hsome
    cases hsome
  · split <;> rfl

/-- Binding a point, if it has a beat only with its operands, as all such points do. -/
theorem onward_bind (hlinked : c.points.Linked) {id : PointId} {beat : Float}
    (hA : (c.bind id beat).2.points.OneBeats A)
    (hgrounded : ∀ q ∈ A, (c.points.beat? q).isSome → c.points.Grounded q)
    (hready : (c.bind id beat).1 = .ok () → id ∈ A → c.points.Grounded id) :
    ∃ requests, Change c (c.bind id beat).2 (c.BindResets id beat) requests ∧
      ∀ q ∈ A, c.points.Onward (c.bind id beat).2.points q (asked (Task.deedOf? q) requests) := by
  rcases c.change_bind_cases hlinked id beat with
    ⟨hsame, hchange⟩ | ⟨node, others, hnode, hbeat, henqueues, hfree, hchange⟩
  · exact ⟨[], hchange, fun q _ => .of_node?_eq (by rw [hsame])⟩
  refine ⟨_, hchange, fun q hq => ?_⟩
  have hid := Points.has_of_node? hnode
  have hA₀ := hA.of_advances hchange.points
  by_cases hroot : id ∈ A
  · -- The point takes one beat itself, so it has none and is not started over.
    have hre := hA₀.rebindable hroot hnode
    have hkept : c.restart id node.kind = c := by
      cases hkind : node.kind with
      | recurring period =>
        rw [(hlinked.recurring hnode hkind).2] at hre
        cases hre
      | _ => rfl
    have hnone : c.points.beat? id = none := by
      unfold Points.beat?
      rw [hnode]
      exact hfree hre
    have hground := hready (bind_eq_ok hnode hbeat (hfree hre)) hroot
    rw [hkept] at henqueues ⊢
    exact henqueues.onward hlinked hid hbeat
      (fun hd => hA₀.beat?_eq_none hgrounded hq hd hnone) fun _ => hground
  · -- No point in the set is computed from one outside.
    have hrestart := (c.change_restart hlinked hnode).points
    have hA₁ := hA.of_advances (henqueues.change hbeat).points
    refine (henqueues.onward (hrestart.linked hlinked) (hrestart.has hid) hbeat
      (fun hd => absurd (hA₁.of_derivesFrom hq hd) hroot)
      fun heq => absurd (heq ▸ hq) hroot).of_left ?_
    exact c.node?_restart hlinked hid node.kind fun hd => hroot (hA₀.of_derivesFrom hq hd)

/-- Attaching an action to a point that is not rebindable asks for it at the beat of the point. -/
theorem asked_deedOf?_attachRequests {id : PointId} {node : PointNode (Action β)}
    (hnode : c.points.node? id = some node) (hre : node.rebindable = false) (action : Action β) :
    asked (Task.deedOf? id) (c.attachRequests id action) = duesAt node.beat [action] := by
  unfold attachRequests
  rw [Points.addAction_of_not_rebindable hnode hre]
  cases node.beat with
  | none => rfl
  | some beat =>
    simp only [Option.map_some, asked_batchRequests, finiteOf, duesAt, List.filter_cons,
      List.filter_nil]
    split_ifs <;> simp [Task.deedOf?]

/-- Attaching an action asks for it at the beat of the point. -/
theorem onward_addAction (hA : c.points.OneBeats A) (id : PointId) (action : Action β)
    {q : PointId} (hq : q ∈ A) :
    c.points.Onward (c.addAction id action).points q
      (asked (Task.deedOf? q) (c.attachRequests id action)) := by
  have hnode' := Points.node?_addAction c.points id action c.now q
  rw [← (c.addAction_spec id action).1] at hnode'
  by_cases heq : q = id
  · subst heq
    rw [if_pos rfl] at hnode'
    cases hnode : c.points.node? q with
    | none =>
      rw [hnode] at hnode'
      -- A point that was not created takes no action.
      have hnone : c.attachRequests q action = [] := by
        simp [attachRequests, Points.addAction, Points.find, hnode]
      rw [hnone]
      exact .absent hnode hnode'
    | some node =>
      rw [hnode] at hnode'
      rw [asked_deedOf?_attachRequests hnode (hA.rebindable hq hnode)]
      exact .attached hnode hnode'
  · rw [if_neg heq] at hnode'
    rw [asked_deedOf?_attachRequests_of_ne action heq]
    exact .of_node?_eq hnode'

/-- Running an action every so many beats creates a recurring point, which no such point is computed
from. -/
theorem onward_every (hlinked : c.points.Linked) {period : Float} {action : Action β}
    (hA : (c.every period action).2.points.OneBeats A)
    (hgrounded : ∀ q ∈ A, (c.points.beat? q).isSome → c.points.Grounded q) :
    ∃ requests, Change c (c.every period action).2 (fun _ => False) requests ∧
      ∀ q ∈ A, c.points.Onward (c.every period action).2.points q
        (asked (Task.deedOf? q) requests) := by
  rcases c.every_cases period action with hsame | ⟨period', hevery⟩
  · refine ⟨[], .of_eq (by rw [hsame]) (by rw [hsame]), fun q _ => .of_node?_eq (by rw [hsame])⟩
  rw [hevery] at hA ⊢
  have hboth := c.change_createPoint_addAction period' action
  have hkept := c.node?_createPoint_addAction period' action
  generalize hc' : (c.createPoint (.recurring period')).2.addAction c.points.nextId action = c'
    at hA hboth hkept ⊢
  have hlinked' := hboth.points.linked hlinked
  obtain ⟨_, hbound, -⟩ := c'.change_bind hlinked' c.points.nextId (c'.now + period)
  have hA' := hA.of_advances hbound.points
  -- The new point is rebindable, so it is outside the set, and nothing in the set changes.
  have houtside : c.points.nextId ∉ A := by
    intro hid
    cases hA'.rebindable hid ((hkept c.points.nextId).trans (if_pos rfl))
  have hsame (q : PointId) (hq : q ∈ A) : c'.points.node? q = c.points.node? q :=
    (hkept q).trans (if_neg (ne_of_mem_of_not_mem hq houtside))
  have hgrounded' := hA'.grounded hboth.points (fun q hq => ⟨[], .of_node?_eq (hsame q hq)⟩) hgrounded
  obtain ⟨requests, hbind, honward⟩ := onward_bind hlinked' hA hgrounded'
    fun _ hid => absurd hid houtside
  exact ⟨requests, change_bind_created hlinked hboth hbind, fun q hq =>
    (honward q hq).of_left (hsame q hq)⟩

end Conductor

namespace Operation

/-- The operation clears a point or all of them, or jumps, which does so too. -/
def Clears : Operation σ β → Prop
  | .clear | .clearPoint _ | .clearAllPoints | .setTime _ => True
  | _ => False

variable [Transport σ]

/-- What an operation makes of the points in a set of such points, if it clears none and binds one only
when its operands have beats. -/
theorem onward {op : Operation σ β} {c : Conductor σ β} (hlinked : c.points.Linked)
    (hpermitted : op.Permitted c) (hkept : ¬ op.Clears) {A : Set PointId}
    (hA : (op.apply c).points.OneBeats A)
    (hgrounded : ∀ q ∈ A, (c.points.beat? q).isSome → c.points.Grounded q)
    (hready : ∀ id beat, op = .bind id beat → (c.bind id beat).1 = .ok () → id ∈ A →
      c.points.Grounded id) :
    ∃ requests, Change c (op.apply c) (op.Resets c) requests ∧
      ∀ q ∈ A, c.points.Onward (op.apply c).points q (asked (Task.deedOf? q) requests) := by
  by_cases hop : op.ConcernsPoints
  swap
  · -- What depends on no token asks nothing for a point.
    obtain ⟨requests, hchange, hpoints, hnone⟩ := queueChange hop c
    refine ⟨requests, hchange.congr fun q _ => ⟨False.elim, not_resets hop c q⟩, fun q _ => ?_⟩
    rw [asked_deedOf?_of_token? q hnone]
    exact .of_node?_eq (by rw [hpoints])
  cases op with
  | setTime | clear | clearPoint | clearAllPoints => exact absurd trivial hkept
  | every period action => exact Conductor.onward_every hlinked hA hgrounded
  | createPoint kind =>
    exact ⟨[], .of_points rfl (Points.advances_insert _ _), fun q _ =>
      Points.onward_insert _ kind q⟩
  | recurringPoint period =>
    refine ⟨[], c.change_recurringPoint period, fun q _ => ?_⟩
    rcases c.recurringPoint_cases period with hsame | ⟨period', hcreate⟩
    · exact .of_node?_eq (congrArg (·.points.node? q) hsame)
    · change c.points.Onward (c.recurringPoint period).2.points q _
      rw [hcreate]
      exact Points.onward_insert c.points (.recurring period') q
  | derivePoint d =>
    exact ⟨[], .of_points rfl (Points.advances_derive hpermitted), fun q _ =>
      Points.onward_derive hpermitted q⟩
  | bind id beat => exact Conductor.onward_bind hlinked hA hgrounded (hready id beat rfl)
  | addAction id action =>
    have hchange := c.change_addAction id action
    exact ⟨_, hchange, fun q hq =>
      Conductor.onward_addAction (hA.of_advances hchange.points) id action hq⟩
  | _ => exact absurd hop id

end Operation

variable [Transport σ]

/-- What the clock does by itself for a task touches no such point: only a recurring point moves on, and
none of these is computed from it. -/
theorem carry_onward {c : Conductor σ β} (hlinked : c.points.Linked) {task : Task β}
    (hrearm : ∀ token beat, task = .rearm token beat →
      beat.isFinite = true ∧ ∃ period, c.points.Recurs token.point period)
    {requests : List (Request β)} (hrequests : CarryRequests c task requests) {A : Set PointId}
    (hA : c.points.OneBeats A) {q : PointId} (hq : q ∈ A) :
    c.points.Onward (task.carry c).points q (asked (Task.deedOf? q) requests) := by
  cases task with
  | act | actFor =>
    rw [show requests = [] from hrequests]
    exact .of_node?_eq rfl
  | tempo beat bpm =>
    rw [show requests = [] from hrequests]
    exact .of_node?_eq (by rw [Task.carry, (c.changeTempoAt_queue_points beat bpm).2])
  | rearm token beat =>
    obtain ⟨hbeat, period, node, hnode, hkind⟩ := hrearm token beat rfl
    -- The point that moves on recurs, so it is rebindable and not in the set.
    have hroot : token.point ∉ A := by
      intro hroot
      have hre := hA.rebindable hroot hnode
      rw [(hlinked.recurring hnode hkind).2] at hre
      cases hre
    unfold CarryRequests at hrequests
    unfold Task.carry
    dsimp only at hrequests ⊢
    split_ifs at hrequests ⊢ with hlive
    · obtain ⟨others, henqueues, rfl⟩ := hrequests
      exact henqueues.onward hlinked (Points.has_of_node? hnode) hbeat
        (fun hd => absurd (hA.of_derivesFrom hq hd) hroot) fun heq => absurd (heq ▸ hq) hroot
    · rw [hrequests]
      exact .of_node?_eq rfl

/-! ## Histories -/

section Step

variable {m m' : Moment σ β} {event : Event σ β} {A : Set PointId}

/-- The event is no clear, nor a jump. -/
def Event.ClearsNothing (event : Event σ β) : Prop := ∀ op c, event = .called op c → ¬ op.Clears

/-- The event binds a point in the set only when the operands of the point have beats. -/
def Event.BindsGrounded (event : Event σ β) (A : Set PointId) : Prop :=
  ∀ id beat c, event = .called (.bind id beat) c → (c.bind id beat).1 = .ok () → id ∈ A →
    c.points.Grounded id

/-- What a step makes of the points in a set of such points. -/
theorem Step.onward (hs : Sound m) (hstep : Step m event m') (hkept : event.ClearsNothing)
    (hready : event.BindsGrounded A) (hA : m'.clock.points.OneBeats A)
    (hgrounded : ∀ q ∈ A, (m.clock.points.beat? q).isSome → m.clock.points.Grounded q) :
    ∃ requests, Effect m event m' requests ∧
      ∀ q ∈ A, m.clock.points.Onward m'.clock.points q (asked (Task.deedOf? q) requests) := by
  obtain ⟨requests, heffect, hrequests⟩ := hstep.effect hs
  cases hstep with
  | @call c u op permitted =>
    obtain ⟨requests, hchange, honward⟩ := Operation.onward hs.linked permitted (hkept op c rfl) hA
      hgrounded fun id beat hop => hready id beat c (by rw [hop])
    exact ⟨requests, effect_of_change hs.valid hchange rfl rfl, honward⟩
  | @start c u reading e rest =>
    have hmem := Moment.mem_pending_next c reading e rest u
    refine ⟨requests, heffect, fun q hq =>
      carry_onward hs.linked (fun token beat htask => ?_) hrequests (hA.of_advances heffect.points) hq⟩
    obtain ⟨hdue, hrecurs⟩ := hs.rearm e hmem token beat htask
    exact ⟨hdue ▸ hs.finite_pending hmem, hrecurs⟩
  | _ =>
    rw [show requests = [] from hrequests] at heffect
    exact ⟨[], heffect, fun q _ => .of_node?_eq rfl⟩

end Step

/-- The books of the points in a set of such points, and what keeps them: a point has a beat only with its
operands. -/
structure OneBeatHistory (A : Set PointId) (events : List (Event σ β)) (m : Moment σ β) : Prop where
  /-- A point has a beat only with its operands. -/
  grounded : ∀ q ∈ A, (m.clock.points.beat? q).isSome → m.clock.points.Grounded q
  /-- The books of each point. -/
  books : ∀ q ∈ A, m.clock.points.OneBeatBooks q
    (gather (Task.deedOf? q) (m.pending ++ startedEntries events ++ droppedEntries events))

namespace History

variable {events later : List (Event σ β)} {m m' : Moment σ β} {A : Set PointId}

/-- Histories keep the books. -/
theorem oneBeat (h : History events m) (hA : m.clock.points.OneBeats A)
    (hkept : ∀ event ∈ events, event.ClearsNothing)
    (hready : ∀ event ∈ events, event.BindsGrounded A) : OneBeatHistory A events m := by
  induction h using History.induction with
  | created hcreate =>
    obtain ⟨-, hqueue, hpoints⟩ := sound_create hcreate
    have hnone (q : PointId) : (Points.empty : Points (Action β)).node? q = none := by
      simp [Points.node?, Points.empty]
    refine ⟨fun q _ hsome => ?_, fun q _ => ⟨fun node hnode => ?_, ?_⟩⟩
    · rw [hpoints, Points.beat?, hnone] at hsome
      cases hsome
    · rw [hpoints, hnone] at hnode
      cases hnode
    · simp [gather, Moment.pending, Moment.flying, hqueue, hpoints, hnone, Queue.empty,
        startedEntries, droppedEntries]
  | @stepped events m event m' h hstep ih =>
    obtain ⟨_, hadvances, -⟩ := hstep.effect h.sound
    -- The set is told by the last moment, and points keep their flags and operands on the way there.
    have hbefore := ih (hA.of_advances hadvances.points)
      (fun event hevent => hkept event (List.mem_append_left _ hevent))
      (fun event hevent => hready event (List.mem_append_left _ hevent))
    have hlast : event ∈ events ++ [event] := List.mem_append_right _ (.head _)
    obtain ⟨requests, heffect, honward⟩ := hstep.onward h.sound (hkept event hlast)
      (hready event hlast) hA hbefore.grounded
    refine ⟨hA.grounded heffect.points (fun q hq => ⟨_, honward q hq⟩) hbefore.grounded,
      fun q hq => (honward q hq).books (hbefore.books q hq) ?_⟩
    have hperm := (heffect.accepted_perm events).filterMap fun e => Task.deedOf? q e.task e.dueBeat
    change (gather _ _).Perm (gather _ _) at hperm
    rwa [gather_append _ _ (Request.entries _ _), gather_entries] at hperm

/-- Histories keep beats. -/
theorem beat?_kept (h : History events m) (hrun : Run m later m')
    (hA : m'.clock.points.OneBeats A) (hkept : ∀ event ∈ events ++ later, event.ClearsNothing)
    (hready : ∀ event ∈ events ++ later, event.BindsGrounded A) {q : PointId} (hq : q ∈ A)
    {beat : Float} (hbeat : m.clock.points.beat? q = some beat) :
    m'.clock.points.beat? q = some beat := by
  induction hrun with
  | nil => exact hbeat
  | @snoc later event m₁ m₂ hrun hstep ih =>
    rw [← List.append_assoc] at hkept hready
    have hbefore := h.append hrun
    obtain ⟨_, hadvances, -⟩ := hstep.effect hbefore.sound
    have hA₁ := hA.of_advances hadvances.points
    have hkept₁ : ∀ event ∈ events ++ later, event.ClearsNothing :=
      fun event hevent => hkept event (List.mem_append_left _ hevent)
    have hready₁ : ∀ event ∈ events ++ later, event.BindsGrounded A :=
      fun event hevent => hready event (List.mem_append_left _ hevent)
    have hlast : event ∈ events ++ later ++ [event] := List.mem_append_right _ (.head _)
    obtain ⟨_, -, honward⟩ := hstep.onward hbefore.sound (hkept event hlast) (hready event hlast) hA
      (hbefore.oneBeat hA₁ hkept₁ hready₁).grounded
    exact (honward q hq).beat?_eq (ih hA₁ hkept₁ hready₁)

end History

/-- A point that takes one beat takes it once, whatever happens, as long as nothing is cleared and it and
the points that it is computed from are bound only when their own operands have beats, which asks nothing of
a one-shot point: once it has a beat it keeps it, it was resolved at most once, and each of its actions was
queued once at that beat, if it is finite, and not at all before. -/
theorem beat_taken_once {events : List (Event σ β)} {m : Moment σ β} (h : History events m)
    (hkept : ∀ op c, Event.called op c ∈ events → ¬ op.Clears) {p : PointId}
    (hp : m.clock.points.OneBeat p)
    (hready : ∀ id beat c, Event.called (.bind id beat) c ∈ events → (c.bind id beat).1 = .ok () →
      m.clock.points.DerivesFrom p id → c.points.Grounded id) :
    (∀ earlier later m₀ beat, events = earlier ++ later → History earlier m₀ → Run m₀ later m →
      m₀.clock.points.beat? p = some beat → m.clock.points.beat? p = some beat) ∧
    ∃ node, m.clock.points.node? p = some node ∧ node.rebindable = false ∧
      (node.resolutions ≤ if node.beat.isSome then 1 else 0) ∧
      (gather (Task.deedOf? p)
        (m.pending ++ startedEntries events ++ droppedEntries events)).Perm
          (duesAt node.beat node.actions) := by
  -- The point is followed together with all that it is computed from.
  have hA := hp.oneBeats h.sound.linked
  have hp' : p ∈ {q | m.clock.points.DerivesFrom p q} := Relation.ReflTransGen.refl
  have hkept' : ∀ event ∈ events, event.ClearsNothing := by
    rintro _ hevent op c rfl
    exact hkept op c hevent
  have hready' : ∀ event ∈ events, event.BindsGrounded {q | m.clock.points.DerivesFrom p q} := by
    rintro _ hevent id beat c rfl hok hid
    exact hready id beat c hevent hok hid
  refine ⟨?_, ?_⟩
  · rintro earlier later m₀ beat rfl hbefore hrun hbeat
    exact hbefore.beat?_kept hrun hA hkept' hready' hp' hbeat
  · obtain ⟨node, hnode⟩ := hp.exists_node?
    have hbooks := (h.oneBeat hA hkept' hready').books p hp'
    refine ⟨node, hnode, hp.rebindable_eq_false h.sound.linked hnode,
      hbooks.resolutions node hnode, ?_⟩
    have hqueued := hbooks.queued
    rwa [hnode] at hqueued

namespace Conductor

/-- Three points of which each is computed from the one before. The second one has no finite beat when the
first one is bound, so it is bound itself; the third one is bound with it, and refuses another beat. -/
def chainCalls : List (Operation Offline Unit) :=
  [.createPoint .oneShot, .derivePoint ⟨.div, .point ⟨0⟩, .scalar 0.0⟩,
    .derivePoint ⟨.add, .point ⟨1⟩, .scalar 1.0⟩, .addAction ⟨2⟩ ⟨"cue", ()⟩, .bind ⟨0⟩ 2.0,
    .bind ⟨1⟩ 5.0, .bind ⟨2⟩ 9.0]

/-- The clock after these calls. -/
def chained : Conductor Offline Unit := offline.applyAll chainCalls

/-- A point computed from another one is bound before it. -/
def overtakingCalls : List (Operation Offline Unit) :=
  [.createPoint .oneShot, .derivePoint ⟨.add, .point ⟨0⟩, .scalar 1.0⟩,
    .addAction ⟨1⟩ ⟨"cue", ()⟩, .bind ⟨1⟩ 9.0, .bind ⟨0⟩ 2.0]

/-- The clock after these calls. -/
def overtaken : Conductor Offline Unit := offline.applyAll overtakingCalls

end Conductor

/-- The last point of the chain takes its beat once. -/
theorem chain_beat_taken_once :
    Conductor.chained.points.OneBeat ⟨2⟩ ∧
      ∃ node, Conductor.chained.points.node? ⟨2⟩ = some node ∧
        node.beat = some 6.0 ∧ node.resolutions = 1 ∧ node.actions.length = 1 ∧
        (gather (Task.deedOf? ⟨2⟩)
          ((⟨Conductor.chained, []⟩ : Moment Offline Unit).pending ++
            startedEntries (callEvents Conductor.offline Conductor.chainCalls) ++
            droppedEntries (callEvents Conductor.offline Conductor.chainCalls))).Perm
          (duesAt (some 6.0) node.actions) := by
  have hhistory : History (callEvents Conductor.offline Conductor.chainCalls)
      ⟨Conductor.chained, []⟩ := Conductor.history_offline_calls (by decide +kernel)
  have hview : (Conductor.chained.points.node? ⟨2⟩).map
      (fun node => (node.rebindable, node.beat, node.resolutions, node.actions.length)) =
        some (false, some 6.0, 1, 1) := by decide +kernel
  obtain ⟨node, hnode, hfields⟩ := Option.map_eq_some_iff.mp hview
  simp only [Prod.mk.injEq] at hfields
  obtain ⟨hre, hbeat, hresolutions, hactions⟩ := hfields
  have hone := (Points.oneBeat_iff hhistory.sound.linked hnode).mpr hre
  obtain ⟨-, node', hnode', -, -, hqueued⟩ := beat_taken_once hhistory
    (by
      intro op c hmem
      have hop := mem_of_called hmem
      simp only [Conductor.chainCalls, List.mem_cons, List.not_mem_nil, or_false] at hop
      rcases hop with rfl | rfl | rfl | rfl | rfl | rfl | rfl <;> exact id)
    hone
    (by
      intro id beat c hmem _ _
      simp only [Conductor.chainCalls, callEvents, List.mem_cons, List.not_mem_nil, or_false] at hmem
      rcases hmem with h | h | h | h | h | h | h <;> cases h <;> decide +kernel)
  obtain rfl := Option.some.inj (hnode.symm.trans hnode')
  rw [hbeat] at hqueued
  exact ⟨hone, node, hnode, hbeat, hresolutions, hactions, hqueued⟩

/-- A point that is bound before the point that it is computed from is resolved a second time with that one:
its beat is overwritten, and its action is queued for both beats. -/
theorem operand_bound_later_resolves_again :
    History (callEvents Conductor.offline Conductor.overtakingCalls) ⟨Conductor.overtaken, []⟩ ∧
      (∀ op ∈ Conductor.overtakingCalls, ¬ op.Clears) ∧
      Conductor.overtaken.points.OneBeat ⟨1⟩ ∧
      (Conductor.overtaken.points.node? ⟨1⟩).map
        (fun node => (node.beat, node.resolutions, node.actions.length)) = some (some 3.0, 2, 1) ∧
      (gather (Task.deedOf? ⟨1⟩) Conductor.overtaken.queue.entries).map (·.1) = [3.0, 9.0] := by
  have hhistory : History (callEvents Conductor.offline Conductor.overtakingCalls)
      ⟨Conductor.overtaken, []⟩ := Conductor.history_offline_calls (by decide +kernel)
  have hflag : (Conductor.overtaken.points.node? ⟨1⟩).map (·.rebindable) = some false := by
    decide +kernel
  obtain ⟨node, hnode, hre⟩ := Option.map_eq_some_iff.mp hflag
  refine ⟨hhistory, ?_, (Points.oneBeat_iff hhistory.sound.linked hnode).mpr hre, by decide +kernel,
    by decide +kernel⟩
  intro op hop
  simp only [Conductor.overtakingCalls, List.mem_cons, List.not_mem_nil, or_false] at hop
  rcases hop with rfl | rfl | rfl | rfl | rfl <;> exact id

end Cadence
