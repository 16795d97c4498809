import Mathlib
import Cadence.Proofs.Rebinding
import Cadence.Proofs.SingleBeat

/-!
# Actions of one-shot points

An action gets from a one-shot point to the queue in one of two ways. If it is attached before the point is
bound, the bind queues it; if it is attached later, that queues it at once. This file keeps the books of a
one-shot point from its creation on and proves that each action is queued once, whichever way it takes, and
is carried out when a pass has measured the beat of the point.

- `OneShotBooks`: every action that was attached has been asked for once if the point has a beat, and not at
  all otherwise;
- `OneShotBooks.step`: a step keeps the books, and gives the point a beat only if it has none;
- `Run.taken_of_flying`: what a pass has still to start was queued when the pass measured the beat;
- `RunsEachOnce` says what becomes of the actions, and `one_shot_actions_run_once` proves it.
-/

namespace Cadence

variable {σ β : Type}

/-- The books of a one-shot point since a moment at which it had just been created. -/
structure OneShotBooks (p : PointId) (events : List (Event σ β)) (m : Moment σ β) : Prop where
  /-- The point is not computed from others, and was not reset. -/
  node : ∃ node, m.clock.points.node? p = some node ∧ node.kind = .oneShot ∧
    node.derivation = none ∧ node.generation = 0
  /-- Its actions are those that were attached. -/
  actions : m.clock.points.actionsOf p = events.flatMap (Event.addedTo p)
  /-- What is pending or was started for it is each of them, at its beat. -/
  deeds : (gather (Task.deedOf? p) (startedEntries events ++ m.pending)).Perm
    (duesAt (m.clock.points.beat? p) (events.flatMap (Event.addedTo p)))

/-- What entries do for a point only entries with a token of it do. -/
theorem gather_deedOf?_eq_nil {p : PointId} {es : List (Entry (Task β))}
    (h : ∀ e ∈ es, ∀ token, e.task.token? = some token → token.point ≠ p) :
    gather (Task.deedOf? p) es = [] := by
  refine List.filterMap_eq_nil_iff.mpr fun e he => ?_
  cases htask : e.task with
  | actFor token action => exact if_neg (h e he token (by rw [htask]; rfl))
  | _ => rfl

/-- What a task does for a point is due when the task is. -/
theorem Task.fst_of_deedOf? {p : PointId} {task : Task β} {beat : Float} {due : Float × Action β}
    (h : task.deedOf? p beat = some due) : due.1 = beat := by
  cases task with
  | actFor token action =>
    simp only [Task.deedOf?] at h
    split_ifs at h
    cases h
    rfl
  | _ => cases h

namespace OneShotBooks

variable {p : PointId} {born events later : List (Event σ β)} {event : Event σ β} {m m' : Moment σ β}

/-- Only the point itself is among the points that it derives from. -/
theorem eq_of_derivesFrom (h : OneShotBooks p events m) {root : PointId}
    (hroot : m.clock.points.DerivesFrom p root) : root = p := by
  obtain ⟨node, hnode, -, hderivation, -⟩ := h.node
  by_contra hne
  obtain ⟨d, hd⟩ := Points.exists_derivation hnode hroot (Ne.symm hne)
  rw [hderivation] at hd
  cases hd

/-- The point takes no second beat. -/
theorem rebindable_eq_false (h : OneShotBooks p events m) (hlinked : m.clock.points.Linked)
    {node : PointNode (Action β)} (hnode : m.clock.points.node? p = some node) :
    node.rebindable = false := by
  obtain ⟨node', hnode', hkind, hderivation, -⟩ := h.node
  obtain rfl := Option.some.inj (hnode.symm.trans hnode')
  rw [← Bool.not_eq_true, hlinked.rebindable_iff hnode hderivation, not_not]
  exact hkind

variable [Transport σ]

/-- A one-shot point that was just created opens its books. -/
theorem opened {c : Conductor σ β} {u : List (Pass β)} (h : History born ⟨c, u⟩) :
    OneShotBooks c.points.nextId [] ⟨(c.createPoint .oneShot).2, u⟩ where
  node := ⟨_, (Points.node?_insert _ _ _).trans (if_pos rfl), rfl, rfl, rfl⟩
  actions := Points.actionsOf_of_node? ((Points.node?_insert _ _ _).trans (if_pos rfl))
  deeds := by
    refine .of_eq ((gather_deedOf?_eq_nil fun e he token htoken heq => ?_).trans (duesAt_nil _).symm)
    -- Nothing is queued for a point that was not there.
    obtain ⟨-, node, hnode, -⟩ := h.generation_le he htoken
    rw [heq, Points.node?_nextId] at hnode
    cases hnode

/-- No bind starts the point over, since it does not recur. -/
theorem not_disturbs (h : OneShotBooks p events m) (hstep : Step m event m')
    (hcalm : ¬ event.Discards p) : ¬ event.Disturbs p := by
  cases hstep with
  | @call c u op permitted =>
    cases op with
    | bind id beat =>
      rintro (⟨-, ⟨period, node', hnode', hkind'⟩, hderives⟩ | hwithdraws)
      · obtain ⟨node, hnode, hkind, -⟩ := h.node
        rw [h.eq_of_derivesFrom hderives] at hnode'
        obtain rfl := Option.some.inj (hnode.symm.trans hnode')
        cases hkind.symm.trans hkind'
      · exact hwithdraws
    | _ => exact hcalm
  | _ => exact hcalm

/-- The point takes a beat only if it has none, and nothing is attached to it meanwhile. -/
theorem beat?_of_given? (h : OneShotBooks p events m) (hs : Sound m) (hstep : Step m event m')
    {beat : Float} (hgiven : event.given? = some (p, beat)) :
    m.clock.points.beat? p = none ∧ event.addedTo p = [] := by
  obtain ⟨node, hnode, hkind, -⟩ := h.node
  cases hstep with
  | @call c u op permitted =>
    cases op with
    | bind id beat' =>
      simp only [Event.given?, Operation.given?] at hgiven
      split_ifs at hgiven with haccepts
      obtain ⟨rfl, rfl⟩ := Prod.mk.inj (Option.some.inj hgiven)
      obtain ⟨-, hfree⟩ := (Conductor.accepts_iff hnode).mp haccepts
      refine ⟨?_, rfl⟩
      rw [Points.beat?, hnode, Option.bind_some]
      exact Option.not_isSome_iff_eq_none.mp fun hsome =>
        hfree ⟨h.rebindable_eq_false hs.linked hnode, hsome⟩
    | _ => cases hgiven
  | @start c u reading e rest =>
    -- Only a recurring point moves on.
    change e.task.given? c = _ at hgiven
    cases htask : e.task with
    | rearm token beat' =>
      obtain ⟨-, period, node', hnode', hkind'⟩ :=
        hs.rearm e (Moment.mem_pending_next c reading e rest u) token beat' htask
      simp only [htask, Task.given?] at hgiven
      split_ifs at hgiven
      obtain ⟨rfl, -⟩ := Prod.mk.inj (Option.some.inj hgiven)
      obtain rfl := Option.some.inj (hnode.symm.trans hnode')
      cases hkind.symm.trans hkind'
    | _ => simp [htask, Task.given?] at hgiven
  | _ => cases hgiven

/-- An action that is attached is queued at once if the point has a beat. -/
theorem attachedOf_eq (h : OneShotBooks p events m) (hs : Sound m) (hstep : Step m event m') :
    event.attachedOf p = duesAt (m.clock.points.beat? p) (event.addedTo p) := by
  obtain ⟨node, hnode, -⟩ := h.node
  cases hstep with
  | @call c u op permitted =>
    cases op with
    | addAction id action =>
      simp only [Event.attachedOf, Operation.attachedOf, Event.addedTo, Operation.addedTo]
      split_ifs with hid
      · subst hid
        rw [Conductor.asked_deedOf?_attachRequests hnode (h.rebindable_eq_false hs.linked hnode),
          Points.beat?, hnode, Option.bind_some]
      · rw [Conductor.asked_deedOf?_attachRequests_of_ne action hid, duesAt_nil]
    | _ => exact (duesAt_nil _).symm
  | _ => exact (duesAt_nil _).symm

/-- What a step asks for the point is what it adds to the dues: everything, if the point takes its beat, and
what is attached otherwise. A beat is kept. -/
theorem dues_step (h : OneShotBooks p events m) (hs : Sound m) (hstep : Step m event m')
    (hreset : ¬ event.Resets p) {requests : List (Request β)}
    (hsettles : Settles m.clock.points m'.clock.points event.Resets event.given? (event.addedTo ·)
      (event.attachedOf ·) requests) :
    duesAt (m'.clock.points.beat? p) ((events ++ [event]).flatMap (Event.addedTo p)) =
        duesAt (m.clock.points.beat? p) (events.flatMap (Event.addedTo p)) ++
          asked (Task.deedOf? p) requests ∧
      ∀ beat, m.clock.points.beat? p = some beat ∨ event.given? = some (p, beat) →
        m'.clock.points.beat? p = some beat := by
  obtain ⟨node, hnode, -⟩ := h.node
  have hhas := Points.has_of_node? hnode
  rw [List.flatMap_append, List.flatMap_singleton]
  by_cases hgiven : ∃ beat, event.given? = some (p, beat)
  · obtain ⟨beat, hgiven⟩ := hgiven
    obtain ⟨hnone, hadded⟩ := h.beat?_of_given? hs hstep hgiven
    obtain ⟨hbeat, hasked⟩ := hsettles.within p beat hgiven p .refl
    refine ⟨?_, fun beat' hbeat' => ?_⟩
    · rw [hasked, hadded, hnone, duesAt_none, h.actions, List.append_nil, List.nil_append]
    · rw [hnone, hgiven] at hbeat'
      obtain ⟨-, rfl⟩ := Prod.mk.inj (Option.some.inj (hbeat'.resolve_left nofun))
      rw [hbeat, Points.valueFrom_root, Option.filter_some, if_pos (hsettles.finite p beat hgiven)]
  · -- No point takes a beat from which this one could get one.
    have hapart : m.clock.points.Apart event.given? p := fun root beat hroot hderives =>
      hgiven ⟨beat, h.eq_of_derivesFrom hderives ▸ hroot⟩
    obtain ⟨hbeat, hasked⟩ := hsettles.beyond p hhas hapart hreset
    refine ⟨?_, fun beat hbeat' => hbeat.trans (hbeat'.resolve_right fun hbeat' => hgiven ⟨beat, hbeat'⟩)⟩
    rw [hasked, hbeat, h.attachedOf_eq hs hstep, duesAt_append]

/-- A step that disturbs nothing of the point keeps its books, and the beat that the point has or is
given. -/
theorem step (h : OneShotBooks p events m) (hhistory : History born m) (hstep : Step m event m')
    (hcalm : ¬ event.Discards p) :
    OneShotBooks p (events ++ [event]) m' ∧
      ∀ beat, m.clock.points.beat? p = some beat ∨ event.given? = some (p, beat) →
        m'.clock.points.beat? p = some beat := by
  have hs := hhistory.sound
  obtain ⟨node, hnode, hkind, hderivation, hgeneration⟩ := h.node
  have hhas := Points.has_of_node? hnode
  have hundisturbed := h.not_disturbs hstep hcalm
  have hreset : ¬ event.Resets p := fun hreset => hundisturbed <| by
    cases event with
    | called op c => exact .inl hreset
    | _ => cases hreset
  have hdropped : gather (Task.deedOf? p) event.dropped = [] := by
    refine gather_deedOf?_eq_nil fun e he token htoken heq => ?_
    subst heq
    exact hhistory.token?_ne_of_dropped hstep hhas hundisturbed e he htoken
  obtain ⟨requests, heffect, hsettles⟩ := hstep.settles hs
  obtain ⟨hdues, hbeat⟩ := h.dues_step hs hstep hreset hsettles
  obtain ⟨node', hnode', hgrows, -, hsame⟩ := heffect.points.node hnode
  refine ⟨⟨⟨node', hnode', hgrows.kind.trans hkind, hgrows.derivation.trans hderivation,
    (hsame hreset).trans hgeneration⟩, ?_, ?_⟩, hbeat⟩
  · rw [hsettles.actions p hhas, h.actions, List.flatMap_append, List.flatMap_singleton]
  · rw [hdues]
    exact (heffect.gather_started_perm hdropped events).trans (h.deeds.append_right _)

/-- So does a run. -/
theorem run (h : OneShotBooks p events m) (hhistory : History born m) (hrun : Run m later m')
    (hcalm : ∀ event ∈ later, ¬ event.Discards p) :
    OneShotBooks p (events ++ later) m' ∧
      ∀ beat, m.clock.points.beat? p = some beat → m'.clock.points.beat? p = some beat := by
  induction hrun with
  | nil => exact ⟨by rwa [List.append_nil], fun _ => id⟩
  | snoc hrun hstep ih =>
    rw [List.forall_mem_append] at hcalm
    obtain ⟨hbooks, hkept⟩ := ih hcalm.1
    obtain ⟨hafter, hstay⟩ := hbooks.step (hhistory.append hrun) hstep (hcalm.2 _ (.head _))
    rw [← List.append_assoc]
    exact ⟨hafter, fun beat hbeat => hstay beat (.inl (hkept beat hbeat))⟩

end OneShotBooks

/-! ## Passes -/

section Passes

variable [Transport σ] {m m' : Moment σ β} {events : List (Event σ β)}

/-- What a pass has still to start was under way before the run, or was queued when the pass measured the
beat. -/
theorem Run.taken_of_flying (h : Run m events m') :
    ∀ pass ∈ m'.underway, ∀ e ∈ pass.rest, e ∈ m.flying ∨
      ∃ earlier taken u later, events = earlier ++ .measured taken :: later ∧
        Run m earlier ⟨taken, u⟩ ∧ pass.reading = taken.now ∧ e ∈ taken.queue.entries := by
  induction h with
  | nil => exact fun pass hpass e he => .inl (List.mem_flatMap.mpr ⟨pass, hpass, he⟩)
  | @snoc events event m₁ m₂ hrun hstep ih =>
    -- A pass that was under way before the last step took its batch before it.
    have hold (pass : Pass β) (hpass : pass ∈ m₁.underway) (e : Entry (Task β)) (he : e ∈ pass.rest) :
        e ∈ m.flying ∨ ∃ earlier taken u later, events ++ [event] = earlier ++ .measured taken :: later ∧
          Run m earlier ⟨taken, u⟩ ∧ pass.reading = taken.now ∧ e ∈ taken.queue.entries := by
      rcases ih pass hpass e he with hflying | ⟨earlier, taken, u, later, rfl, htaken⟩
      · exact .inl hflying
      · exact .inr ⟨earlier, taken, u, later ++ [event], by simp, htaken⟩
    intro pass hpass e he
    cases hstep with
    | call permitted => exact hold pass hpass e he
    | @measure c u =>
      rcases List.mem_cons.mp hpass with rfl | hpass
      · exact .inr ⟨events, c, u, [], rfl, hrun, rfl, (List.takeWhile_sublist _).subset he⟩
      · exact hold pass hpass e he
    | @start c u reading e' rest =>
      rcases List.mem_cons.mp hpass with rfl | hpass
      · exact hold _ (.head _) e (.tail _ he)
      · exact hold pass (.tail _ hpass) e he
    | fail => exact hold pass hpass e he
    | pass => exact hold pass (.tail _ hpass) e he

end Passes

/-! ## From the bind on -/

namespace OneShotBooks

variable {p : PointId} {b : Float} {born events after : List (Event σ β)} {m m' : Moment σ β}

/-- Before the point has a beat nothing is pending for it, and nothing was started. -/
theorem silent (h : OneShotBooks p events m) (hnone : m.clock.points.beat? p = none) :
    gather (Task.deedOf? p) (startedEntries events) = [] ∧ gather (Task.deedOf? p) m.pending = [] := by
  have hdeeds := h.deeds
  rw [hnone, duesAt_none, gather_append] at hdeeds
  exact List.append_eq_nil_iff.mp hdeeds.eq_nil

/-- Once it has one, each action is pending or was started, once. -/
theorem deeds_bound (h : OneShotBooks p events m) (hbeat : m.clock.points.beat? p = some b)
    (hb : b.isFinite = true) : (gather (Task.deedOf? p) (startedEntries events ++ m.pending)).Perm
      ((events.flatMap (Event.addedTo p)).map (b, ·)) := by
  have hdeeds := h.deeds
  rwa [hbeat, duesAt_some hb] at hdeeds

variable [Transport σ]

/-- A bind that is taken gives the point its beat. Until then nothing was started for it, and nothing is under
way. -/
theorem bind (h : OneShotBooks p events m) (hhistory : History born m) {c : Conductor σ β}
    (hstep : Step m (.called (.bind p b) c) m') (hok : (c.bind p b).1 = .ok ())
    (hcalm : ¬ (Event.called (.bind p b) c).Discards p) :
    OneShotBooks p (events ++ [.called (.bind p b) c]) m' ∧ b.isFinite = true ∧
      m'.clock.points.beat? p = some b ∧ gather (Task.deedOf? p) (startedEntries events) = [] ∧
      gather (Task.deedOf? p) m'.flying = [] := by
  obtain ⟨node, hnode, -⟩ := h.node
  rw [hstep.clock_of_called] at hnode
  have haccepts : c.accepts p b = true := by
    rw [Conductor.accepts, hok, hnode]
    rfl
  have hgiven : (Event.called (.bind p b) c).given? = some (p, b) := if_pos haccepts
  obtain ⟨hbooks, hgives⟩ := h.step hhistory hstep hcalm
  obtain ⟨hnone, -⟩ := h.beat?_of_given? hhistory.sound hstep hgiven
  obtain ⟨hsilent, hpending⟩ := h.silent hnone
  refine ⟨hbooks, ((Conductor.accepts_iff hnode).mp haccepts).1, hgives b (.inr hgiven), hsilent, ?_⟩
  rw [Moment.pending, gather_append] at hpending
  cases hstep
  exact (List.append_eq_nil_iff.mp hpending).2

/-- What is started for the point is carried out, since the point was never reset. -/
theorem runTask_eq (h : OneShotBooks p events m) (hhistory : History born m) {e : Entry (Task β)}
    (he : e ∈ m.pending) {token : Token} {action : Action β} (htask : e.task = .actFor token action)
    (hpoint : token.point = p) {ω : Type} (perform : Performer σ β ω) (w : ω) :
    Conductor.runTask perform e.task (m.clock, w) = perform action.body (m.clock, w) := by
  obtain ⟨node, hnode, -, -, hgeneration⟩ := h.node
  have htoken : e.task.token? = some token := by rw [htask]; rfl
  obtain ⟨-, node', hnode', hle, -⟩ := hhistory.generation_le he htoken
  rw [hpoint] at hnode'
  obtain rfl := Option.some.inj (hnode.symm.trans hnode')
  have hlive : m.clock.points.isLive token = true :=
    Points.isLive_iff.mpr ⟨node, hpoint ▸ hnode, by omega⟩
  rw [htask, Conductor.runTask, if_pos hlive]

section Bound

variable (h : OneShotBooks p events m) (hhistory : History born m)
  (hbeat : m.clock.points.beat? p = some b) (hb : b.isFinite = true)

include h hhistory hbeat hb

/-- What is started for the point was queued when a pass measured the beat, and so its action was attached by
then. -/
theorem taken_of_started (hflying : gather (Task.deedOf? p) m.flying = []) {earlier later : List (Event σ β)}
    {reading : Float} {e : Entry (Task β)} {c : Conductor σ β}
    (hrun : Run m (earlier ++ .started reading e c :: later) m')
    (hcalm : ∀ event ∈ earlier, ¬ event.Discards p) {token : Token} {action : Action β}
    (htask : e.task = .actFor token action) (hpoint : token.point = p) :
    (∃ sofar taken during, earlier = sofar ++ .measured taken :: during ∧ reading = taken.now ∧
        e ∈ taken.queue.entries ∧ action ∈ (events ++ sofar).flatMap (Event.addedTo p)) ∧
      ¬ reading < b ∧
      ∀ {ω : Type} (perform : Performer σ β ω) (w : ω),
        Conductor.runTask perform e.task (c, w) = perform action.body (c, w) := by
  obtain ⟨rest, u, hearlier⟩ := hrun.before_started
  have hmem := Moment.mem_pending_next c reading e rest u
  have hdeed : e.task.deedOf? p e.dueBeat = some (e.dueBeat, action) := by
    rw [htask]
    exact if_pos hpoint
  rcases hearlier.taken_of_flying _ (.head _) e (.head _) with
    hold | ⟨sofar, taken, u', during, rfl, hsofar, hreading, hqueued⟩
  · -- Nothing was under way for the point when it was bound.
    have hnone := List.filterMap_eq_nil_iff.mp hflying e hold
    rw [hdeed] at hnone
    cases hnone
  · obtain ⟨hbooks, hkept⟩ := h.run hhistory hsofar fun event hevent =>
      hcalm event (List.mem_append_left _ hevent)
    have hasked : (e.dueBeat, action) ∈ gather (Task.deedOf? p)
        (startedEntries (events ++ sofar) ++ (⟨taken, u'⟩ : Moment σ β).pending) :=
      List.mem_filterMap.mpr
        ⟨e, List.mem_append_right _ (List.mem_append_left _ hqueued), hdeed⟩
    obtain ⟨_, hattached, hpair⟩ := List.mem_map.mp
      ((hbooks.deeds_bound (hkept b hbeat) hb).mem_iff.mp hasked)
    obtain ⟨hdue, rfl⟩ := Prod.mk.inj hpair
    refine ⟨⟨sofar, taken, during, rfl, hreading, hqueued, hattached⟩, ?_, fun perform w => ?_⟩
    · rw [hdue]
      exact (hhistory.append hearlier).not_early.1 _ (.head _) e (.head _)
    · exact (h.run hhistory hearlier hcalm).1.runTask_eq (hhistory.append hearlier) hmem htask hpoint
        perform w

/-- Once a pass that measured the beat of the point or a later one is over, every action has been started that
was attached when it began. -/
theorem started_of_measured {sofar during : List (Event σ β)} {taken : Conductor σ β}
    (hrun : Run m (sofar ++ .measured taken :: during) m')
    (hcalm : ∀ event ∈ sofar, ¬ event.Discards p) (hdue : b ≤ taken.now) (hidle : m'.underway = []) :
    (((events ++ sofar).flatMap (Event.addedTo p)).map (b, ·)).Subperm
      (gather (Task.deedOf? p) (startedEntries (events ++ sofar ++ .measured taken :: during))) := by
  obtain ⟨m₁, hsofar, hpass⟩ := hrun.split
  have hhistory₁ := hhistory.append hsofar
  obtain ⟨hbooks, hkept⟩ := h.run hhistory hsofar hcalm
  have hdeeds := hbooks.deeds_bound (hkept b hbeat) hb
  -- Whatever is pending for the point is due at its beat, so the pass takes all of it.
  have hpending : (gather (Task.deedOf? p) m₁.pending).Subperm
      (gather (Task.deedOf? p) (startedEntries during)) := by
    rw [← List.filter_true (gather (Task.deedOf? p) m₁.pending)]
    refine gather_subperm hhistory₁.nodup_pending _ fun e he due hsaid _ => ?_
    have hmem : due ∈ gather (Task.deedOf? p) (startedEntries (events ++ sofar) ++ m₁.pending) :=
      List.mem_filterMap.mpr ⟨e, List.mem_append_right _ he, hsaid⟩
    obtain ⟨action, -, rfl⟩ := List.mem_map.mp (hdeeds.mem_iff.mp hmem)
    have hreached : e.dueBeat ≤ taken.now := by rwa [← Task.fst_of_deedOf? hsaid]
    exact hpass.mem_started_of_measured hhistory₁.sound hidle he hreached
  refine hdeeds.symm.subperm.trans ?_
  rw [gather_append, startedEntries_append (events ++ sofar), gather_append]
  exact (List.Subperm.refl _).append hpending

end Bound

end OneShotBooks

/-! ## Every action once -/

/-- What becomes of the actions of a one-shot point that is bound at `b`, in the events before the bind and in
those after it. -/
structure RunsEachOnce [Transport σ] (p : PointId) (b : Float) (before after : List (Event σ β))
    (m : Moment σ β) : Prop where
  /-- Nothing is started for the point before it is bound. -/
  unbound : gather (Task.deedOf? p) (startedEntries before) = []
  /-- Each action, attached before the bind or after it, is pending or was started, once and for the beat. -/
  once : (gather (Task.deedOf? p) (startedEntries after ++ m.pending)).Perm
    (((before ++ after).flatMap (Event.addedTo p)).map (b, ·))
  /-- It is started by a pass that took it off the queue when it measured the beat: after the bind, with the
  action attached. What the pass measured was not before the beat of the point. The action is carried out
  then. -/
  timely : ∀ earlier reading e c later token action, after = earlier ++ .started reading e c :: later →
    e.task = .actFor token action → token.point = p →
      (∃ sofar taken during, earlier = sofar ++ .measured taken :: during ∧ reading = taken.now ∧
        e ∈ taken.queue.entries ∧ action ∈ (before ++ sofar).flatMap (Event.addedTo p)) ∧
      ¬ reading < b ∧ (reading.isNaN = false → b ≤ reading) ∧
      ∀ {ω : Type} (perform : Performer σ β ω) (w : ω),
        Conductor.runTask perform e.task (c, w) = perform action.body (c, w)
  /-- Once a pass is over that measured the beat of the point or a later one, every action has been started
  that was attached when it began, and if none was attached since, each has been started once. -/
  reached : ∀ sofar taken during, after = sofar ++ .measured taken :: during → b ≤ taken.now →
    m.underway = [] →
      (((before ++ sofar).flatMap (Event.addedTo p)).map (b, ·)).Subperm
        (gather (Task.deedOf? p) (startedEntries after)) ∧
      (during.flatMap (Event.addedTo p) = [] →
        (gather (Task.deedOf? p) (startedEntries after)).Perm
          (((before ++ after).flatMap (Event.addedTo p)).map (b, ·)))

/-- Every action that is attached to a one-shot point runs exactly once, whether it is attached before the
point is bound, while the beat of the point is ahead, or when that has passed: in a pass after both that
measures the beat of the point or a later one. All that is asked is that nobody clears the point, jumps on
the timeline or cancels its entries. -/
theorem one_shot_actions_run_once [Transport σ] {born before after : List (Event σ β)}
    {c₀ c : Conductor σ β} {u₀ : List (Pass β)} {m : Moment σ β} {p : PointId} {b : Float}
    (hborn : History born ⟨c₀, u₀⟩) (hp : p = c₀.points.nextId)
    (hrun : Run ⟨c₀, u₀⟩
      (.called (.createPoint .oneShot) c₀ :: (before ++ .called (.bind p b) c :: after)) m)
    (hok : (c.bind p b).1 = .ok ())
    (hcalm : ∀ event ∈ before ++ .called (.bind p b) c :: after, ¬ event.Discards p) :
    RunsEachOnce p b before after m := by
  subst hp
  -- The point is created, then comes what happens before the bind, the bind, and what happens after it.
  obtain ⟨m₁, hcreate, hrest⟩ := hrun.head
  obtain ⟨m₂, hbefore, hrest⟩ := hrest.split
  obtain ⟨m₃, hbind, hafter⟩ := hrest.head
  obtain rfl : m₁ = ⟨(c₀.createPoint .oneShot).2, u₀⟩ := by
    cases hcreate
    rfl
  rw [List.forall_mem_append, List.forall_mem_cons] at hcalm
  obtain ⟨hcalm₁, hcalm₂, hcalm₃⟩ := hcalm
  have h₁ := hborn.append (.single hcreate)
  have h₂ := h₁.append hbefore
  have h₃ := h₂.append (.single hbind)
  obtain ⟨hbooks₂, -⟩ := (OneShotBooks.opened hborn).run h₁ hbefore hcalm₁
  rw [List.nil_append] at hbooks₂
  obtain ⟨hbooks₃, hb, hbeat, hsilent, hflying⟩ := hbooks₂.bind h₂ hbind hok hcalm₂
  have hstarted (events : List (Event σ β)) :
      gather (Task.deedOf? c₀.points.nextId)
          (startedEntries (before ++ [.called (.bind c₀.points.nextId b) c] ++ events)) =
        gather (Task.deedOf? c₀.points.nextId) (startedEntries events) := by
    rw [startedEntries_append, startedEntries_append, gather_append, gather_append, hsilent]
    rfl
  have hadded (events : List (Event σ β)) :
      (before ++ [Event.called (.bind c₀.points.nextId b) c] ++ events).flatMap
          (Event.addedTo c₀.points.nextId) =
        (before ++ events).flatMap (Event.addedTo c₀.points.nextId) := by
    simp [Event.addedTo, Operation.addedTo]
  obtain ⟨hbooks, hkept⟩ := hbooks₃.run h₃ hafter hcalm₃
  have honce := hbooks.deeds_bound (hkept b hbeat) hb
  rw [gather_append, hstarted, hadded, ← gather_append] at honce
  refine ⟨hsilent, honce, ?_, ?_⟩
  · rintro earlier reading e c' later token action rfl htask hpoint
    obtain ⟨⟨sofar, taken, during, rfl, hreading, hqueued, hattached⟩, hreached, hruns⟩ :=
      hbooks₃.taken_of_started h₃ hbeat hb hflying hafter
        (fun event hevent => hcalm₃ event (List.mem_append_left _ hevent)) htask hpoint
    rw [hadded] at hattached
    exact ⟨⟨sofar, taken, during, rfl, hreading, hqueued, hattached⟩, hreached,
      fun hnan => Number.le_of_not_lt hnan (Number.isNaN_of_isFinite hb) hreached, hruns⟩
  · rintro sofar taken during rfl hdue hidle
    have hall := hbooks₃.started_of_measured h₃ hbeat hb hafter
      (fun event hevent => hcalm₃ event (List.mem_append_left _ hevent)) hdue hidle
    rw [hadded, List.append_assoc, hstarted] at hall
    refine ⟨hall, fun hnothing => ?_⟩
    -- Nothing was attached since, so what was started is among what was asked for, and all of it.
    have hsame : (before ++ (sofar ++ .measured taken :: during)).flatMap
        (Event.addedTo c₀.points.nextId) =
          (before ++ sofar).flatMap (Event.addedTo c₀.points.nextId) := by
      rw [← List.append_assoc, List.flatMap_append, List.flatMap_cons, hnothing]
      simp [Event.addedTo]
    rw [gather_append] at honce
    refine List.Subperm.antisymm ?_ (hsame ▸ hall)
    exact (List.sublist_append_left _ _).subperm.trans honce.subperm

namespace Conductor

/-- A one-shot point with an action that was attached before its bind. -/
def cueing : Conductor Offline Unit :=
  (offline.createPoint .oneShot).2.applyAll [.addAction ⟨0⟩ ⟨"early", ()⟩]

/-- What is called from the bind to beat four on: another action is attached, and that beat passes. -/
def cueingCalls : List (Operation Offline Unit) := [.addAction ⟨0⟩ ⟨"between", ()⟩, .advance 3000000]

/-- The clock after these calls. -/
def cuedUp : Conductor Offline Unit := (cueing.bind ⟨0⟩ 4.0).2.applyAll cueingCalls

/-- What happens then: a tick, a third action is attached, and another tick. -/
def cuedEvents : List (Event Offline Unit) :=
  callEvents (cueing.bind ⟨0⟩ 4.0).2 cueingCalls ++
    (LawfulPerformer.still.dueEvents (cuedUp, ()) ++
      callEvents (runDue LawfulPerformer.still.perform (cuedUp, ())).2.1 [.addAction ⟨0⟩ ⟨"late", ()⟩])

/-- The clock before the second tick. -/
def cuedLate : Conductor Offline Unit :=
  (runDue LawfulPerformer.still.perform (cuedUp, ())).2.1.applyAll [.addAction ⟨0⟩ ⟨"late", ()⟩]

theorem run_cued : Run ⟨offline, []⟩
    (.called (.createPoint .oneShot) offline ::
      (callEvents (offline.createPoint .oneShot).2 [.addAction ⟨0⟩ ⟨"early", ()⟩] ++
        .called (.bind ⟨0⟩ 4.0) cueing ::
          (cuedEvents ++ LawfulPerformer.still.dueEvents (cuedLate, ()))))
    ⟨(runDue LawfulPerformer.still.perform (cuedLate, ())).2.1, []⟩ := by
  have hborn : Sound ⟨(offline : Conductor Offline Unit), []⟩ := (History.create create_offline).sound
  have hcreate : Run ⟨(offline : Conductor Offline Unit), []⟩ [.called (.createPoint .oneShot) offline]
      ⟨(offline.createPoint .oneShot).2, []⟩ := .single (.call (by decide +kernel))
  have hbind : Run ⟨cueing, []⟩ [.called (.bind ⟨0⟩ 4.0) cueing] ⟨(cueing.bind ⟨0⟩ 4.0).2, []⟩ :=
    .single (.call (by decide +kernel))
  have hearly : Run ⟨(offline.createPoint .oneShot).2, []⟩
      (callEvents _ [.addAction ⟨0⟩ ⟨"early", ()⟩]) ⟨cueing, []⟩ := run_calls (by decide +kernel)
  have hcalls : Run ⟨(cueing.bind ⟨0⟩ 4.0).2, []⟩ (callEvents _ cueingCalls) ⟨cuedUp, []⟩ :=
    run_calls (by decide +kernel)
  have hcalled := (hcreate.append hearly).append (hbind.append hcalls)
  have hattach : Run ⟨(runDue LawfulPerformer.still.perform (cuedUp, ())).2.1, []⟩
      (callEvents _ [.addAction ⟨0⟩ ⟨"late", ()⟩]) ⟨cuedLate, []⟩ := run_calls (by decide +kernel)
  have hdone := ((hcalled.append_dueEvents hborn).append hattach).append_dueEvents hborn
  simp only [List.append_assoc, List.cons_append, List.nil_append] at hdone
  simp only [cuedEvents, List.append_assoc]
  exact hdone

/-- The ticks call no operation. -/
theorem isCall_dueEvents_cued : ∀ event ∈ LawfulPerformer.still.dueEvents (cuedUp, ()) ++
    LawfulPerformer.still.dueEvents (cuedLate, ()), event.isCall = false := by
  decide +kernel

/-- They attach nothing. -/
theorem addedTo_dueEvents_cued :
    (LawfulPerformer.still.dueEvents (cuedUp, ())).flatMap (Event.addedTo ⟨0⟩) = [] ∧
      (LawfulPerformer.still.dueEvents (cuedLate, ())).flatMap (Event.addedTo ⟨0⟩) = [] := by
  rw [← List.append_eq_nil_iff, ← List.flatMap_append]
  refine List.flatMap_eq_nil_iff.mpr fun event hevent => ?_
  have hcall := isCall_dueEvents_cued event hevent
  cases event with
  | called op c => cases hcall
  | _ => rfl

/-- Nothing is discarded. -/
theorem not_discards_cued : ∀ event ∈ callEvents (offline.createPoint .oneShot).2
    [.addAction ⟨0⟩ ⟨"early", ()⟩] ++ .called (.bind ⟨0⟩ 4.0) cueing ::
      (cuedEvents ++ LawfulPerformer.still.dueEvents (cuedLate, ())), ¬ event.Discards ⟨0⟩ := by
  intro event hevent
  by_cases hticks : event ∈ LawfulPerformer.still.dueEvents (cuedUp, ()) ++
      LawfulPerformer.still.dueEvents (cuedLate, ())
  · have hcall := isCall_dueEvents_cued event hticks
    cases event with
    | called op c => cases hcall
    | _ => exact id
  · simp only [List.mem_append, not_or] at hticks
    simp only [cuedEvents, cueingCalls, callEvents, List.mem_append, List.mem_cons, List.not_mem_nil,
      or_false, hticks, false_or] at hevent
    rcases hevent with rfl | rfl | (rfl | rfl) | rfl
    all_goals rintro (h | h) <;> exact h

end Conductor

/-- Three actions, one attached before the bind, one between the bind and the beat, and one when that has
passed, are each started once in two ticks. -/
theorem cued_run_once :
    (gather (Task.deedOf? ⟨0⟩)
        (startedEntries (Conductor.cuedEvents ++
          LawfulPerformer.still.dueEvents (Conductor.cuedLate, ())))).Perm
      [(4.0, ⟨"early", ()⟩), (4.0, ⟨"between", ()⟩), (4.0, ⟨"late", ()⟩)] := by
  have hruns : RunsEachOnce ⟨0⟩ 4.0 _ _ _ :=
    one_shot_actions_run_once (History.create Conductor.create_offline) (by decide +kernel)
      Conductor.run_cued (by decide +kernel) Conductor.not_discards_cued
  -- The second tick begins after the last action was attached.
  obtain ⟨rest, hrest⟩ := LawfulPerformer.still.exists_dueEvents_eq Conductor.cuedLate ()
  obtain ⟨-, hall⟩ := hruns.reached _ _ _ (congrArg _ hrest) (by decide +kernel) rfl
  have hadded : (callEvents (Conductor.offline.createPoint .oneShot).2
      [.addAction ⟨0⟩ ⟨"early", ()⟩] ++ (Conductor.cuedEvents ++
        LawfulPerformer.still.dueEvents (Conductor.cuedLate, ()))).flatMap (Event.addedTo ⟨0⟩) =
      [⟨"early", ()⟩, ⟨"between", ()⟩, ⟨"late", ()⟩] := by
    rw [List.flatMap_append, List.flatMap_append, Conductor.cuedEvents, List.flatMap_append,
      List.flatMap_append, Conductor.addedTo_dueEvents_cued.1, Conductor.addedTo_dueEvents_cued.2]
    rfl
  have hafter := Conductor.addedTo_dueEvents_cued.2
  rw [hrest, List.flatMap_cons, List.append_eq_nil_iff] at hafter
  rw [hadded] at hall
  exact hall hafter.2

end Cadence
