import Mathlib
import Cadence.Proofs.Point.Calls
import Cadence.Proofs.PointClearing
import Cadence.Proofs.Run.Giving

/-!
# Binding a point

A bind is refused if the beat is not finite, or if the point has a beat and takes only one. Whether it takes
only one is written down when the point is created, and depends on the points at the far end of its
derivations. This file says what a bind answers, what a refused one leaves, and what one that is taken takes
off the queue.

- `History.plain`: a point that is not computed from others is a one-shot, persistent or recurring one;
- `Linked.repeats_iff`: a point takes beats again exactly if it, or some point that it is computed from, does
  so by its kind;
- `Conductor.Binds` says what a bind answers and leaves, and `bind_follows_kinds` proves it of every clock
  with a history.
-/

namespace Cadence

variable {σ β : Type}

/-! ## The kinds of points that are not computed -/

/-- A point that is not computed from others is a one-shot, persistent or recurring one. -/
def Points.Plain {α : Type} (ps : Points α) : Prop :=
  ∀ id node, ps.node? id = some node → node.derivation = none → node.kind ≠ .derived

namespace Points

variable {α : Type} {ps ps' : Points α}

theorem Plain.of_keeps (h : ps.Plain) (hkeeps : Keeps links ps ps') : ps'.Plain := by
  intro id node' hnode' hd
  obtain ⟨node, hnode, hview⟩ := hkeeps.node?_symm hnode'
  have hkind : node'.kind = node.kind := congrArg (·.2.2.1) hview
  rw [hkind]
  exact h id node hnode ((congrArg Prod.fst hview).symm.trans hd)

theorem plain_empty : (empty : Points α).Plain := by
  intro id node hnode
  simp [empty, node?] at hnode

theorem Plain.insert (h : ps.Plain) {kind : PointKind} (hkind : kind ≠ .derived) :
    (ps.insert kind).2.Plain := by
  intro id node hnode hd
  rw [node?_insert] at hnode
  split_ifs at hnode
  · cases hnode
    exact hkind
  · exact h id node hnode hd

theorem Plain.derive (h : ps.Plain) {d : Derivation} (hd : ∀ id ∈ d.points, ps.Has id) :
    (ps.derive d).2.Plain := by
  obtain ⟨_, hderive, -⟩ := node?_derive hd
  intro id node hnode hnone
  rw [hderive] at hnode
  split_ifs at hnode
  · cases hnode
    cases hnone
  · obtain ⟨node', hnode', rfl⟩ := Option.map_eq_some_iff.mp hnode
    rw [addChild_eq] at hnone ⊢
    exact h id node' hnode' hnone
  · exact h id node hnode hnone

/-- A point takes beats again exactly if it, or some point that it is computed from, does so by its kind. -/
theorem Linked.repeats_iff (h : ps.Linked) (hplain : ps.Plain) {id : PointId} {node : PointNode α}
    (hnode : ps.node? id = some node) :
    node.rebindable = true ↔ ∃ q source, ps.DerivesFrom id q ∧ ps.node? q = some source ∧
      source.derivation = none ∧ source.kind.Repeats := by
  have hflag : ps.Rebindable id ↔ node.rebindable = true := by
    simp [Rebindable, hnode]
  rw [← hflag, h.rebindable_iff_source (has_of_node? hnode)]
  refine exists₂_congr fun q source => and_congr_right fun _ => and_congr_right fun hsource =>
    and_congr_right fun hd => ?_
  rw [PointKind.repeats_iff, and_iff_left (hplain q source hsource hd)]

end Points

namespace Conductor

variable {c : Conductor σ β} {id : PointId} {beat : Float}

/-- Binding a point leaves kinds, derivations, children and flags alone. -/
theorem keeps_links_bind (hlinked : c.points.Linked) (id : PointId) (beat : Float) :
    Points.Keeps Points.links c.points (c.bind id beat).2.points := by
  rcases c.bind_cases hlinked id beat with ⟨hsame, -⟩ | ⟨node, others, hnode, -, henqueues, -⟩
  · rw [hsame]
    exact .refl _
  · have hrestart : Points.Keeps Points.links c.points (c.restart id node.kind).points := by
      cases node.kind with
      | recurring period =>
        rw [c.restart_recurring (Points.has_of_node? hnode)]
        exact (c.keeps_clearPoint id).comp Points.links
      | _ => exact .refl _
    refine hrestart.trans ?_
    rw [henqueues.points]
    exact henqueues.resolves.keeps.comp Points.links

end Conductor

/-- The event creates no point of the kind of derived ones without a derivation. Only a derivation creates a
derived point. -/
def Event.Plain : Event σ β → Prop
  | .called (.createPoint kind) _ => kind ≠ .derived
  | _ => True

variable [Transport σ]

/-- Operations create no other points than plain ones. -/
theorem Operation.plain {op : Operation σ β} {c : Conductor σ β} (hlinked : c.points.Linked)
    (hpermitted : op.Permitted c) (hop : (Event.called op c).Plain) (h : c.points.Plain) :
    (op.apply c).points.Plain := by
  by_cases hconcerns : op.ConcernsPoints
  swap
  · obtain ⟨_, -, hpoints, -⟩ := queueChange hconcerns c
    rwa [hpoints]
  have hreset : c.points.resetAll.Plain := by
    refine h.of_keeps fun q => ?_
    rw [Points.node?_resetAll, Option.map_map]
    rfl
  cases op with
  | setTime beat =>
    change (c.setTime beat).2.points.Plain
    rw [c.points_setTime]
    split_ifs
    · exact hreset
    · exact h
  | clear | clearAllPoints => exact hreset
  | createPoint kind => exact h.insert hop
  | recurringPoint period =>
    change (c.recurringPoint period).2.points.Plain
    rcases c.recurringPoint_cases period with hsame | ⟨period', hcreate⟩
    · rwa [hsame]
    · rw [hcreate]
      exact h.insert nofun
  | derivePoint d => exact h.derive hpermitted
  | bind id beat => exact h.of_keeps (Conductor.keeps_links_bind hlinked id beat)
  | addAction id action =>
    change (c.addAction id action).points.Plain
    rw [(c.addAction_spec id action).1]
    exact h.of_keeps (Points.keeps_addAction (fun _ _ => rfl) _ _ _ _)
  | clearPoint id => exact h.of_keeps ((c.keeps_clearPoint id).comp Points.links)
  | every period action =>
    change (c.every period action).2.points.Plain
    rcases c.every_cases period action with hsame | ⟨period', hevery⟩
    · rwa [hsame]
    · rw [hevery]
      have hboth := c.change_createPoint_addAction period' action
      have hcreated : (c.createPoint (.recurring period')).2.points.Plain := h.insert nofun
      refine Points.Plain.of_keeps ?_
        (Conductor.keeps_links_bind (hboth.points.linked hlinked) c.points.nextId _)
      rw [(Conductor.addAction_spec _ _ _).1]
      exact hcreated.of_keeps (Points.keeps_addAction (fun _ _ => rfl) _ _ _ _)
  | _ => exact absurd hconcerns id

/-- A step creates no other points than plain ones. -/
theorem Step.plain {m m' : Moment σ β} {event : Event σ β} (hs : Sound m) (hstep : Step m event m')
    (hevent : event.Plain) (h : m.clock.points.Plain) : m'.clock.points.Plain := by
  cases hstep with
  | call permitted => exact Operation.plain hs.linked permitted hevent h
  | @start c u reading e rest =>
    cases htask : e.task with
    | act | actFor => simpa [htask, Task.carry] using h
    | tempo beat bpm => simpa [htask, Task.carry, c.changeTempoAt_queue_points beat bpm] using h
    | rearm token beat =>
      have hmem := Moment.mem_pending_next c reading e rest u
      simp only [Task.carry]
      split_ifs with hlive
      · obtain ⟨others, henqueues⟩ := c.enqueues_rearm hs.linked hlive (hs.finite_rearm hmem htask)
        rw [henqueues.points]
        exact h.of_keeps (henqueues.resolves.keeps.comp Points.links)
      · exact h
  | _ => exact h

/-- In a history in which only derivations create derived points, every other point is plain. -/
theorem History.plain {events : List (Event σ β)} {m : Moment σ β} (h : History events m)
    (hevents : ∀ event ∈ events, event.Plain) : m.clock.points.Plain := by
  induction h using History.induction with
  | created hcreate =>
    rw [(sound_create hcreate).2.2]
    exact Points.plain_empty
  | stepped h hstep ih =>
    rw [List.forall_mem_append] at hevents
    exact hstep.plain h.sound (hevents.2 _ (.head _)) (ih hevents.1)

/-! ## What a bind answers and leaves -/

namespace Conductor

variable {c : Conductor σ β} {id : PointId} {beat : Float} {node : PointNode (Action β)}

omit [Transport σ]

/-- A bind to a beat that is not finite is refused. -/
theorem bind_of_not_isFinite (hbeat : beat.isFinite = false) :
    c.bind id beat = (.error (.invalidBeat beat), c) := by
  simp [bind, checkBeat, hbeat]

/-- A bind of a point that has its only beat is refused with that beat. -/
theorem bind_of_bound (hnode : c.points.node? id = some node) (hbeat : beat.isFinite = true)
    (hre : node.rebindable = false) {current : Float} (hcurrent : node.beat = some current) :
    c.bind id beat = (.error (.pointAlreadyBound id current), c) := by
  simp [bind, checkBeat, hbeat, hnode, hre, hcurrent]

/-- Any other bind is taken. -/
theorem bind_of_free (hnode : c.points.node? id = some node) (hbeat : beat.isFinite = true)
    (hfree : ¬ (node.rebindable = false ∧ node.beat.isSome)) : (c.bind id beat).1 = .ok () := by
  have haccepts := (accepts_iff hnode).mpr ⟨hbeat, hfree⟩
  unfold accepts at haccepts
  cases hanswer : (c.bind id beat).1 with
  | error fault =>
    rw [hanswer] at haccepts
    cases haccepts
  | ok answer => rfl

/-- A bind that is taken gives the point the beat. Of what was queued it takes off what the point reaches if
it recurs, and nothing otherwise. -/
theorem bind_taken (hlinked : c.points.Linked) (hvalid : c.queue.Valid)
    (hnode : c.points.node? id = some node) (hbeat : beat.isFinite = true)
    (hfree : ¬ (node.rebindable = false ∧ node.beat.isSome)) :
    (c.bind id beat).2.points.beat? id = some beat ∧
      (∀ period, node.kind = .recurring period → ∀ e ∈ c.queue.entries,
        e ∈ (c.bind id beat).2.queue.entries ↔ ¬ c.points.Reaches id e) ∧
      ((∀ period, node.kind ≠ .recurring period) → ∀ e ∈ c.queue.entries,
        e ∈ (c.bind id beat).2.queue.entries) := by
  have hid := Points.has_of_node? hnode
  obtain ⟨others, henqueues⟩ := c.enqueues_bind hlinked hnode hbeat hfree
  refine ⟨?_, fun period hkind e he => ?_, fun hkind e he => ?_⟩
  · rw [henqueues.points]
    exact henqueues.resolves.beat
  · rw [hkind, c.restart_recurring hid, c.clearPoint_eq hid] at henqueues
    rw [henqueues.queue.mem_iff, ← Points.ownedBy_subtree_iff hlinked hid]
    -- What is added has later names than what was queued.
    have hold : e ∉ Request.entries c.queue.submitted _ := fun hadded =>
      absurd (hvalid.issued e he) (not_lt.mpr (henqueues.queue.submitted_le hadded).1)
    simp [hold, he]
  · refine henqueues.queue.mem_iff.mpr (.inl ⟨?_, rfl⟩)
    cases hnodekind : node.kind with
    | recurring period => exact absurd hnodekind (hkind period)
    | _ => exact he

end Conductor

/-- What a bind of a point answers, and the clock `c'` after it. -/
structure Conductor.Binds (c : Conductor σ β) (id : PointId) (node : PointNode (Action β)) (beat : Float)
    (answer : Except Fault Unit) (c' : Conductor σ β) : Prop where
  /-- The beat is refused exactly if it is not finite. -/
  invalid : answer = .error (.invalidBeat beat) ↔ beat.isFinite = false
  /-- A finite beat is refused, with the beat that the point has, exactly if it has one and neither the point
  nor any point at the far end of its derivations takes beats again. -/
  bound : ∀ current, answer = .error (.pointAlreadyBound id current) ↔
    beat.isFinite = true ∧ node.beat = some current ∧
      ∀ q source, c.points.DerivesFrom id q → c.points.node? q = some source →
        source.derivation = none → ¬ source.kind.Repeats
  /-- In every other case the bind is taken. -/
  otherwise : answer ≠ .error (.invalidBeat beat) →
    (∀ current, answer ≠ .error (.pointAlreadyBound id current)) → answer = .ok ()
  /-- A bind that is refused changes nothing. -/
  unchanged : ∀ fault, answer = .error fault → c' = c
  /-- A bind that is taken gives the point the beat. -/
  taken : answer = .ok () → c'.points.beat? id = some beat
  /-- If the point recurs, exactly the entries of the point and of what is computed from it leave the
  queue. -/
  restarted : answer = .ok () → ∀ period, node.kind = .recurring period → ∀ e ∈ c.queue.entries,
    e ∈ c'.queue.entries ↔ ¬ c.points.Reaches id e
  /-- Otherwise no entry does. -/
  kept : answer = .ok () → (∀ period, node.kind ≠ .recurring period) → ∀ e ∈ c.queue.entries,
    e ∈ c'.queue.entries

/-- Whether a point refuses a finite beat depends on its beat and on the kinds of the points at the far end of
its derivations alone. A bind that is refused changes nothing, and one that is taken gives the point the beat
and takes entries off the queue only if the point recurs: those of the point and of what is computed from
it. -/
theorem bind_follows_kinds {events : List (Event σ β)} {m : Moment σ β} (h : History events m)
    (hevents : ∀ event ∈ events, event.Plain) {id : PointId} {node : PointNode (Action β)}
    (hnode : m.clock.points.node? id = some node) (beat : Float) :
    m.clock.Binds id node beat (m.clock.bind id beat).1 (m.clock.bind id beat).2 := by
  have hlinked := h.sound.linked
  have hrepeats := hlinked.repeats_iff (h.plain hevents) hnode
  have hnever : node.rebindable = false ↔ ∀ q source, m.clock.points.DerivesFrom id q →
      m.clock.points.node? q = some source → source.derivation = none → ¬ source.kind.Repeats := by
    rw [← Bool.not_eq_true, hrepeats]
    simp only [not_exists, not_and]
  cases hbeat : beat.isFinite with
  | false =>
    rw [Conductor.bind_of_not_isFinite hbeat]
    constructor <;> simp [hbeat]
  | true =>
    by_cases hfree : node.rebindable = false ∧ node.beat.isSome
    · obtain ⟨current, hcurrent⟩ := Option.isSome_iff_exists.mp hfree.2
      rw [Conductor.bind_of_bound hnode hbeat hfree.1 hcurrent]
      have hnot := hnever.mp hfree.1
      constructor
      case bound =>
        intro current'
        simp only [hbeat, hcurrent, Except.error.injEq, Fault.pointAlreadyBound.injEq, Option.some.injEq,
          true_and]
        exact (and_iff_left hnot).symm
      all_goals simp [hbeat]
    · obtain ⟨htaken, hrestarted, hkept⟩ :=
        Conductor.bind_taken hlinked h.sound.valid hnode hbeat hfree
      rw [Conductor.bind_of_free hnode hbeat hfree]
      refine ⟨by simp [hbeat], fun current => ⟨nofun, ?_⟩, fun _ _ => rfl, nofun, fun _ => htaken,
        fun _ => hrestarted, fun _ => hkept⟩
      rintro ⟨-, hcurrent, hnot⟩
      exact absurd ⟨hnever.mpr hnot, by rw [hcurrent]; rfl⟩ hfree

namespace Conductor

/-- A one-shot point that is bound, a point computed from it, and one computed from that and a persistent
point. -/
def mixedCalls : List (Operation Offline Unit) :=
  [.createPoint .oneShot, .derivePoint ⟨.add, .point ⟨0⟩, .scalar 1.0⟩, .createPoint .persistent,
    .derivePoint ⟨.add, .point ⟨1⟩, .point ⟨2⟩⟩, .addAction ⟨3⟩ ⟨"cue", ()⟩, .bind ⟨0⟩ 5.0, .bind ⟨2⟩ 2.0]

/-- The clock after these calls. -/
def mixed : Conductor Offline Unit := offline.applyAll mixedCalls

end Conductor

/-- The point that is computed from the one-shot point alone has its only beat, and the last one takes
another one. -/
theorem mixed_bind_follows_kinds :
    (∃ node, Conductor.mixed.points.node? ⟨1⟩ = some node ∧
      Conductor.mixed.Binds ⟨1⟩ node 9.0 (.error (.pointAlreadyBound ⟨1⟩ 6.0)) Conductor.mixed) ∧
    ∃ node, Conductor.mixed.points.node? ⟨3⟩ = some node ∧ node.beat = some 8.0 ∧
      Conductor.mixed.Binds ⟨3⟩ node 9.0 (.ok ()) (Conductor.mixed.bind ⟨3⟩ 9.0).2 := by
  have hhistory : History (callEvents Conductor.offline Conductor.mixedCalls)
      ⟨Conductor.mixed, []⟩ := Conductor.history_offline_calls (by decide +kernel)
  have hevents : ∀ event ∈ callEvents Conductor.offline Conductor.mixedCalls, event.Plain := by
    intro event hevent
    simp only [Conductor.mixedCalls, callEvents, List.mem_cons, List.not_mem_nil, or_false] at hevent
    rcases hevent with rfl | rfl | rfl | rfl | rfl | rfl | rfl <;> simp [Event.Plain]
  refine ⟨?_, ?_⟩
  · obtain ⟨node, hnode, hfields⟩ := Option.map_eq_some_iff.mp
      (show (Conductor.mixed.points.node? ⟨1⟩).map (fun node => (node.rebindable, node.beat)) =
        some (false, some 6.0) by decide +kernel)
    obtain ⟨hre, hbeat⟩ := Prod.mk.inj hfields
    have hbinds := bind_follows_kinds hhistory hevents hnode 9.0
    rw [Conductor.bind_of_bound hnode (by decide +kernel) hre hbeat] at hbinds
    exact ⟨node, hnode, hbinds⟩
  · obtain ⟨node, hnode, hfields⟩ := Option.map_eq_some_iff.mp
      (show (Conductor.mixed.points.node? ⟨3⟩).map (fun node => (node.rebindable, node.beat)) =
        some (true, some 8.0) by decide +kernel)
    obtain ⟨hre, hbeat⟩ := Prod.mk.inj hfields
    have hbinds := bind_follows_kinds hhistory hevents hnode 9.0
    dsimp only at hbinds
    rw [Conductor.bind_of_free hnode (by decide +kernel) (by simp [hre])] at hbinds
    exact ⟨node, hnode, hbeat, hbinds⟩

end Cadence
