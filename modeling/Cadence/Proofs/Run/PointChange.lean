import Mathlib
import Cadence.Proofs.Run.Change

/-!
# What operations on points change

Binding a point, moving a recurring one on and attaching an action are the operations that request
entries for points. This file says for each of them which entries these are, and which points are
reset:

- `Conductor.Enqueues.change`: a resolution requests what its points want and, for a recurring point,
  the next beat;
- `Conductor.change_bind`: binding a recurring point resets it with what derives from it, before it is
  resolved;
- `Conductor.change_addAction`: attaching an action requests at most that action, at the point's beat.
-/

namespace Cadence

variable {σ β : Type}

namespace Conductor

/-! ## Resolutions -/

/-- The requests that a resolution makes. -/
def resolutionRequests (id : PointId) (r : Resolution (Action β)) : List (Request β) :=
  batchRequests (batchOf id r)

/-- A task of a resolution is an action of a wanted entry, or the next beat of the point. -/
theorem mem_batchOf {id : PointId} {r : Resolution (Action β)} {b : Float × Task β × PointId}
    (hb : b ∈ batchOf id r) :
    (∃ e ∈ r.entries, b = (e.beat, .actFor e.token e.action, e.token.point)) ∨
      ∃ beat token, r.rearm = some (beat, token) ∧ b = (beat, .rearm token beat, id) := by
  unfold batchOf at hb
  split at hb
  · obtain ⟨e, he, rfl⟩ := List.mem_map.mp hb
    exact .inl ⟨e, he, rfl⟩
  · rename_i beat token hrearm
    rcases List.mem_append.mp hb with hb | hb
    · obtain ⟨e, he, rfl⟩ := List.mem_map.mp hb
      exact .inl ⟨e, he, rfl⟩
    · rw [List.mem_singleton.mp hb]
      exact .inr ⟨beat, token, hrearm, rfl⟩

/-- A request of a resolution is for the root or for a point derived from it. -/
theorem derivesFrom_of_mem_resolutionRequests {ps : Points (Action β)} {root : PointId}
    {beat : Float} (hbeat : beat.isFinite = true) {r : Resolved (Action β)}
    {others : List (PointEntry (Action β))} (h : ps.ResolvesTo root beat r others)
    {request : Request β}
    (hrequest : request ∈ resolutionRequests root
      ⟨ps.wants root beat ++ others, ps.rearmAfter root beat⟩) :
    ∃ token, request.task.token? = some token ∧ ps.DerivesFrom token.point root ∧
      request.Backed ps := by
  have hbacked {r : Request β} {token : Token} (htoken : r.task.token? = some token)
      (hlive : ps.isLive token = true) (howner : r.owner = some token.point)
      (hrearm : ∀ token beat, r.task = .rearm token beat →
        r.beat = beat ∧ ∃ period, ps.Recurs token.point period) : r.Backed ps := by
    refine ⟨fun token' htoken' => ?_, hrearm⟩
    rw [htoken] at htoken'
    cases htoken'
    exact ⟨hlive, howner⟩
  obtain ⟨b, hb, rfl⟩ := List.mem_map.mp hrequest
  -- A request stands for an entry that is wanted, or for the next beat of the root.
  rcases mem_batchOf (List.mem_filter.mp hb).1 with ⟨e, he, rfl⟩ | ⟨next, token, hrearm, rfl⟩
  · have hwanted : ps.Wanted e ∧ ps.DerivesFrom e.token.point root := by
      rcases List.mem_append.mp he with he | he
      · obtain ⟨hwanted, hpoint⟩ := Points.wanted_of_mem_wants hbeat he
        exact ⟨hwanted, hpoint ▸ .refl⟩
      · obtain ⟨hwanted, -, hderives⟩ := h.others e he
        exact ⟨hwanted, hderives⟩
    exact ⟨e.token, rfl, hwanted.2, hbacked rfl hwanted.1.isLive rfl (by simp [batchRequest])⟩
  · obtain ⟨period, hrecurs, -, hpoint, hlive⟩ := Points.rearmAfter_eq_some hrearm
    refine ⟨token, rfl, hpoint ▸ .refl, hbacked rfl hlive (congrArg some hpoint.symm) ?_⟩
    intro token' beat' htask
    cases htask
    exact ⟨rfl, period, hpoint ▸ hrecurs⟩

/-! ## Binding and moving on -/

theorem evolves_cancelOwners (c : Conductor σ β) (ids : List PointId) :
    c.queue.Evolves (c.cancelOwners ids).2.queue (·.ownedBy ids) [] :=
  c.queue.evolves_removeIf _

theorem clearPoint_of_has (c : Conductor σ β) {id : PointId} (hid : c.points.Has id) :
    (c.clearPoint id).2 =
      (({ c with points := (c.points.resetSubtree id).2 } : Conductor σ β).cancelOwners
        (c.points.subtree id)).2 := by
  unfold clearPoint
  rw [Points.resetSubtree_ok hid]

/-- Clearing a point that was never created changes nothing. -/
theorem clearPoint_of_not_has (c : Conductor σ β) {id : PointId} (hid : ¬ c.points.Has id) :
    (c.clearPoint id).2 = c := by
  simp [clearPoint, Points.resetSubtree, Points.find, Points.node?_eq_none hid]

/-- Clearing a point resets it with what derives from it. -/
theorem change_clearPoint (c : Conductor σ β) (hlinked : c.points.Linked) (id : PointId) :
    Change c (c.clearPoint id).2 (fun q => c.points.DerivesFrom q id) [] := by
  by_cases hid : c.points.Has id
  · have hreset := Points.advances_resetSubtree hlinked hid
    rw [c.clearPoint_of_has hid]
    exact ⟨⟨_, evolves_cancelOwners _ _⟩, hreset, by simp⟩
  · rw [c.clearPoint_of_not_has hid]
    refine (Change.of_eq rfl rfl).congr fun q hq => ⟨False.elim, fun hd => ?_⟩
    -- What was created does not derive from a name that was not handed out.
    have hle := hlinked.index_le hd
    exact hid (lt_of_le_of_lt hle hq)

/-- Clearing a point begins a new generation of what derives from it, and nothing else. -/
theorem node?_clearPoint_eq (c : Conductor σ β) {id : PointId} (hid : c.points.Has id)
    (q : PointId) :
    (c.clearPoint id).2.points.node? q =
      if q ∈ c.points.subtree id then (c.points.node? q).map PointNode.reset
      else c.points.node? q := by
  have hpoints : (c.clearPoint id).2.points = (c.points.resetSubtree id).2 :=
    congrArg Conductor.points (c.clearPoint_of_has hid)
  rw [hpoints, Points.resetSubtree_ok hid,
    Points.node?_foldl_modify c.points (c.points.subtree_nodup id)]

/-- Clearing a point begins a new generation of it, and leaves its actions attached. -/
theorem node?_clearPoint (c : Conductor σ β) (hlinked : c.points.Linked) {id : PointId}
    {node : PointNode (Action β)} (hnode : c.points.node? id = some node) :
    (c.clearPoint id).2.points.node? id = some node.reset := by
  have hid := Points.has_of_node? hnode
  rw [c.node?_clearPoint_eq hid, hnode,
    if_pos ((Points.mem_subtree_iff hlinked hid id).mpr .refl)]
  rfl

/-- Starting a recurring point over resets it with what derives from it. -/
theorem restart_recurring (c : Conductor σ β) {id : PointId} (hid : c.points.Has id)
    (period : Float) : c.restart id (.recurring period) = (c.clearPoint id).2 := by
  simp only [restart, clearPoint, Points.resetSubtree_ok hid]

/-- Starting over a point before it takes a beat. -/
theorem change_restart (c : Conductor σ β) (hlinked : c.points.Linked) {id : PointId}
    {node : PointNode (Action β)} (hnode : c.points.node? id = some node) :
    Change c (c.restart id node.kind)
      (fun q => (∃ period, c.points.Recurs id period) ∧ c.points.DerivesFrom q id) [] := by
  have hid := Points.has_of_node? hnode
  have hrecurs (period : Float) : c.points.Recurs id period ↔ node.kind = .recurring period := by
    constructor
    · rintro ⟨node', hnode', hkind⟩
      rw [hnode] at hnode'
      cases hnode'
      exact hkind
    · exact fun hkind => ⟨node, hnode, hkind⟩
  have hsame (h : ∀ period, node.kind ≠ .recurring period)
      (hrestart : c.restart id node.kind = c) :
      Change c (c.restart id node.kind)
        (fun q => (∃ period, c.points.Recurs id period) ∧ c.points.DerivesFrom q id) [] := by
    rw [hrestart]
    refine (Change.of_eq rfl rfl).congr fun q _ => ⟨False.elim, ?_⟩
    rintro ⟨⟨period, hr⟩, -⟩
    exact h period ((hrecurs period).mp hr)
  -- Only a recurring point is started over.
  cases hkind : node.kind with
  | oneShot => exact hkind ▸ hsame (by simp [hkind]) (by rw [hkind]; rfl)
  | persistent => exact hkind ▸ hsame (by simp [hkind]) (by rw [hkind]; rfl)
  | derived => exact hkind ▸ hsame (by simp [hkind]) (by rw [hkind]; rfl)
  | recurring period =>
    rw [restart_recurring c hid period]
    refine (c.change_clearPoint hlinked id).congr fun q _ => ?_
    exact ⟨fun hd => ⟨⟨period, (hrecurs period).mpr hkind⟩, hd⟩, And.right⟩

/-- Starting a point over leaves alone what does not derive from it. -/
theorem node?_restart (c : Conductor σ β) (hlinked : c.points.Linked) {id : PointId}
    (hid : c.points.Has id) (kind : PointKind) {q : PointId} (hq : ¬ c.points.DerivesFrom q id) :
    (c.restart id kind).points.node? q = c.points.node? q := by
  cases kind with
  | recurring period =>
    rw [c.restart_recurring hid, c.node?_clearPoint_eq hid,
      if_neg fun hmem => hq ((Points.mem_subtree_iff hlinked hid q).mp hmem)]
  | _ => rfl

/-- The resolution of a point after it was started over. -/
theorem restart_resolves (c : Conductor σ β) (hlinked : c.points.Linked) {id : PointId}
    {node : PointNode (Action β)} (hnode : c.points.node? id = some node) {beat : Float}
    (hbeat : beat.isFinite = true) :
    ∃ others, (c.restart id node.kind).points.ResolvesTo id beat
      ((c.restart id node.kind).points.resolve id beat) others := by
  have hchange := c.change_restart hlinked hnode
  exact Points.resolve_spec (hchange.points.linked hlinked)
    (hchange.points.has (Points.has_of_node? hnode)) hbeat

/-- A clock that queues what a resolution at a finite beat asks for. -/
structure Enqueues (c c' : Conductor σ β) (id : PointId) (beat : Float)
    (others : List (PointEntry (Action β))) : Prop where
  /-- The resolution. -/
  resolves : c.points.ResolvesTo id beat (c.points.resolve id beat) others
  /-- The points are those that it leaves. -/
  points : c'.points = (c.points.resolve id beat).points
  /-- What it asks for is queued. -/
  queue : c.queue.Evolves c'.queue (fun _ => false)
    (Request.entries c.queue.submitted
      (resolutionRequests id ⟨c.points.wants id beat ++ others, c.points.rearmAfter id beat⟩))
  /-- The playhead stays where it is. -/
  playhead : c'.playhead = c.playhead

/-- Queuing what a resolution asks for. -/
theorem enqueues_of_resolves {c c' : Conductor σ β} {id : PointId} {beat : Float}
    {others : List (PointEntry (Action β))}
    (h : c.points.ResolvesTo id beat (c.points.resolve id beat) others)
    (hqueue : c'.queue = c.queue) (hpoints : c'.points = (c.points.resolve id beat).points)
    (hplayhead : c'.playhead = c.playhead) :
    c.Enqueues (c'.enqueue id ⟨c.points.wants id beat ++ others, c.points.rearmAfter id beat⟩)
      id beat others := by
  obtain ⟨hp, hh, hq⟩ := c'.submitBatch_spec
    (batchOf id ⟨c.points.wants id beat ++ others, c.points.rearmAfter id beat⟩)
  rw [hqueue] at hq
  exact ⟨h, hp.trans hpoints, hq, hh.trans hplayhead⟩

/-- Queuing what a resolution asks for resets nothing. -/
theorem Enqueues.change {c c' : Conductor σ β} {id : PointId} {beat : Float}
    {others : List (PointEntry (Action β))} (hbeat : beat.isFinite = true)
    (h : c.Enqueues c' id beat others) :
    Change c c' (fun _ => False)
      (resolutionRequests id
        ⟨c.points.wants id beat ++ others, c.points.rearmAfter id beat⟩) where
  queue := ⟨_, h.queue⟩
  points := h.points ▸ Points.advances_of_still h.resolves.keeps
  backed := by
    intro request hrequest
    obtain ⟨-, -, -, hbacked⟩ := derivesFrom_of_mem_resolutionRequests hbeat h.resolves hrequest
    rw [h.points]
    refine ⟨fun token htoken => ?_, fun token beat htask => ?_⟩
    · obtain ⟨hlive, howner⟩ := hbacked.token token htoken
      exact ⟨Points.isLive_of_keeps h.resolves.keeps hlive, howner⟩
    · obtain ⟨hdue, period, hrecurs⟩ := hbacked.rearm token beat htask
      exact ⟨hdue, period, (Points.advances_of_still h.resolves.keeps).recurs hrecurs⟩

/-- Binding a point at a finite beat resolves it, unless it has its only beat. -/
theorem bind_eq_enqueue {c : Conductor σ β} {id : PointId} {beat : Float}
    {node : PointNode (Action β)} {others : List (PointEntry (Action β))}
    (hnode : c.points.node? id = some node) (hbeat : beat.isFinite = true)
    (hfree : ¬ (node.rebindable = false ∧ node.beat.isSome))
    (hresolves : (c.restart id node.kind).points.ResolvesTo id beat
      ((c.restart id node.kind).points.resolve id beat) others) :
    (c.bind id beat).2 =
      (((c.restart id node.kind).adoptResolved
        ((c.restart id node.kind).points.resolve id beat)).say .debug
          (s!"Point {id.text} bound to beat {Number.fixed 3 beat}, queuing "
            ++ s!"{((c.restart id node.kind).points.wants id beat ++ others).length} actions")
        ).enqueue id ⟨(c.restart id node.kind).points.wants id beat ++ others,
          (c.restart id node.kind).points.rearmAfter id beat⟩ := by
  unfold bind checkBeat
  simp only [hbeat, if_true, hnode]
  split
  · rename_i current hre hcurrent
    exact absurd ⟨hre, by rw [hcurrent]; rfl⟩ hfree
  · simp only [hresolves.outcome]

/-- Such a bind starts the point over and queues what its resolution asks for. -/
theorem enqueues_bind (c : Conductor σ β) (hlinked : c.points.Linked) {id : PointId} {beat : Float}
    {node : PointNode (Action β)} (hnode : c.points.node? id = some node)
    (hbeat : beat.isFinite = true) (hfree : ¬ (node.rebindable = false ∧ node.beat.isSome)) :
    ∃ others, (c.restart id node.kind).Enqueues (c.bind id beat).2 id beat others := by
  obtain ⟨others, hresolves⟩ := c.restart_resolves hlinked hnode hbeat
  refine ⟨others, ?_⟩
  rw [bind_eq_enqueue hnode hbeat hfree hresolves]
  exact enqueues_of_resolves hresolves rfl rfl rfl

/-- Binding a point either changes nothing, because the beat is not finite or the point has its only
beat, or starts the point over and resolves it. A recurring point never refuses a finite beat, and a point
that takes only one beat has none when it is resolved. -/
theorem bind_cases (c : Conductor σ β) (hlinked : c.points.Linked) (id : PointId) (beat : Float) :
    ((c.bind id beat).2 = c ∧
        ¬ (beat.isFinite = true ∧ ∃ period, c.points.Recurs id period)) ∨
      ∃ node others, c.points.node? id = some node ∧ beat.isFinite = true ∧
        (c.restart id node.kind).Enqueues (c.bind id beat).2 id beat others ∧
        (node.rebindable = false → node.beat = none) := by
  cases hbeat : beat.isFinite with
  | false =>
    left
    refine ⟨?_, by simp⟩
    simp [bind, checkBeat, hbeat]
  | true =>
    cases hnode : c.points.node? id with
    | none =>
      left
      refine ⟨by simp [bind, checkBeat, hbeat, hnode], ?_⟩
      rintro ⟨-, period, node, hnode', -⟩
      rw [hnode] at hnode'
      cases hnode'
    | some node =>
      by_cases hfree : node.rebindable = false ∧ node.beat.isSome
      · left
        obtain ⟨hre, hsome⟩ := hfree
        obtain ⟨current, hcurrent⟩ := Option.isSome_iff_exists.mp hsome
        refine ⟨by simp [bind, checkBeat, hbeat, hnode, hre, hcurrent], ?_⟩
        -- A recurring point is rebindable, so this is none.
        rintro ⟨-, period, node', hnode', hkind⟩
        rw [hnode] at hnode'
        cases hnode'
        rw [(hlinked.recurring hnode hkind).2] at hre
        cases hre
      · right
        obtain ⟨others, henqueues⟩ := c.enqueues_bind hlinked hnode hbeat hfree
        refine ⟨node, others, rfl, rfl, henqueues, fun hre => ?_⟩
        exact Option.not_isSome_iff_eq_none.mp fun hsome => hfree ⟨hre, hsome⟩

/-- What binding a point resets: a recurring one with what derives from it. -/
def BindResets (c : Conductor σ β) (id : PointId) (beat : Float) (q : PointId) : Prop :=
  beat.isFinite = true ∧ (∃ period, c.points.Recurs id period) ∧ c.points.DerivesFrom q id

/-- Starting a point over and queuing what its resolution asks for. -/
theorem change_bind_of_enqueues {c : Conductor σ β} (hlinked : c.points.Linked) {id : PointId}
    {beat : Float} {node : PointNode (Action β)} (hnode : c.points.node? id = some node)
    (hbeat : beat.isFinite = true) {others : List (PointEntry (Action β))}
    (henqueues : (c.restart id node.kind).Enqueues (c.bind id beat).2 id beat others) :
    Change c (c.bind id beat).2 (c.BindResets id beat)
      (resolutionRequests id ⟨(c.restart id node.kind).points.wants id beat ++ others,
        (c.restart id node.kind).points.rearmAfter id beat⟩) := by
  refine ((c.change_restart hlinked hnode).trans (henqueues.change hbeat)).congr fun q _ => ?_
  exact ⟨fun h => ⟨hbeat, h⟩, And.right⟩

/-- A bind that is refused requests nothing, and any other requests what the resolution asks for. -/
theorem change_bind_cases (c : Conductor σ β) (hlinked : c.points.Linked) (id : PointId)
    (beat : Float) :
    ((c.bind id beat).2 = c ∧ Change c (c.bind id beat).2 (c.BindResets id beat) []) ∨
      ∃ node others, c.points.node? id = some node ∧ beat.isFinite = true ∧
        (c.restart id node.kind).Enqueues (c.bind id beat).2 id beat others ∧
        (node.rebindable = false → node.beat = none) ∧
        Change c (c.bind id beat).2 (c.BindResets id beat)
          (resolutionRequests id ⟨(c.restart id node.kind).points.wants id beat ++ others,
            (c.restart id node.kind).points.rearmAfter id beat⟩) := by
  rcases c.bind_cases hlinked id beat with
    ⟨heq, hnot⟩ | ⟨node, others, hnode, hbeat, henqueues, hfree⟩
  · refine .inl ⟨heq, ?_⟩
    rw [heq]
    refine (Change.of_eq rfl rfl).congr fun q _ => ⟨False.elim, ?_⟩
    rintro ⟨hbeat, hrecurs, -⟩
    exact hnot ⟨hbeat, hrecurs⟩
  · exact .inr ⟨node, others, hnode, hbeat, henqueues, hfree,
      change_bind_of_enqueues hlinked hnode hbeat henqueues⟩

/-- Binding a point resets it with what derives from it if it is recurring, and nothing else. -/
theorem change_bind (c : Conductor σ β) (hlinked : c.points.Linked) (id : PointId)
    (beat : Float) :
    ∃ requests, Change c (c.bind id beat).2 (c.BindResets id beat) requests ∧
      ∀ r ∈ requests, r.Quiet c.points (c.BindResets id beat) := by
  rcases c.change_bind_cases hlinked id beat with
    ⟨-, hchange⟩ | ⟨node, others, hnode, hbeat, henqueues, -, hchange⟩
  · exact ⟨[], hchange, by simp⟩
  · refine ⟨_, hchange, ?_⟩
    have hrestart := c.change_restart hlinked hnode
    -- A recurring point derives only from itself, so it is the one that was bound.
    intro r hr token node' period htoken hnode' hkind
    obtain ⟨token', htoken', hderives, -⟩ :=
      derivesFrom_of_mem_resolutionRequests hbeat henqueues.resolves hr
    rw [htoken] at htoken'
    cases htoken'
    obtain ⟨node'', hnode'', hgrows, -⟩ := hrestart.points.node hnode'
    have heq := Points.eq_of_derivesFrom_of_recurs (hrestart.points.linked hlinked)
      ⟨node'', hnode'', hgrows.kind.trans hkind⟩ hderives
    rw [heq] at hnode' ⊢
    exact ⟨hbeat, ⟨period, node', hnode', hkind⟩, .refl⟩

/-- Moving a point on with a live token resolves it. -/
theorem enqueues_rearm (c : Conductor σ β) (hlinked : c.points.Linked) {token : Token}
    (hlive : c.points.isLive token = true) {beat : Float} (hbeat : beat.isFinite = true) :
    ∃ others, c.Enqueues (c.rearm token beat) token.point beat others := by
  obtain ⟨node, hnode, -⟩ := Points.isLive_iff.mp hlive
  obtain ⟨others, hresolves⟩ :=
    Points.resolve_spec hlinked (Points.has_of_node? hnode) hbeat
  refine ⟨others, ?_⟩
  have hrearm : c.rearm token beat =
      (c.adoptResolved (c.points.resolve token.point beat)).enqueue token.point
        ⟨c.points.wants token.point beat ++ others, c.points.rearmAfter token.point beat⟩ := by
    unfold rearm
    rw [Points.rearm_of_isLive hlive]
    simp only [hresolves.outcome]
  rw [hrearm]
  exact enqueues_of_resolves hresolves rfl rfl rfl

/-! ## Attaching actions -/

/-- What attaching an action requests: the action at the beat of the point, if the point has a
finite one that still counts. -/
def attachRequests (c : Conductor σ β) (id : PointId) (action : Action β) : List (Request β) :=
  match (c.points.addAction id action c.now).1 with
  | .ok (some entry) => batchRequests [(entry.beat, .actFor entry.token entry.action, id)]
  | _ => []

/-- Attaching an action requests nothing but the entry that is wanted at once. -/
theorem mem_attachRequests {c : Conductor σ β} {id : PointId} {action : Action β} {r : Request β}
    (hr : r ∈ c.attachRequests id action) :
    ∃ entry, (c.points.addAction id action c.now).1 = .ok (some entry) ∧
      r = batchRequest (entry.beat, .actFor entry.token entry.action, id) := by
  unfold attachRequests at hr
  split at hr
  · rename_i entry hanswer
    obtain ⟨b, hb, rfl⟩ := List.mem_map.mp hr
    cases List.mem_singleton.mp (List.mem_filter.mp hb).1
    exact ⟨entry, hanswer, rfl⟩
  · cases hr

/-- An action is wanted at once only with the token of its point. -/
theorem addAction_eq_some {ps : Points (Action β)} {id : PointId} {action : Action β} {now : Float}
    {entry : PointEntry (Action β)} (h : (ps.addAction id action now).1 = .ok (some entry)) :
    ∃ node, ps.node? id = some node ∧ node.beat = some entry.beat ∧
      entry.token = ⟨id, node.generation⟩ ∧ entry.action = action := by
  unfold Points.addAction at h
  cases hnode : ps.node? id with
  | none => simp [Points.find, hnode] at h
  | some node =>
    rw [Points.find_of_node? hnode] at h
    cases hbeat : node.beat with
    | none => simp [hbeat] at h
    | some beat =>
      simp only [hbeat] at h
      split_ifs at h
      · cases h
      · obtain rfl := Option.some.inj (Except.ok.inj h)
        exact ⟨node, rfl, hbeat, rfl, rfl⟩

/-- Attaching an action to a point, with what is queued at once. -/
theorem addAction_eq (c : Conductor σ β) (id : PointId) (action : Action β) :
    c.addAction id action =
      match (c.points.addAction id action c.now).1 with
      | .ok (some entry) =>
        ({ c with points := (c.points.addAction id action c.now).2 } : Conductor σ β).submitBatch
          [(entry.beat, .actFor entry.token entry.action, id)]
      | _ => { c with points := (c.points.addAction id action c.now).2 } := by
  unfold addAction
  rcases c.points.addAction id action c.now with ⟨_ | _ | _, points⟩ <;> rfl

/-- Attaching an action queues what it requests. -/
theorem addAction_spec (c : Conductor σ β) (id : PointId) (action : Action β) :
    (c.addAction id action).points = (c.points.addAction id action c.now).2 ∧
      c.queue.Evolves (c.addAction id action).queue (fun _ => false)
        (Request.entries c.queue.submitted (c.attachRequests id action)) := by
  rw [addAction_eq, attachRequests]
  rcases (c.points.addAction id action c.now).1 with missing | _ | entry
  · exact ⟨rfl, .refl _⟩
  · exact ⟨rfl, .refl _⟩
  · obtain ⟨hp, -, hq⟩ :=
      ({ c with points := (c.points.addAction id action c.now).2 } : Conductor σ β).submitBatch_spec
        [(entry.beat, .actFor entry.token entry.action, id)]
    exact ⟨hp, hq⟩

/-- Attaching an action resets nothing. -/
theorem change_addAction (c : Conductor σ β) (id : PointId) (action : Action β) :
    Change c (c.addAction id action) (fun _ => False) (c.attachRequests id action) := by
  have hadvances := Points.advances_addAction c.points id action c.now
  obtain ⟨hpoints, hqueue⟩ := c.addAction_spec id action
  refine ⟨⟨_, hqueue⟩, hpoints ▸ hadvances, fun r hr => ?_⟩
  obtain ⟨entry, hanswer, rfl⟩ := mem_attachRequests hr
  obtain ⟨node, hnode, -, hentry, -⟩ := addAction_eq_some hanswer
  refine ⟨fun token htoken => ?_, fun token beat htask => by cases htask⟩
  cases htoken
  rw [hpoints, hentry]
  -- The action is attached in the generation that the point is in.
  obtain ⟨node', hnode', -, -, hgen⟩ := hadvances.node hnode
  exact ⟨Points.isLive_iff.mpr ⟨node', hnode', hgen not_false⟩, rfl⟩

end Conductor

end Cadence
