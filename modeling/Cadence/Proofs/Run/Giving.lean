import Mathlib
import Cadence.Proofs.Point.OneBeat
import Cadence.Proofs.Run.Effect

/-!
# What a step makes of beats

A point takes a beat when it is bound and does not refuse it, and when it recurs and moves on. What
derives from it is computed again then, and the actions of every point that took a beat are queued there.
Nothing else gives a beat to a point that was created before.

- `Settles` says what becomes of the beats of all points when a point takes a beat, or when none does,
  and what is asked for each of them;
- `Operation.settles` proves it for each operation, and `Step.settles` for each step.
-/

namespace Cadence

variable {σ β : Type}

/-! ## What is asked for a point -/

/-- The beat and the action of a task that runs an action for the point. -/
def Task.deedOf? (p : PointId) (task : Task β) (due : Float) : Option (Float × Action β) :=
  match task with
  | .actFor token action => if token.point = p then some (due, action) else none
  | _ => none

/-- Requests without a token of the point ask nothing for it. -/
theorem asked_deedOf?_eq_nil {p : PointId} {rs : List (Request β)}
    (h : ∀ r ∈ rs, ∀ token, r.task.token? = some token → token.point ≠ p) :
    asked (Task.deedOf? p) rs = [] := by
  refine List.filterMap_eq_nil_iff.mpr fun r hr => ?_
  cases htask : r.task with
  | actFor token action => exact if_neg (h r hr token (by rw [htask]; rfl))
  | _ => rfl

/-- Requests without any token ask nothing for a point. -/
theorem asked_deedOf?_of_token? (p : PointId) {rs : List (Request β)}
    (h : ∀ r ∈ rs, r.task.token? = none) : asked (Task.deedOf? p) rs = [] :=
  asked_deedOf?_eq_nil fun r hr _ htoken => nomatch (h r hr).symm.trans htoken

/-- A resolution asks for a point what its entries say. -/
theorem asked_deedOf?_resolutionRequests (root : PointId) {r : Resolution (Action β)}
    (hfinite : ∀ e ∈ r.entries, e.beat.isFinite = true) (p : PointId) :
    asked (Task.deedOf? p) (Conductor.resolutionRequests root r) =
      r.entries.filterMap (·.deedOf? p) := by
  have hentries : ((r.entries.map fun e =>
      (e.beat, (.actFor e.token e.action : Task β), e.token.point)).filter (·.1.isFinite)).filterMap
        (fun b => Task.deedOf? p b.2.1 b.1) = r.entries.filterMap (·.deedOf? p) := by
    rw [List.filter_eq_self.mpr, List.filterMap_map]
    · rfl
    · intro b hb
      obtain ⟨e, he, rfl⟩ := List.mem_map.mp hb
      exact hfinite e he
  rw [Conductor.resolutionRequests, Conductor.asked_batchRequests, Conductor.finiteOf,
    Conductor.batchOf]
  cases r.rearm with
  | none => exact hentries
  | some next =>
    simp only [List.filter_append, List.filterMap_append, hentries]
    -- The next beat of a recurring point runs no action.
    have hnext : (([(next.1, (.rearm next.2 next.1 : Task β), root)]).filter (·.1.isFinite)).filterMap
        (fun b => Task.deedOf? p b.2.1 b.1) = [] := by
      refine List.filterMap_eq_nil_iff.mpr fun b hb => ?_
      rw [List.mem_singleton.mp (List.mem_filter.mp hb).1]
      rfl
    rw [hnext, List.append_nil]

namespace Points

/-- The actions that are attached to a point. -/
def actionsOf {α : Type} (ps : Points α) (q : PointId) : List α := (ps.node? q).elim [] (·.actions)

theorem actionsOf_of_node? {α : Type} {ps : Points α} {q : PointId} {node : PointNode α}
    (h : ps.node? q = some node) : ps.actionsOf q = node.actions := by
  rw [actionsOf, h, Option.elim_some]

theorem actionsOf_congr {α : Type} {ps ps' : Points α} {q : PointId}
    (h : (ps'.node? q).map (·.actions) = (ps.node? q).map (·.actions)) :
    ps'.actionsOf q = ps.actionsOf q :=
  elim_node?_congr h []

namespace Spreads

variable {α : Type} {ps ps' : Points α} {root : PointId} {beat : Float}
  {given : PointId → Option Float}

/-- What is asked for a point is its actions, at the beat that it was given. -/
theorem filterMap_wantsAll (h : ps.Spreads ps' root beat given) (q : PointId) :
    (ps.wantsAll given (ps.subtree root)).filterMap (·.deedOf? q) =
      if q ∈ ps.subtree root then duesAt (given q) (ps.actionsOf q) else [] := by
  rw [Points.filterMap_wantsAll ps given (ps.subtree_nodup root)]
  split_ifs
  · cases hgiven : given q with
    | none => rfl
    | some value =>
      rw [duesAt_some (h.finite q value hgiven), Option.elim_some, actionsOf]
      cases ps.node? q <;> rfl
  · rfl

end Spreads

end Points

namespace Conductor

variable {c c' : Conductor σ β}

/-- A resolution asks for the actions of every point that took a beat. -/
theorem Enqueues.spreads {root : PointId} {beat : Float} {others : List (PointEntry (Action β))}
    (h : c.Enqueues c' root beat others) (hlinked : c.points.Linked) (hroot : c.points.Has root)
    (hbeat : beat.isFinite = true) :
    ∃ given, c.points.Spreads c'.points root beat given ∧
      ∀ q, asked (Task.deedOf? q) (resolutionRequests root
          ⟨c.points.wants root beat ++ others, c.points.rearmAfter root beat⟩) =
        (c.points.wantsAll given (c.points.subtree root)).filterMap (·.deedOf? q) := by
  obtain ⟨given, hspreads, houtcome⟩ := Points.resolve_spreads hlinked hroot hbeat
  -- The two accounts of the resolution list the same entries.
  have hentries : c.points.wants root beat ++ others =
      c.points.wantsAll given (c.points.subtree root) :=
    congrArg Resolution.entries (Except.ok.inj (h.resolves.outcome.symm.trans houtcome))
  refine ⟨given, h.points ▸ hspreads, fun q => ?_⟩
  rw [asked_deedOf?_resolutionRequests, hentries]
  intro e he
  obtain ⟨q, -, value, hgiven, he⟩ := Points.mem_wantsAll (hentries ▸ he)
  exact (Points.wanted_of_mem_wants (hspreads.finite q value hgiven) he).1.finite

/-- Attaching an action to a point asks nothing for another one. -/
theorem asked_deedOf?_attachRequests_of_ne {id q : PointId} (action : Action β) (hq : q ≠ id) :
    asked (Task.deedOf? q) (c.attachRequests id action) = [] := by
  refine asked_deedOf?_eq_nil fun r hr token htoken => ?_
  obtain ⟨entry, hanswer, rfl⟩ := mem_attachRequests hr
  cases htoken
  obtain ⟨_, -, -, hentry, -⟩ := addAction_eq_some hanswer
  rw [hentry]
  exact hq.symm

/-- Attaching an action to a point without a beat asks nothing. -/
theorem attachRequests_of_beat? {id : PointId} (action : Action β) (h : c.points.beat? id = none) :
    c.attachRequests id action = [] := by
  refine List.eq_nil_iff_forall_not_mem.mpr fun r hr => ?_
  obtain ⟨entry, hanswer, -⟩ := mem_attachRequests hr
  obtain ⟨node, hnode, hbeat, -⟩ := addAction_eq_some hanswer
  rw [Points.beat?, hnode, Option.bind_some, hbeat] at h
  cases h

/-! ## Points that take a beat -/

/-- The point was created, and takes the beat that it is bound to. -/
def accepts (c : Conductor σ β) (id : PointId) (beat : Float) : Bool :=
  (c.bind id beat).1.isOk && (c.points.node? id).isSome

/-- A point that was created takes a finite beat, unless it takes one only and has it. -/
theorem accepts_iff {id : PointId} {beat : Float} {node : PointNode (Action β)}
    (hnode : c.points.node? id = some node) :
    c.accepts id beat = true ↔
      beat.isFinite = true ∧ ¬ (node.rebindable = false ∧ node.beat.isSome) := by
  unfold accepts bind checkBeat
  cases hbeat : beat.isFinite with
  | false => simp [Except.isOk, Except.toBool]
  | true =>
    simp only [hnode, if_true, Option.isSome_some, Bool.and_true, true_and]
    split
    · rename_i hre hsome
      simp [hre, hsome, Except.isOk, Except.toBool]
    · rename_i hfree
      refine iff_of_true (by split <;> rfl) fun ⟨hre, hsome⟩ => ?_
      obtain ⟨current, hcurrent⟩ := Option.isSome_iff_exists.mp hsome
      exact hfree current hre hcurrent

/-- A bind that resets points is taken: a recurring point takes every finite beat. -/
theorem accepts_of_bindResets (hlinked : c.points.Linked) {id : PointId} {beat : Float}
    {q : PointId} (h : c.BindResets id beat q) : c.accepts id beat = true := by
  obtain ⟨hbeat, ⟨period, node, hnode, hkind⟩, -⟩ := h
  have hre := (hlinked.recurring hnode hkind).2
  exact (accepts_iff hnode).mpr ⟨hbeat, fun hfree => nomatch hre.symm.trans hfree.1⟩

/-- A point that does not take the beat stays as it is, and so does everything else. -/
theorem bind_of_not_accepts {id : PointId} {beat : Float} (h : c.accepts id beat = false) :
    (c.bind id beat).2 = c := by
  cases hnode : c.points.node? id with
  | none =>
    unfold bind checkBeat
    split_ifs <;> simp [hnode]
  | some node =>
    have hnot := mt (accepts_iff hnode).mpr (Bool.eq_false_iff.mp h)
    unfold bind checkBeat
    split_ifs with hbeat
    · have hfree := not_not.mp fun hfree => hnot ⟨hbeat, hfree⟩
      obtain ⟨current, hcurrent⟩ := Option.isSome_iff_exists.mp hfree.2
      simp [hnode, hfree.1, hcurrent]
    · rfl

/-- A point that takes the beat is started over and resolved. -/
theorem bind_of_accepts (hlinked : c.points.Linked) {id : PointId} {beat : Float}
    (h : c.accepts id beat = true) :
    ∃ node others, c.points.node? id = some node ∧ beat.isFinite = true ∧
      (c.restart id node.kind).Enqueues (c.bind id beat).2 id beat others := by
  obtain ⟨node, hnode⟩ := Option.isSome_iff_exists.mp ((Bool.and_eq_true _ _).mp h).2
  obtain ⟨hbeat, hfree⟩ := (accepts_iff hnode).mp h
  obtain ⟨others, henqueues⟩ := c.enqueues_bind hlinked hnode hbeat hfree
  exact ⟨node, others, hnode, hbeat, henqueues⟩

/-- Starting a point over changes neither derivations nor what is attached. -/
theorem keeps_restart (c : Conductor σ β) {id : PointId} (hid : c.points.Has id)
    (kind : PointKind) :
    Points.Keeps (fun node => (node.derivation, node.actions)) c.points
      (c.restart id kind).points := by
  cases kind with
  | recurring period =>
    intro q
    rw [c.restart_recurring hid, c.node?_clearPoint_eq hid]
    split_ifs
    · rw [Option.map_map]
      rfl
    · rfl
  | _ => exact .refl _

end Conductor

/-! ## What becomes of beats -/

/-- A point derives from none that is given a beat. -/
def Points.Apart (ps : Points (Action β)) (given : Option (PointId × Float)) (q : PointId) : Prop :=
  ∀ root beat, given = some (root, beat) → ¬ ps.DerivesFrom q root

/-- What becomes of the beats of points when one is given a beat, or none is, and what is asked for each of
them then. -/
structure Settles (ps ps' : Points (Action β)) (resets : PointId → Prop)
    (given : Option (PointId × Float)) (added : PointId → List (Action β))
    (attached : PointId → List (Float × Action β)) (requests : List (Request β)) : Prop where
  /-- Actions stay attached, and at most one is added. -/
  actions : ∀ q, ps.Has q → ps'.actionsOf q = ps.actionsOf q ++ added q
  /-- The beat is finite. -/
  finite : ∀ root beat, given = some (root, beat) → beat.isFinite = true
  /-- What derives from the point has the value that it has then, if that is finite, and its actions are
  asked for there. -/
  within : ∀ root beat, given = some (root, beat) → ∀ q, ps.DerivesFrom q root →
    ps'.beat? q = (ps'.valueFrom root beat q).filter (·.isFinite) ∧
      asked (Task.deedOf? q) requests = duesAt (ps'.beat? q) (ps.actionsOf q)
  /-- Any other point keeps its beat, and at most an action that is attached is asked for. -/
  beyond : ∀ q, ps.Has q → ps.Apart given q → ¬ resets q →
    ps'.beat? q = ps.beat? q ∧ asked (Task.deedOf? q) requests = attached q
  /-- Or it is reset, and has no beat. -/
  swept : ∀ q, ps.Has q → ps.Apart given q → resets q →
    ps'.beat? q = none ∧ asked (Task.deedOf? q) requests = []
  /-- A point that is created has the value of its derivation, and nothing is asked for it. -/
  created : ∀ q node, ¬ ps.Has q → ps'.node? q = some node →
    (∀ period, node.kind ≠ .recurring period) →
      node.beat = node.derivation.bind ps'.amount ∧ asked (Task.deedOf? q) requests = []

namespace Settles

variable {ps ps' : Points (Action β)} {resets : PointId → Prop} {requests : List (Request β)}

/-- Nothing is asked for. -/
theorem silent (hactions : ∀ q, ps.Has q → ps'.actionsOf q = ps.actionsOf q)
    (hkept : ∀ q, ps.Has q → ¬ resets q → ps'.beat? q = ps.beat? q)
    (hswept : ∀ q, ps.Has q → resets q → ps'.beat? q = none)
    (hcreated : ∀ q node, ¬ ps.Has q → ps'.node? q = some node →
      node.beat = node.derivation.bind ps'.amount) :
    Settles ps ps' resets none (fun _ => []) (fun _ => []) [] where
  actions := fun q hq => (hactions q hq).trans (List.append_nil _).symm
  finite := by simp
  within := by simp
  beyond := fun q hq _ hreset => ⟨hkept q hq hreset, rfl⟩
  swept := fun q hq _ hreset => ⟨hswept q hq hreset, rfl⟩
  created := fun q node hq hnode _ => ⟨hcreated q node hq hnode, rfl⟩

/-- Points stay as they are, and nothing is asked for them. -/
theorem of_eq (heq : ps' = ps) (hresets : ∀ q, ¬ resets q)
    (hnone : ∀ r ∈ requests, r.task.token? = none) :
    Settles ps ps' resets none (fun _ => []) (fun _ => []) requests where
  actions := fun q _ => by rw [heq, List.append_nil]
  finite := by simp
  within := by simp
  beyond := fun q _ _ _ => ⟨by rw [heq], asked_deedOf?_of_token? q hnone⟩
  swept := fun q _ _ hreset => absurd hreset (hresets q)
  created := by
    intro q node hq hnode
    rw [heq] at hnode
    exact absurd (Points.has_of_node? hnode) hq

/-- All points are reset. -/
theorem resetAll (ps : Points (Action β)) (hresets : ∀ q, resets q) :
    Settles ps ps.resetAll resets none (fun _ => []) (fun _ => []) [] := by
  refine silent (fun q _ => ?_) (fun q _ hnot => absurd (hresets q) hnot) (fun q _ _ => ?_)
    fun q node hq hnode => ?_
  · rw [Points.actionsOf, Points.node?_resetAll, Points.actionsOf]
    cases ps.node? q <;> rfl
  · rw [Points.beat?, Points.node?_resetAll, Option.bind_map]
    cases ps.node? q <;> rfl
  · rw [Points.node?_resetAll] at hnode
    obtain ⟨node, hold, -⟩ := Option.map_eq_some_iff.mp hnode
    exact absurd (Points.has_of_node? hold) hq

end Settles

namespace Conductor

variable {c c' : Conductor σ β}

/-- A resolution gives the root the beat, and computes again what derives from it. -/
theorem Enqueues.settles {root : PointId} {beat : Float} {others : List (PointEntry (Action β))}
    (h : c.Enqueues c' root beat others) (hlinked : c.points.Linked) (hroot : c.points.Has root)
    (hbeat : beat.isFinite = true) :
    Settles c.points c'.points (fun _ => False) (some (root, beat)) (fun _ => []) (fun _ => [])
      (resolutionRequests root
        ⟨c.points.wants root beat ++ others, c.points.rearmAfter root beat⟩) := by
  -- What the walk gave is known for each point, and so is what was asked for it.
  obtain ⟨given, hspreads, hasked⟩ := h.spreads hlinked hroot hbeat
  have hmem := Points.mem_subtree_iff hlinked hroot
  have hdues (q : PointId) := (hasked q).trans (hspreads.filterMap_wantsAll q)
  refine ⟨fun q _ => ?_, ?_, ?_, fun q _ hq _ => ⟨?_, ?_⟩, fun _ _ _ => False.elim,
    fun q node hq hnode _ => ?_⟩
  · rw [Points.actionsOf_congr (hspreads.keeps.comp (·.actions) q), List.append_nil]
  · rintro _ _ ⟨⟩
    exact hbeat
  · rintro _ _ ⟨⟩ q hq
    rw [hdues, if_pos ((hmem q).mpr hq), hspreads.beat?_eq hroot hq]
    exact ⟨hspreads.computed q hq, rfl⟩
  · rw [Points.beat?, hspreads.beyond q (hq root beat rfl), Points.beat?]
  · rw [hdues, if_neg (mt (hmem q).mp (hq root beat rfl))]
  · exact absurd ((hspreads.keeps.has_iff q).mp (Points.has_of_node? hnode)) hq

/-- Binding a point that accepts the beat resolves it, after it was started over if it recurs. -/
theorem settles_bind (hlinked : c.points.Linked) (id : PointId) (beat : Float) :
    ∃ requests, Change c (c.bind id beat).2 (c.BindResets id beat) requests ∧
      Settles c.points (c.bind id beat).2.points (c.BindResets id beat)
        (if c.accepts id beat then some (id, beat) else none) (fun _ => []) (fun _ => [])
        requests := by
  cases haccepts : c.accepts id beat with
  | false =>
    have hsame := bind_of_not_accepts haccepts
    have hresets (q : PointId) : ¬ c.BindResets id beat q := fun hreset =>
      Bool.eq_false_iff.mp haccepts (accepts_of_bindResets hlinked hreset)
    refine ⟨[], ?_, .of_eq (by rw [hsame]) hresets (by simp)⟩
    rw [hsame]
    exact (Change.of_eq rfl rfl).congr fun q _ => ⟨False.elim, hresets q⟩
  | true =>
    obtain ⟨node, others, hnode, hbeat, henqueues⟩ := bind_of_accepts hlinked haccepts
    have hid := Points.has_of_node? hnode
    have hrestart := (c.change_restart hlinked hnode).points
    have hkeeps := c.keeps_restart hid node.kind
    have hderives (q : PointId) := (hkeeps.comp Prod.fst).derivesFrom_iff q id
    -- Starting over leaves derivations and actions alone, so what the resolution makes of the beats, the
    -- bind makes of them.
    have hsettles := henqueues.settles (hrestart.linked hlinked) (hrestart.has hid) hbeat
    refine ⟨_, change_bind_of_enqueues hlinked hnode hbeat henqueues, fun q hq => ?_,
      hsettles.finite, ?_,
      fun q hq hapart _ => ?_, fun q _ hapart hreset => absurd hreset.2.2 (hapart id beat rfl),
      fun q node hq => ?_⟩
    · rw [hsettles.actions q ((hkeeps.has_iff q).mpr hq), Points.actionsOf_congr (hkeeps.comp Prod.snd q)]
    · rintro _ _ ⟨⟩ q hq
      rw [← Points.actionsOf_congr (hkeeps.comp Prod.snd q)]
      exact hsettles.within id beat rfl q ((hderives q).mpr hq)
    · have hnot := hapart id beat rfl
      have hsame : (c.restart id node.kind).points.beat? q = c.points.beat? q := by
        rw [Points.beat?, c.node?_restart hlinked hid node.kind hnot, Points.beat?]
      rw [← hsame]
      refine hsettles.beyond q ((hkeeps.has_iff q).mpr hq) ?_ not_false
      rintro _ _ ⟨⟩
      exact mt (hderives q).mp hnot
    · exact hsettles.created q node (mt (hkeeps.has_iff q).mp hq)

/-- A jump to a finite beat resets every point. -/
theorem points_setTime (c : Conductor σ β) (beat : Float) :
    (c.setTime beat).2.points = if beat.isFinite then c.points.resetAll else c.points := by
  unfold setTime Playhead.setTime checkBeat
  cases beat.isFinite <;> rfl

theorem settles_clearPoint (hlinked : c.points.Linked) (id : PointId) :
    Settles c.points (c.clearPoint id).2.points (c.points.DerivesFrom · id) none (fun _ => [])
      (fun _ => []) [] := by
  by_cases hid : c.points.Has id
  · have hmem := Points.mem_subtree_iff hlinked hid
    have hnode := c.node?_clearPoint_eq hid
    refine .silent (fun q _ => ?_) (fun q _ hnot => ?_) (fun q _ hd => ?_)
      fun q node hq hnode' => ?_
    · rw [Points.actionsOf, hnode, Points.actionsOf]
      split_ifs
      · cases c.points.node? q <;> rfl
      · rfl
    · rw [Points.beat?, hnode, if_neg (mt (hmem q).mp hnot), Points.beat?]
    · rw [Points.beat?, hnode, if_pos ((hmem q).mpr hd), Option.bind_map]
      cases c.points.node? q <;> rfl
    · rw [hnode, Points.node?_eq_none hq, Option.map_none, ite_self] at hnode'
      cases hnode'
  · -- Nothing derives from a point that was not created.
    rw [c.clearPoint_of_not_has hid]
    refine .silent (fun _ _ => rfl) (fun _ _ _ => rfl) (fun q hq hd => ?_) fun q node hq hnode =>
      absurd (Points.has_of_node? hnode) hq
    exact absurd ((hlinked.index_le hd).trans_lt hq) hid

theorem settles_insert (ps : Points (Action β)) (kind : PointKind) :
    Settles ps (ps.insert kind).2 (fun _ => False) none (fun _ => []) (fun _ => []) [] := by
  refine .silent (fun q hq => ?_) (fun q hq _ => ?_) (fun _ _ => False.elim) fun q node hq hnode => ?_
  · rw [Points.actionsOf, Points.node?_insert, if_neg (Points.ne_nextId hq), Points.actionsOf]
  · rw [Points.beat?, Points.node?_insert, if_neg (Points.ne_nextId hq), Points.beat?]
  · rw [Points.node?_insert] at hnode
    split_ifs at hnode
    · cases hnode
      rfl
    · exact absurd (Points.has_of_node? hnode) hq

theorem settles_derive {ps : Points (Action β)} {d : Derivation} (h : ∀ id ∈ d.points, ps.Has id) :
    Settles ps (ps.derive d).2 (fun _ => False) none (fun _ => []) (fun _ => []) [] := by
  have hbeat := Points.beat?_derive h
  refine .silent (fun q hq => ?_) (fun q hq _ => ?_) (fun _ _ => False.elim) fun q node hq hnode => ?_
  · exact Points.actionsOf_congr (Points.map_node?_derive h
      (fun node child => by rw [Points.addChild_eq]) (Points.ne_nextId hq))
  · rw [hbeat, if_neg (Points.ne_nextId hq)]
  · obtain ⟨_, hderive, -⟩ := Points.node?_derive h
    rw [hderive] at hnode
    split_ifs at hnode with hnew hoperand
    · -- The operands of the new point keep their beats.
      cases hnode
      refine (Points.amount_congr fun id hid => ?_).symm
      rw [hbeat, if_neg (Points.ne_nextId (h id hid))]
    · exact absurd (h q hoperand) hq
    · exact absurd (Points.has_of_node? hnode) hq

/-- Running an action every so many beats concerns the point alone that it creates. -/
theorem settles_every (hlinked : c.points.Linked) (period : Float) (action : Action β) :
    ∃ requests, Change c (c.every period action).2 (fun _ => False) requests ∧
      Settles c.points (c.every period action).2.points (fun _ => False) none (fun _ => [])
        (fun _ => []) requests := by
  rcases c.every_cases period action with hsame | ⟨period', hevery⟩
  · exact ⟨[], .of_eq (by rw [hsame]) (by rw [hsame]),
      .of_eq (by rw [hsame]) (fun _ => id) (by simp)⟩
  rw [hevery]
  have hboth := c.change_createPoint_addAction period' action
  have hkept := c.node?_createPoint_addAction period' action
  generalize (c.createPoint (.recurring period')).2.addAction c.points.nextId action = c'
    at hboth hkept ⊢
  have hlinked' := hboth.points.linked hlinked
  -- The new point is the only one that the bind can give a beat to, since nothing derives from it.
  obtain ⟨requests, hbind, hsettles⟩ := c'.settles_bind hlinked' c.points.nextId (c'.now + period)
  have hnew := (hkept c.points.nextId).trans (if_pos rfl)
  have hold (q : PointId) (hq : q ≠ c.points.nextId) : c'.points.node? q = c.points.node? q :=
    (hkept q).trans (if_neg hq)
  refine ⟨requests, change_bind_created hlinked hboth hbind, fun q hq => ?_, by simp, by simp,
    fun q hq _ _ => ?_,
    fun _ _ _ => False.elim, fun q node hq hnode' hkind => ?_⟩
  · rw [hsettles.actions q (hboth.points.has hq), Points.actionsOf, hold q (Points.ne_nextId hq),
      Points.actionsOf]
  · have hapart : ¬ c'.points.DerivesFrom q c.points.nextId := fun hd =>
      absurd hq (not_lt.mpr (hlinked'.index_le hd))
    have hsame : c'.points.beat? q = c.points.beat? q := by
      rw [Points.beat?, hold q (Points.ne_nextId hq), Points.beat?]
    rw [← hsame]
    refine hsettles.beyond q (hboth.points.has hq) ?_ fun hreset => hapart hreset.2.2
    intro root beat hroot
    split_ifs at hroot
    cases hroot
    exact hapart
  · -- The new point recurs, and no other is there that was not there before.
    have hne : q ≠ c.points.nextId := by
      rintro rfl
      obtain ⟨_, hafter, hgrows, -⟩ := hbind.points.node hnew
      cases hnode'.symm.trans hafter
      exact hkind period' hgrows.kind
    refine hsettles.created q node (fun hhas => hq ?_) hnode' hkind
    rw [← Points.node?_isSome_iff, hold q hne, Points.node?_isSome_iff] at hhas
    exact hhas

theorem settles_addAction (id : PointId) (action : Action β) :
    Settles c.points (c.addAction id action).points (fun _ => False) none
      (fun q => if q = id then [action] else [])
      (fun q => asked (Task.deedOf? q) (c.attachRequests id action))
      (c.attachRequests id action) := by
  have hnode (q : PointId) := Points.node?_addAction c.points id action c.now q
  simp only [← (c.addAction_spec id action).1] at hnode
  refine ⟨fun q hq => ?_, by simp, by simp, fun q _ _ _ => ⟨?_, rfl⟩, fun _ _ _ => False.elim,
    fun q node hq hnode' _ => ?_⟩
  · obtain ⟨node, hold⟩ := Points.exists_node? hq
    rw [Points.actionsOf, hnode, Points.actionsOf, hold]
    split_ifs
    · rfl
    · rw [Option.elim_some, List.append_nil]
  · rw [Points.beat?, hnode, Points.beat?]
    split_ifs
    · rw [Option.bind_map]
      rfl
    · rfl
  · rw [hnode, Points.node?_eq_none hq, Option.map_none, ite_self] at hnode'
    cases hnode'

end Conductor

namespace Operation

/-- The point that an operation gives a beat to, and that beat. -/
def given? (op : Operation σ β) (c : Conductor σ β) : Option (PointId × Float) :=
  match op with
  | .bind id beat => if c.accepts id beat then some (id, beat) else none
  | _ => none

/-- The action that an operation attaches to the point. -/
def addedTo (op : Operation σ β) (q : PointId) : List (Action β) :=
  match op with
  | .addAction id action => if q = id then [action] else []
  | _ => []

/-- What an operation queues at once for an action that it attaches to the point. -/
def attachedOf (op : Operation σ β) (c : Conductor σ β) (q : PointId) : List (Float × Action β) :=
  match op with
  | .addAction id action => asked (Task.deedOf? q) (c.attachRequests id action)
  | _ => []

variable [Transport σ]

/-- What an operation makes of beats. -/
theorem settles (op : Operation σ β) {c : Conductor σ β} (hlinked : c.points.Linked)
    (hpermitted : op.Permitted c) :
    ∃ requests, Change c (op.apply c) (op.Resets c) requests ∧
      Settles c.points (op.apply c).points (op.Resets c) (op.given? c) op.addedTo
        (op.attachedOf c) requests := by
  by_cases hop : op.ConcernsPoints
  swap
  · obtain ⟨requests, hchange, hpoints, hnone⟩ := queueChange hop c
    refine ⟨requests, hchange.congr fun q _ => ⟨False.elim, not_resets hop c q⟩, ?_⟩
    have hnothing : op.given? c = none ∧ op.addedTo = (fun _ => []) ∧
        op.attachedOf c = fun _ => [] := by
      cases op with
      | bind | addAction => exact absurd trivial hop
      | _ => exact ⟨rfl, rfl, rfl⟩
    rw [hnothing.1, hnothing.2.1, hnothing.2.2]
    exact .of_eq hpoints (not_resets hop c) hnone
  cases op with
  | setTime beat =>
    refine ⟨[], c.change_setTime beat, ?_⟩
    change Settles _ (c.setTime beat).2.points (fun _ => beat.isFinite = true) none (fun _ => [])
      (fun _ => []) []
    rw [c.points_setTime]
    split_ifs with hbeat
    · exact .resetAll _ fun _ => hbeat
    · exact .of_eq rfl (fun _ => hbeat) (by simp)
  | clear => exact ⟨[], c.change_clear, .resetAll _ fun _ => trivial⟩
  | clearAllPoints => exact ⟨[], c.change_clearAllPoints, .resetAll _ fun _ => trivial⟩
  | clearPoint id =>
    exact ⟨[], c.change_clearPoint hlinked id, Conductor.settles_clearPoint hlinked id⟩
  | every period action => exact Conductor.settles_every hlinked period action
  | createPoint kind =>
    exact ⟨[], .of_points rfl (Points.advances_insert _ _), Conductor.settles_insert _ kind⟩
  | recurringPoint period =>
    refine ⟨[], c.change_recurringPoint period, ?_⟩
    change Settles _ (c.recurringPoint period).2.points (fun _ => False) none (fun _ => [])
      (fun _ => []) []
    rcases c.recurringPoint_cases period with hsame | ⟨period', hcreate⟩
    · exact .of_eq (congrArg (·.points) hsame) (fun _ => not_false) (by simp)
    · rw [hcreate]
      exact Conductor.settles_insert _ _
  | derivePoint d =>
    exact ⟨[], .of_points rfl (Points.advances_derive hpermitted),
      Conductor.settles_derive hpermitted⟩
  | bind id beat => exact Conductor.settles_bind hlinked id beat
  | addAction id action =>
    exact ⟨_, c.change_addAction id action, Conductor.settles_addAction id action⟩
  | _ => exact absurd hop id

end Operation

/-- The point that a task moves on, if its token is alive, and the beat that it moves on to. -/
def Task.given? (task : Task β) (c : Conductor σ β) : Option (PointId × Float) :=
  match task with
  | .rearm token beat => if c.points.isLive token then some (token.point, beat) else none
  | _ => none

namespace Event

/-- The point that an event gives a beat to, and that beat: a point that is bound and does not refuse it, or
a recurring point that moves on. -/
def given? : Event σ β → Option (PointId × Float)
  | .called op c => op.given? c
  | .started _ e c => e.task.given? c
  | _ => none

/-- The action that an event attaches to the point. -/
def addedTo (q : PointId) : Event σ β → List (Action β)
  | .called op _ => op.addedTo q
  | _ => []

/-- What an event queues at once for an action that it attaches to the point. -/
def attachedOf (q : PointId) : Event σ β → List (Float × Action β)
  | .called op c => op.attachedOf c q
  | _ => []

end Event

variable [Transport σ]

/-- What the clock makes of beats when it starts a task. -/
theorem carry_settles {c : Conductor σ β} (hlinked : c.points.Linked) {task : Task β}
    (hfinite : ∀ token beat, task = .rearm token beat → beat.isFinite = true)
    {requests : List (Request β)} (hrequests : CarryRequests c task requests) :
    Settles c.points (task.carry c).points (fun _ => False) (task.given? c) (fun _ => [])
      (fun _ => []) requests := by
  cases task with
  | act | actFor =>
    rw [show requests = [] from hrequests]
    exact .of_eq rfl (fun _ => id) (by simp)
  | tempo beat bpm =>
    rw [show requests = [] from hrequests]
    exact .of_eq (c.changeTempoAt_queue_points beat bpm).2 (fun _ => id) (by simp)
  | rearm token beat =>
    unfold CarryRequests at hrequests
    unfold Task.carry Task.given?
    dsimp only at hrequests ⊢
    split_ifs at hrequests ⊢ with hlive
    · obtain ⟨others, henqueues, rfl⟩ := hrequests
      obtain ⟨node, hnode, -⟩ := Points.isLive_iff.mp hlive
      exact henqueues.settles hlinked (Points.has_of_node? hnode) (hfinite token beat rfl)
    · rw [hrequests]
      exact .of_eq rfl (fun _ => id) (by simp)

/-- What a step makes of beats. -/
theorem Step.settles {m m' : Moment σ β} {event : Event σ β} (hs : Sound m)
    (hstep : Step m event m') :
    ∃ requests, Effect m event m' requests ∧
      Settles m.clock.points m'.clock.points event.Resets event.given? (event.addedTo ·)
        (event.attachedOf ·) requests := by
  obtain ⟨requests, heffect, hrequests⟩ := hstep.effect hs
  cases hstep with
  | @call c u op permitted =>
    obtain ⟨requests, hchange, hsettles⟩ := op.settles hs.linked permitted
    exact ⟨requests, effect_of_change hs.valid hchange rfl rfl, hsettles⟩
  | @start c u reading e rest =>
    have hmem := Moment.mem_pending_next c reading e rest u
    exact ⟨requests, heffect,
      carry_settles hs.linked (fun token beat => hs.finite_rearm hmem) hrequests⟩
  | _ =>
    rw [show requests = [] from hrequests] at heffect
    exact ⟨[], heffect, .of_eq rfl (fun _ => id) (by simp)⟩

omit [Transport σ] in
/-- An operation that resets a point resets what derives from it. -/
theorem Operation.Resets.of_derivesFrom {op : Operation σ β} {c : Conductor σ β} {a q : PointId}
    (h : op.Resets c a) (hq : c.points.DerivesFrom q a) : op.Resets c q := by
  cases op with
  | clearPoint id => exact Relation.ReflTransGen.trans hq h
  | bind id beat => exact ⟨h.1, h.2.1, Relation.ReflTransGen.trans hq h.2.2⟩
  | _ => exact h

/-- So does a step. -/
theorem Step.resets_of_derivesFrom {m m' : Moment σ β} {event : Event σ β} (hstep : Step m event m')
    {a q : PointId} (h : event.Resets a) (hq : m.clock.points.DerivesFrom q a) : event.Resets q := by
  cases hstep with
  | call => exact Operation.Resets.of_derivesFrom h hq
  | _ => cases h

end Cadence
