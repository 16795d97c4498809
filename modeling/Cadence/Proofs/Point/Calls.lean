import Mathlib
import Cadence.Proofs.Point.Resolution

/-!
# Calls to points

Points are used through seven calls: two create a point, two give one a beat, one attaches an action and
two reset points. This file runs any sequence of calls that name existing points, together with a list of
how each point was created. What is kept for a point is compared with that list, since its children and
its flag are written down when points are created and never looked at again.

- `Call.keeps_links`: a call that creates nothing leaves kinds, derivations, children and flags alone;
- `Records.afterCalls`: whatever is called, each point is kept as it was created;
- `Linked.rebindable_iff_source`: a flag tells of the points at the far end of the derivations;
- `derivation_graph`: the graph of derivations after any calls;
- `subtree_collected`: what is collected for a point after any calls.
-/

namespace Cadence

variable {α : Type}

/-- Points of this kind take a beat again and again. -/
def PointKind.Repeats : PointKind → Prop
  | .persistent | .recurring _ => True
  | .oneShot | .derived => False

theorem PointKind.repeats_iff (kind : PointKind) :
    kind.Repeats ↔ kind ≠ .oneShot ∧ kind ≠ .derived := by
  cases kind <;> simp [Repeats]

/-- How a point was created. -/
inductive Creation where
  /-- As a point of some kind that is not computed from others. -/
  | inserted (kind : PointKind)
  /-- As a point computed from others. -/
  | derived (d : Derivation)
deriving Repr, DecidableEq

/-- The kind of a point that was created like this. -/
def Creation.kind : Creation → PointKind
  | .inserted kind => kind
  | .derived _ => .derived

/-- How it is computed. -/
def Creation.derivation? : Creation → Option Derivation
  | .inserted _ => none
  | .derived d => some d

namespace Points

/-- A call to points. -/
inductive Call (α : Type) where
  /-- Create a point of some kind. -/
  | insert (kind : PointKind)
  /-- Create a point computed from others. -/
  | derive (d : Derivation)
  /-- Give a point a beat. -/
  | resolve (root : PointId) (beat : Float)
  /-- Move a recurring point on. -/
  | rearm (root : PointId) (beat : Float) (token : Token)
  /-- Attach an action. -/
  | addAction (id : PointId) (action : α) (now : Float)
  /-- Reset a point and what derives from it. -/
  | resetSubtree (root : PointId)
  /-- Reset every point. -/
  | resetAll

namespace Call

/-- The points that a call names. -/
def names : Call α → List PointId
  | .insert _ | .resetAll => []
  | .derive d => d.points
  | .resolve root _ | .rearm root _ _ | .resetSubtree root => [root]
  | .addAction id _ _ => [id]

/-- Makes a call. -/
def run : Call α → Points α → Points α
  | .insert kind, ps => (ps.insert kind).2
  | .derive d, ps => (ps.derive d).2
  | .resolve root beat, ps => (ps.resolve root beat).points
  | .rearm root beat token, ps => (ps.rearm root beat token).points
  | .addAction id action now, ps => (ps.addAction id action now).2
  | .resetSubtree root, ps => (ps.resetSubtree root).2
  | .resetAll, ps => ps.resetAll

/-- The point that a call creates. -/
def creation? : Call α → Option Creation
  | .insert kind => some (.inserted kind)
  | .derive d => some (.derived d)
  | _ => none

end Call

/-- The points after calls made one after another. -/
def afterCalls (ps : Points α) (calls : List (Call α)) : Points α :=
  calls.foldl (fun ps call => call.run ps) ps

/-- Every call names only points that were created before it. -/
def Knows (ps : Points α) : List (Call α) → Prop
  | [] => True
  | call :: calls => (∀ id ∈ call.names, ps.Has id) ∧ (call.run ps).Knows calls

/-- It can be tested whether calls name only points that were created before them. -/
def decidableKnows : ∀ (ps : Points α) (calls : List (Call α)), Decidable (ps.Knows calls)
  | _, [] => .isTrue trivial
  | ps, call :: calls =>
    letI := decidableKnows (call.run ps) calls
    inferInstanceAs (Decidable ((∀ id ∈ call.names, ps.Has id) ∧ (call.run ps).Knows calls))

instance (ps : Points α) (calls : List (Call α)) : Decidable (ps.Knows calls) :=
  decidableKnows ps calls

/-- The points that calls create, in order. -/
def creations (calls : List (Call α)) : List Creation := calls.filterMap Call.creation?

/-! ## One call -/

/-- Points that were created as listed. -/
structure Records (ps : Points α) (log : List Creation) : Prop where
  /-- They are linked. -/
  linked : ps.Linked
  /-- Each of them lists its children in the order in which these were created. -/
  ascending : ∀ {id node}, ps.node? id = some node → node.children.Pairwise (·.index < ·.index)
  /-- Each of them has the kind and the derivation that it was created with. -/
  origin : ∀ id, (ps.node? id).map (fun node => (node.kind, node.derivation)) =
    log[id.index]?.map fun creation => (creation.kind, creation.derivation?)

namespace Records

variable {ps ps' : Points α} {log : List Creation}

theorem empty : (empty : Points α).Records [] where
  linked := linked_empty
  ascending := by
    intro id node hnode
    simp [Points.empty, node?] at hnode
  origin := fun id => by simp [Points.empty, node?]

theorem size_eq (h : ps.Records log) : ps.size = log.length := by
  -- The same names lie below both: those of points that are kept, and of creations that are listed.
  refine eq_of_forall_lt_iff fun n => ?_
  have hsome := congrArg Option.isSome (h.origin ⟨n⟩)
  rw [Option.isSome_map, Option.isSome_map, Bool.eq_iff_iff, node?_isSome_iff] at hsome
  exact hsome.trans (by simp)

theorem exists_creation (h : ps.Records log) {id : PointId} {node : PointNode α}
    (hnode : ps.node? id = some node) : ∃ creation, log[id.index]? = some creation ∧
      node.kind = creation.kind ∧ node.derivation = creation.derivation? := by
  have horigin := h.origin id
  rw [hnode, Option.map_some] at horigin
  obtain ⟨creation, hcreation, heq⟩ := Option.map_eq_some_iff.mp horigin.symm
  obtain ⟨hkind, hderivation⟩ := Prod.mk.inj heq
  exact ⟨creation, hcreation, hkind.symm, hderivation.symm⟩

/-- A change that leaves the links alone leaves every point as it was created. -/
theorem of_keeps (h : ps.Records log) (hkeeps : Keeps links ps ps') : ps'.Records log where
  linked := h.linked.of_keeps hkeeps
  ascending := by
    intro id node' hnode'
    obtain ⟨node, hnode, hview⟩ := hkeeps.node?_symm hnode'
    rw [show node'.children = node.children from congrArg (·.2.1) hview]
    exact h.ascending hnode
  origin := fun id => (hkeeps.comp (fun view => (view.2.2.1, view.1)) id).trans (h.origin id)

/-- The list goes on with the point that was created last. -/
theorem origin_push (h : ps.Records log) {creation : Creation} {node : PointNode α}
    (hnew : ps'.node? ps.nextId = some node)
    (hnode : (node.kind, node.derivation) = (creation.kind, creation.derivation?))
    (hold : ∀ id ≠ ps.nextId, (ps'.node? id).map (fun node => (node.kind, node.derivation)) =
      (ps.node? id).map fun node => (node.kind, node.derivation)) (id : PointId) :
    (ps'.node? id).map (fun node => (node.kind, node.derivation)) =
      (log ++ [creation])[id.index]?.map fun creation => (creation.kind, creation.derivation?) := by
  -- The name of the new point is the number of points created so far, where the list goes on.
  by_cases hid : id = ps.nextId
  · have hindex : id.index = log.length := by rw [hid]; exact h.size_eq
    rw [hid, hnew, ← hid, hindex, List.getElem?_concat_length, Option.map_some, Option.map_some,
      hnode]
  · have hindex : id.index ≠ log.length := by
      rw [← h.size_eq]
      exact fun heq => hid (congrArg PointId.mk heq)
    rw [hold id hid, h.origin]
    rcases lt_or_gt_of_ne hindex with hlt | hgt
    · rw [List.getElem?_append_left hlt]
    · rw [List.getElem?_eq_none hgt.le, List.getElem?_eq_none (by simpa using hgt)]

/-- Creating a point that is not derived. -/
theorem insert (h : ps.Records log) (kind : PointKind) :
    (ps.insert kind).2.Records (log ++ [.inserted kind]) where
  linked := linked_insert h.linked kind
  ascending := by
    intro id node hnode
    rw [node?_insert] at hnode
    split_ifs at hnode
    · cases hnode
      exact .nil
    · exact h.ascending hnode
  origin := by
    refine h.origin_push ((node?_insert ps kind _).trans (if_pos rfl)) rfl fun id hid => ?_
    rw [node?_insert, if_neg hid]

/-- A child that is created now comes after the children that are listed. -/
theorem ascending_addChild (h : ps.Records log) {id : PointId} {node : PointNode α}
    (hnode : ps.node? id = some node) :
    (node.addChild ps.nextId).children.Pairwise (·.index < ·.index) := by
  unfold PointNode.addChild
  split_ifs
  · exact h.ascending hnode
  · refine List.pairwise_append.mpr ⟨h.ascending hnode, List.pairwise_singleton _ _, ?_⟩
    intro child hchild next hnext
    obtain ⟨_, _, hcnode, -⟩ := (h.linked.children_iff hnode child).mp hchild
    rw [List.mem_singleton.mp hnext]
    exact has_of_node? hcnode

/-- Creating a point computed from points that were created. -/
theorem derive (h : ps.Records log) {d : Derivation} (hd : ∀ id ∈ d.points, ps.Has id) :
    (ps.derive d).2.Records (log ++ [.derived d]) where
  linked := linked_derive h.linked hd
  ascending := by
    intro id node hnode
    obtain ⟨_, hderive, -⟩ := node?_derive hd
    rw [hderive] at hnode
    split_ifs at hnode
    · cases hnode
      exact .nil
    · obtain ⟨old, hold, rfl⟩ := Option.map_eq_some_iff.mp hnode
      exact h.ascending_addChild hold
    · exact h.ascending hnode
  origin := by
    obtain ⟨_, hderive, -⟩ := node?_derive hd
    exact h.origin_push ((hderive _).trans (if_pos rfl)) rfl fun id hid =>
      map_node?_derive hd (fun node child => by rw [addChild_eq]) hid

end Records

/-- A call that creates nothing leaves the links alone. -/
theorem Call.keeps_links {call : Call α} (hcreation : call.creation? = none) {ps : Points α}
    (h : ps.Linked) (hnames : ∀ id ∈ call.names, ps.Has id) : Keeps links ps (call.run ps) := by
  have hresolve {root : PointId} (hroot : ps.Has root) (beat : Float) :
      Keeps links ps (ps.resolve root beat).points :=
    (keeps_resolve h hroot beat).comp links
  cases call with
  | insert | derive => cases hcreation
  | resolve root beat => exact hresolve (hnames root (.head _)) beat
  | rearm root beat token =>
    obtain ⟨node, hnode⟩ := exists_node? (hnames root (.head _))
    simp only [run, Points.rearm, find_of_node? hnode]
    split_ifs
    · exact hresolve (hnames root (.head _)) beat
    · exact .refl ps
  | addAction id action now =>
    -- Actions, beats and tokens are no part of the links.
    exact keeps_addAction (fun _ _ => rfl) ps id action now
  | resetSubtree root =>
    simp only [run, resetSubtree_ok (hnames root (.head _))]
    exact keeps_foldl_modify ps _ fun _ => rfl
  | resetAll =>
    intro q
    simp only [run, node?_resetAll, Option.map_map]
    rfl

/-- A call that names existing points leaves every point as it was created, and lists the point that it
creates. -/
theorem Records.call {ps : Points α} {log : List Creation} (h : ps.Records log) (call : Call α)
    (hnames : ∀ id ∈ call.names, ps.Has id) :
    (call.run ps).Records (log ++ call.creation?.toList) := by
  cases hcreation : call.creation? with
  | none =>
    rw [Option.toList_none, List.append_nil]
    exact h.of_keeps (call.keeps_links hcreation h.linked hnames)
  | some creation =>
    cases call with
    | insert kind =>
      cases hcreation
      exact h.insert kind
    | derive d =>
      cases hcreation
      exact h.derive hnames
    | resolve | rearm | addAction | resetSubtree | resetAll => cases hcreation

/-! ## Any calls -/

theorem creations_cons (call : Call α) (calls : List (Call α)) :
    creations (call :: calls) = call.creation?.toList ++ creations calls := by
  unfold creations
  cases hcreation : call.creation? <;> simp [hcreation]

/-- Calls that name existing points leave every point as it was created. -/
theorem Records.afterCalls {ps : Points α} {log : List Creation} (h : ps.Records log)
    {calls : List (Call α)} (hknows : ps.Knows calls) :
    (ps.afterCalls calls).Records (log ++ creations calls) := by
  induction calls generalizing ps log with
  | nil =>
    rw [creations, List.filterMap_nil, List.append_nil]
    exact h
  | cons call calls ih =>
    have hrest := ih (h.call call hknows.1) hknows.2
    rw [creations_cons, ← List.append_assoc]
    exact hrest

theorem linked_afterCalls {calls : List (Call α)} (h : empty.Knows calls) :
    (empty.afterCalls calls).Linked :=
  (Records.empty.afterCalls h).linked

/-- A flag is up exactly if the point is computed, in any number of steps, from a point that is not
derived and takes beats again. -/
theorem Linked.rebindable_iff_source {ps : Points α} (h : ps.Linked) {id : PointId}
    (hid : ps.Has id) : ps.Rebindable id ↔ ∃ q source, ps.DerivesFrom id q ∧
      ps.node? q = some source ∧ source.derivation = none ∧ source.kind ≠ .oneShot := by
  constructor
  · -- By induction on the name, since operands were created before the point.
    induction hindex : id.index using Nat.strong_induction_on generalizing id with
    | _ index ih =>
      subst hindex
      rintro ⟨node, hnode, hre⟩
      cases hd : node.derivation with
      | none => exact ⟨id, node, .refl, hnode, hd, (h.rebindable_iff hnode hd).mp hre⟩
      | some d =>
        obtain ⟨operand, hoperand, hre⟩ := (h.rebindable_iff_operand hnode hd).2.mp hre
        have hnames : ps.Names id operand := ⟨node, d, hnode, hd, hoperand⟩
        obtain ⟨q, source, hq, hsource⟩ :=
          ih operand.index (h.earlier hnames) (h.has_operand hnode hd hoperand) rfl hre
        exact ⟨q, source, .head hnames hq, hsource⟩
  · rintro ⟨q, source, hq, hsource, hd, hkind⟩
    induction hq using Relation.ReflTransGen.head_induction_on with
    | refl => exact ⟨source, hsource, (h.rebindable_iff hsource hd).mpr hkind⟩
    | head hnames _ ih =>
      obtain ⟨node, d, hnode, hd, hoperand⟩ := hnames
      have hre := ih (h.has_operand hnode hd hoperand)
      exact ⟨node, hnode, (h.rebindable_iff_operand hnode hd).2.mpr ⟨_, hoperand, hre⟩⟩

/-- The graph of derivations of points that were created as listed. -/
structure Graph (ps : Points α) (log : List Creation) : Prop where
  /-- The operands of a derivation come before the point that is computed by it. -/
  earlier : ∀ id node d, ps.node? id = some node → node.derivation = some d →
    ∀ operand ∈ d.points, operand.index < id.index
  /-- A point lists the points whose derivations mention it. -/
  children : ∀ id node, ps.node? id = some node →
    ∀ child, child ∈ node.children ↔ ps.Names child id
  /-- It lists each of them once, in ascending order. -/
  ascending : ∀ id node, ps.node? id = some node → node.children.Pairwise (·.index < ·.index)
  /-- A point has a derivation exactly if its kind is derived, and it was not inserted with that kind. -/
  derivation : ∀ id node, ps.node? id = some node →
    (node.derivation.isSome ↔
      node.kind = .derived ∧ log[id.index]? ≠ some (.inserted .derived))
  /-- A point is rebindable exactly if it derives from an inserted point, maybe itself, that repeats or was
  inserted with the kind derived. -/
  rebindable : ∀ id node, ps.node? id = some node →
    (node.rebindable = true ↔ ∃ q source, ps.DerivesFrom id q ∧ ps.node? q = some source ∧
      source.derivation = none ∧
      (source.kind.Repeats ∨ log[q.index]? = some (.inserted .derived)))

/-- A point without a derivation has the kind derived only if it was inserted with it. -/
theorem Records.inserted_iff {ps : Points α} {log : List Creation} (h : ps.Records log) {id : PointId}
    {node : PointNode α} (hnode : ps.node? id = some node) :
    log[id.index]? = some (.inserted .derived) ↔
      node.derivation = none ∧ node.kind = .derived := by
  obtain ⟨creation, hcreation, hkind, hderivation⟩ := h.exists_creation hnode
  rw [hcreation, hkind, hderivation]
  cases creation <;> simp [Creation.kind, Creation.derivation?]

theorem Records.graph {ps : Points α} {log : List Creation} (h : ps.Records log) :
    ps.Graph log where
  earlier := fun id node d hnode hd operand hoperand =>
    h.linked.earlier ⟨node, d, hnode, hd, hoperand⟩
  children := fun id node hnode => h.linked.children_iff hnode
  ascending := fun id node hnode => h.ascending hnode
  derivation := by
    intro id node hnode
    rw [ne_eq, h.inserted_iff hnode]
    cases hd : node.derivation with
    | none => simp
    | some d => simp [(h.linked.rebindable_iff_operand hnode hd).1]
  rebindable := by
    intro id node hnode
    have hflag : ps.Rebindable id ↔ node.rebindable = true := by
      simp [Rebindable, hnode]
    rw [← hflag, h.linked.rebindable_iff_source (has_of_node? hnode)]
    refine exists₂_congr fun q source => and_congr_right fun _ => and_congr_right fun hsource =>
      and_congr_right fun hd => ?_
    rw [h.inserted_iff hsource, PointKind.repeats_iff]
    -- Among points without a derivation, those of the kind derived are the ones inserted with it.
    by_cases hkind : source.kind = .derived
    · simp [hkind, hd]
    · simp [hkind]

/-- Whatever calls that name existing points are made, operands come before what is computed from them,
children are the points that name their parent, in ascending order, a point has a derivation exactly if it
is derived, and it is rebindable exactly if it derives from a point that repeats. A point that was inserted
with the kind derived has no derivation, and counts as one that repeats. -/
theorem derivation_graph (calls : List (Call α)) (h : empty.Knows calls) :
    (empty.afterCalls calls).Graph (creations calls) :=
  (Records.empty.afterCalls h).graph

/-- A persistent point taken twice, and the sum with a one-shot point. -/
theorem doubled_derivation_graph :
    let calls : List (Call Unit) :=
      [.insert .persistent, .insert .oneShot, .derive ⟨.add, .point ⟨0⟩, .point ⟨0⟩⟩,
        .resolve ⟨0⟩ 4.0, .derive ⟨.sub, .point ⟨2⟩, .point ⟨1⟩⟩, .addAction ⟨3⟩ () 0.0,
        .resetSubtree ⟨1⟩, .resolve ⟨1⟩ 2.0]
    empty.Knows calls ∧
      ((empty.afterCalls calls).nodes.toList.map fun node =>
        (node.children.map (·.index), node.rebindable)) =
          [([2], true), ([3], false), ([3], true), ([], true)] ∧
      (empty.afterCalls calls).Graph (creations calls) := by
  intro calls
  have hknows : empty.Knows calls := by decide +kernel
  exact ⟨hknows, by decide +kernel, derivation_graph calls hknows⟩

/-- A point that is inserted with the kind derived has no derivation, and is rebindable although nothing
that it derives from repeats. -/
theorem inserted_as_derived :
    let calls : List (Call Unit) := [.insert .derived]
    let ps := (empty : Points Unit).afterCalls calls
    empty.Knows calls ∧
      ¬ (∀ id node, ps.node? id = some node →
        (node.derivation.isSome ↔ node.kind = .derived)) ∧
      ¬ (∀ id node, ps.node? id = some node →
        (node.rebindable = true ↔ ∃ q source, ps.DerivesFrom id q ∧ ps.node? q = some source ∧
          source.derivation = none ∧ source.kind.Repeats)) := by
  intro calls ps
  have hnode : ps.node? ⟨0⟩ = some (.fresh .derived true none) := rfl
  refine ⟨by decide, fun hall => ?_, fun hall => ?_⟩
  · have hderivation := (hall ⟨0⟩ _ hnode).mpr rfl
    cases hderivation
  · obtain ⟨q, source, -, hsource, -, hrepeats⟩ := (hall ⟨0⟩ _ hnode).mp rfl
    -- There is no other point.
    have hq : ps.Has q := has_of_node? hsource
    obtain rfl : q = ⟨0⟩ := congrArg PointId.mk (Nat.lt_one_iff.mp hq)
    obtain rfl := Option.some.inj (hnode.symm.trans hsource)
    exact hrepeats

/-! ## What is collected for a point -/

/-- Among points in ascending order an earlier one has an earlier place. -/
theorem idxOf_lt_of_index_lt {ids : List PointId} (h : ids.Pairwise (·.index < ·.index)) {p q : PointId}
    (hp : p ∈ ids) (hq : q ∈ ids) (hlt : p.index < q.index) : ids.idxOf p < ids.idxOf q := by
  have hpplace := List.idxOf_lt_length_iff.mpr hp
  have hqplace := List.idxOf_lt_length_iff.mpr hq
  by_contra hle
  rcases lt_or_eq_of_le (not_lt.mp hle) with hbefore | hsame
  · have hgt := List.pairwise_iff_getElem.mp h _ _ hqplace hpplace hbefore
    rw [List.getElem_idxOf, List.getElem_idxOf] at hgt
    exact absurd hlt hgt.le.not_gt
  · rw [(List.idxOf_inj hq).mp hsame] at hlt
    exact lt_irrefl _ hlt

/-- The points are what a search for a point collects. -/
structure Collects (ps : Points α) (root : PointId) (ids : List PointId) : Prop where
  /-- The search comes to its end: when each of them was looked at once, nothing is pending. -/
  ends : ps.searchOn^[ids.length] (.start root) = ⟨ids, []⟩
  /-- So there are no more turns than points. -/
  length_le : ids.length ≤ ps.size
  /-- They are the point itself and those whose derivations name it, directly or through other points. -/
  mem_iff : ∀ q, q ∈ ids ↔ q = root ∨ Relation.TransGen ps.Names q root
  /-- None of them is listed twice. -/
  nodup : ids.Nodup
  /-- They are in the order in which they were created. -/
  ascending : ids.Pairwise (·.index < ·.index)
  /-- The point itself comes first, and then what derives from it. -/
  first : ids = root :: ps.descendants root
  /-- A point comes after each of its operands that is listed. -/
  after_operands : ∀ q ∈ ids, ∀ operand ∈ ids, ps.Names q operand → ids.idxOf operand < ids.idxOf q

theorem Linked.collects_subtree {ps : Points α} (h : ps.Linked) {root : PointId} (hroot : ps.Has root) :
    ps.Collects root (ps.subtree root) := by
  obtain ⟨hends, hsearching⟩ := searchOn_iterate_subtree h hroot
  refine ⟨hends, hsearching.length_le hroot, fun q => ?_, ps.subtree_nodup root, ps.subtree_sorted root,
    subtree_eq_cons h hroot, fun q hq operand hoperand hnames => ?_⟩
  · rw [mem_subtree_iff h hroot, DerivesFrom, Relation.reflTransGen_iff_eq_or_transGen, eq_comm]
  · exact idxOf_lt_of_index_lt (ps.subtree_sorted root) hoperand hq (h.earlier hnames)

/-- Whatever calls that name existing points are made, the search for what derives from an existing point
comes to its end, and answers the point itself and everything that derives from it: each point once, in
ascending order, the point itself first, and so after the operands that are listed. -/
theorem subtree_collected (calls : List (Call α)) (h : empty.Knows calls) {root : PointId}
    (hroot : (empty.afterCalls calls).Has root) :
    (empty.afterCalls calls).Collects root ((empty.afterCalls calls).subtree root) :=
  (linked_afterCalls h).collects_subtree hroot

/-- Two points computed from one meet again in a third, which is found through the second of them. -/
theorem diamond_collected :
    let calls : List (Call Unit) :=
      [.insert .persistent, .derive ⟨.add, .point ⟨0⟩, .scalar 1.0⟩,
        .derive ⟨.mul, .point ⟨0⟩, .point ⟨0⟩⟩, .insert .oneShot, .resolve ⟨0⟩ 4.0,
        .derive ⟨.sub, .point ⟨1⟩, .point ⟨2⟩⟩, .derive ⟨.add, .point ⟨4⟩, .point ⟨3⟩⟩,
        .derive ⟨.div, .point ⟨3⟩, .scalar 2.0⟩]
    let ps := (empty : Points Unit).afterCalls calls
    empty.Knows calls ∧ ps.Has ⟨0⟩ ∧ ps.subtree ⟨0⟩ = [⟨0⟩, ⟨1⟩, ⟨2⟩, ⟨4⟩, ⟨5⟩] ∧
      ps.Collects ⟨0⟩ (ps.subtree ⟨0⟩) := by
  intro calls ps
  have hknows : empty.Knows calls := by decide +kernel
  have hroot : ps.Has ⟨0⟩ := by decide +kernel
  exact ⟨hknows, hroot, by decide +kernel, subtree_collected calls hknows hroot⟩

end Points

end Cadence
