import Mathlib
import Cadence.Proofs.Point.Search
import Cadence.Point.Resolve

/-!
# What resets and resolutions do to points

An operation on points never takes a point away, never changes how one is computed and never drops an
attached action. It only resets points, which starts a new generation of each, and settles beats. This
file states that as one relation between the points before and after, and proves:

- `Points.advances_resetSubtree` and `Points.advances_resetAll`: exactly the points derived from the
  given one, and all of them, start a new generation;
- `Points.resolve_spec`: a resolution starts no new generation, gives the root the new beat and asks
  for each of its actions there, and asks for entries of derived points in their current generation.
-/

namespace Cadence

variable {α : Type}

namespace PointNode

/-- What is kept for a point while beats come and go. -/
def still (node : PointNode α) : PointNode α := { node with beat := none, resolutions := 0 }

/-- A later state of a point: how it is computed is the same, and no action was dropped. -/
structure Grows (node node' : PointNode α) : Prop where
  /-- It comes by its beat in the same way. -/
  kind : node'.kind = node.kind
  /-- It takes another beat, or not, as before. -/
  rebindable : node'.rebindable = node.rebindable
  /-- It is computed in the same way. -/
  derivation : node'.derivation = node.derivation
  /-- Actions are only ever attached. -/
  actions : node.actions <+: node'.actions

theorem Grows.refl (node : PointNode α) : node.Grows node := ⟨rfl, rfl, rfl, List.prefix_refl _⟩

theorem Grows.trans {a b c : PointNode α} (h : a.Grows b) (h' : b.Grows c) : a.Grows c :=
  ⟨h'.kind.trans h.kind, h'.rebindable.trans h.rebindable, h'.derivation.trans h.derivation,
    h.actions.trans h'.actions⟩

theorem grows_of_still {node node' : PointNode α} (h : node'.still = node.still) :
    node.Grows node' := by
  cases node
  cases node'
  simp only [still, PointNode.mk.injEq] at h
  obtain ⟨rfl, -, rfl, rfl, -, rfl, -, -⟩ := h
  exact ⟨rfl, rfl, rfl, List.prefix_refl _⟩

theorem generation_of_still {node node' : PointNode α} (h : node'.still = node.still) :
    node'.generation = node.generation := by
  cases node
  cases node'
  simp only [still, PointNode.mk.injEq] at h
  exact h.2.2.2.2.2.2.1

theorem actions_of_still {node node' : PointNode α} (h : node'.still = node.still) :
    node'.actions = node.actions := by
  cases node
  cases node'
  simp only [still, PointNode.mk.injEq] at h
  exact h.2.2.2.2.2.1

/-- Takes a beat if there is one to take. -/
def settle? (node : PointNode α) : Option Float → PointNode α
  | some beat => node.settle beat
  | none => node

@[simp]
theorem still_settle? (node : PointNode α) (value : Option Float) :
    (node.settle? value).still = node.still := by
  cases value <;> rfl

end PointNode

namespace Points

/-! ## Points after an operation -/

/-- Points after an operation that resets some of them. -/
structure Advances (ps ps' : Points α) (resets : PointId → Prop) : Prop where
  /-- Linked points stay linked. -/
  linked : ps.Linked → ps'.Linked
  /-- No point is lost. -/
  node : ∀ {id node}, ps.node? id = some node → ∃ node', ps'.node? id = some node' ∧
    node.Grows node' ∧ (resets id → node'.generation = node.generation + 1) ∧
    (¬ resets id → node'.generation = node.generation)

namespace Advances

variable {ps ps' ps'' : Points α} {resets : PointId → Prop}

theorem refl (ps : Points α) : Advances ps ps fun _ => False where
  linked := id
  node := fun {_ node} hnode => ⟨node, hnode, .refl node, False.elim, fun _ => rfl⟩

/-- An operation that resets nothing, and another one. -/
theorem trans (h : Advances ps ps' fun _ => False) (h' : Advances ps' ps'' resets) :
    Advances ps ps'' resets where
  linked := h'.linked ∘ h.linked
  node := by
    intro id node hnode
    obtain ⟨node', hnode', hgrows, -, hgen⟩ := h.node hnode
    obtain ⟨node'', hnode'', hgrows', hreset, hkeep⟩ := h'.node hnode'
    refine ⟨node'', hnode'', hgrows.trans hgrows', fun hr => ?_, fun hr => ?_⟩
    · rw [hreset hr, hgen not_false]
    · rw [hkeep hr, hgen not_false]

/-- An operation, and another one that resets nothing. -/
theorem trans_still (h : Advances ps ps' resets) (h' : Advances ps' ps'' fun _ => False) :
    Advances ps ps'' resets where
  linked := h'.linked ∘ h.linked
  node := by
    intro id node hnode
    obtain ⟨node', hnode', hgrows, hreset, hkeep⟩ := h.node hnode
    obtain ⟨node'', hnode'', hgrows', -, hgen⟩ := h'.node hnode'
    refine ⟨node'', hnode'', hgrows.trans hgrows', fun hr => ?_, fun hr => ?_⟩
    · rw [hgen not_false, hreset hr]
    · rw [hgen not_false, hkeep hr]

/-- Which points are reset matters only for those that were created. -/
theorem congr {resets' : PointId → Prop} (h : Advances ps ps' resets)
    (heq : ∀ id, ps.Has id → (resets id ↔ resets' id)) : Advances ps ps' resets' where
  linked := h.linked
  node := by
    intro id node hnode
    obtain ⟨node', hnode', hgrows, hreset, hkeep⟩ := h.node hnode
    have hiff := heq id (has_of_node? hnode)
    exact ⟨node', hnode', hgrows, fun hr => hreset (hiff.mpr hr),
      fun hr => hkeep fun hr' => hr (hiff.mp hr')⟩

theorem has (h : Advances ps ps' resets) {id : PointId} (hid : ps.Has id) : ps'.Has id := by
  obtain ⟨node, hnode⟩ := exists_node? hid
  obtain ⟨node', hnode', -⟩ := h.node hnode
  exact has_of_node? hnode'

end Advances

/-- A change that only lets beats come and go resets nothing. -/
theorem advances_of_still {ps ps' : Points α} (h : Keeps PointNode.still ps ps') :
    Advances ps ps' fun _ => False where
  linked := fun hlinked => hlinked.of_keeps (h.comp links)
  node := by
    intro id node hnode
    obtain ⟨node', hnode', hview⟩ := h.node? hnode
    exact ⟨node', hnode', PointNode.grows_of_still hview, False.elim,
      fun _ => PointNode.generation_of_still hview⟩

/-- Creating a point resets nothing. -/
theorem advances_insert (ps : Points α) (kind : PointKind) :
    Advances ps (ps.insert kind).2 fun _ => False where
  linked := fun h => linked_insert h kind
  node := by
    intro id node hnode
    refine ⟨node, ?_, .refl node, False.elim, fun _ => rfl⟩
    rw [node?_insert, if_neg (ne_nextId (has_of_node? hnode))]
    exact hnode

/-- Nor does computing one from points that were created. -/
theorem advances_derive {ps : Points α} {d : Derivation} (h : ∀ id ∈ d.points, ps.Has id) :
    Advances ps (ps.derive d).2 fun _ => False where
  linked := fun hlinked => linked_derive hlinked h
  node := by
    intro id node hnode
    obtain ⟨rebindable, hderive, -⟩ := node?_derive h
    rw [hderive, if_neg (ne_nextId (has_of_node? hnode)), hnode]
    split_ifs
    · refine ⟨node.addChild ps.nextId, rfl, ?_, False.elim, fun _ => ?_⟩
      · rw [addChild_eq]
        exact ⟨rfl, rfl, rfl, List.prefix_refl _⟩
      · rw [addChild_eq]
    · exact ⟨node, rfl, .refl node, False.elim, fun _ => rfl⟩

/-- Attaching an action attaches it, to a point that was created, and changes nothing else. -/
theorem node?_addAction (ps : Points α) (id : PointId) (action : α) (now : Float) (q : PointId) :
    (ps.addAction id action now).2.node? q =
      if q = id then (ps.node? q).map fun node => { node with actions := node.actions ++ [action] }
      else ps.node? q := by
  cases hid : ps.node? id with
  | none =>
    have hsame : (ps.addAction id action now).2 = ps := by simp [addAction, find, hid]
    rw [hsame]
    by_cases hq : q = id
    · subst hq
      rw [if_pos rfl, hid]
      rfl
    · rw [if_neg hq]
  | some node =>
    have hattached : (ps.addAction id action now).2 =
        ps.modify id fun node => { node with actions := node.actions ++ [action] } := by
      unfold addAction
      rw [find_of_node? hid]
      cases hbeat : node.beat
      · simp only [hbeat]
      · simp only [hbeat]
        split_ifs <;> rfl
    rw [hattached]
    exact node?_modify ps id _ q

/-- What does not look at actions is the same afterwards. -/
theorem keeps_addAction {γ : Type} {view : PointNode α → γ}
    (hview : ∀ node actions, view { node with actions := actions } = view node) (ps : Points α)
    (id : PointId) (action : α) (now : Float) : Keeps view ps (ps.addAction id action now).2 := by
  intro q
  rw [node?_addAction]
  split_ifs
  · rw [Option.map_map]
    congr 1
    exact funext fun node => hview node _
  · rfl

/-- Attaching an action resets nothing. -/
theorem advances_addAction (ps : Points α) (id : PointId) (action : α) (now : Float) :
    Advances ps (ps.addAction id action now).2 fun _ => False where
  linked := fun h => h.of_keeps (keeps_addAction (fun _ _ => rfl) ps id action now)
  node := by
    intro q node hnode
    rw [node?_addAction, hnode]
    split_ifs
    · exact ⟨_, rfl, ⟨rfl, rfl, rfl, List.prefix_append _ _⟩, False.elim, fun _ => rfl⟩
    · exact ⟨node, rfl, .refl node, False.elim, fun _ => rfl⟩

/-! ## Resets -/

theorem grows_reset (node : PointNode α) : node.Grows node.reset :=
  ⟨rfl, rfl, rfl, List.prefix_refl _⟩

/-- Resetting a point that was created resets exactly what derives from it. -/
theorem resetSubtree_ok {ps : Points α} {root : PointId} (hroot : ps.Has root) :
    ps.resetSubtree root = (.ok (ps.subtree root),
      (ps.subtree root).foldl (fun ps id => ps.modify id PointNode.reset) ps) := by
  obtain ⟨node, hnode⟩ := exists_node? hroot
  simp [resetSubtree, find_of_node? hnode]

/-- A point is in a new generation after a reset exactly if it derives from the point that was
reset. -/
theorem advances_resetSubtree {ps : Points α} (h : ps.Linked) {root : PointId}
    (hroot : ps.Has root) :
    Advances ps (ps.resetSubtree root).2 fun q => ps.DerivesFrom q root where
  linked := by
    intro hlinked
    rw [resetSubtree_ok hroot]
    exact hlinked.of_keeps (keeps_foldl_modify ps _ fun _ => rfl)
  node := by
    intro id node hnode
    rw [resetSubtree_ok hroot, node?_foldl_modify ps (ps.subtree_nodup root), hnode]
    -- The reset goes over what was collected for the root.
    by_cases hid : ps.DerivesFrom id root
    · rw [if_pos ((mem_subtree_iff h hroot id).mpr hid)]
      exact ⟨node.reset, rfl, grows_reset node, fun _ => rfl, fun hn => absurd hid hn⟩
    · rw [if_neg (fun hin => hid ((mem_subtree_iff h hroot id).mp hin))]
      exact ⟨node, rfl, .refl node, fun hd => absurd hd hid, fun _ => rfl⟩

theorem node?_resetAll (ps : Points α) (id : PointId) :
    ps.resetAll.node? id = (ps.node? id).map PointNode.reset := by
  simp [resetAll, node?]

theorem advances_resetAll (ps : Points α) : Advances ps ps.resetAll fun _ => True where
  linked := by
    intro h
    refine h.of_keeps fun id => ?_
    rw [node?_resetAll, Option.map_map]
    rfl
  node := by
    intro id node hnode
    rw [node?_resetAll, hnode]
    exact ⟨node.reset, rfl, grows_reset node, fun _ => rfl, fun hn => absurd trivial hn⟩

/-! ## Resolutions -/

/-- An entry that a point wants: an action of it at a finite beat, with its current token. -/
structure Wanted (ps : Points α) (e : PointEntry α) : Prop where
  /-- The action is attached to the point, which is in the generation of the token. -/
  current : ∃ node, ps.node? e.token.point = some node ∧ e.token.generation = node.generation ∧
    e.action ∈ node.actions
  /-- The beat is finite. -/
  finite : e.beat.isFinite = true

/-- What is wanted does not depend on beats. -/
theorem Wanted.of_keeps {ps ps' : Points α} {e : PointEntry α} (h : ps.Wanted e)
    (hkeeps : Keeps PointNode.still ps ps') : ps'.Wanted e where
  current := by
    obtain ⟨node, hnode, hgen, haction⟩ := h.current
    obtain ⟨node', hnode', hview⟩ := hkeeps.node? hnode
    refine ⟨node', hnode', ?_, ?_⟩
    · rw [hgen, PointNode.generation_of_still hview]
    · rw [PointNode.actions_of_still hview]
      exact haction
  finite := h.finite

/-- What a point wants at a beat. -/
def wants (ps : Points α) (id : PointId) (beat : Float) : List (PointEntry α) :=
  match ps.node? id with
  | some node => node.actions.map fun action => ⟨beat, ⟨id, node.generation⟩, action⟩
  | none => []

theorem wanted_of_mem_wants {ps : Points α} {id : PointId} {beat : Float} {e : PointEntry α}
    (hbeat : beat.isFinite = true) (he : e ∈ ps.wants id beat) :
    ps.Wanted e ∧ e.token.point = id := by
  unfold wants at he
  split at he
  · rename_i node hnode
    obtain ⟨action, haction, rfl⟩ := List.mem_map.mp he
    exact ⟨⟨⟨node, hnode, rfl, haction⟩, hbeat⟩, rfl⟩
  · cases he

/-- What a point wants does not depend on beats. -/
theorem wants_of_keeps {ps ps' : Points α} (h : Keeps PointNode.still ps ps') (id : PointId)
    (beat : Float) : ps'.wants id beat = ps.wants id beat := by
  unfold wants
  cases hnode : ps.node? id with
  | none =>
    have hid := h id
    rw [hnode, Option.map_none, Option.map_eq_none_iff] at hid
    rw [hid]
  | some node =>
    obtain ⟨node', hnode', hview⟩ := h.node? hnode
    rw [hnode']
    simp only [PointNode.actions_of_still hview, PointNode.generation_of_still hview]

/-- The value of a point once the root has a beat: that beat for the root, the value of its derivation for
any other point. -/
def valueFrom (ps : Points α) (root : PointId) (beat : Float) (id : PointId) : Option Float :=
  if id = root then some beat else ((ps.node? id).bind (·.derivation)).bind ps.amount

@[simp]
theorem valueFrom_root (ps : Points α) (root : PointId) (beat : Float) :
    ps.valueFrom root beat root = some beat :=
  if_pos rfl

theorem valueFrom_of_derivation {ps : Points α} {root id : PointId} (hid : id ≠ root) (beat : Float)
    {node : PointNode α} (hnode : ps.node? id = some node) {d : Derivation}
    (hd : node.derivation = some d) : ps.valueFrom root beat id = ps.amount d := by
  unfold valueFrom
  rw [if_neg hid, hnode, Option.bind_some, hd, Option.bind_some]

/-- A point other than the root has a value only once its operands have beats. -/
theorem grounded_of_valueFrom {ps : Points α} {root id : PointId} {beat : Float} (hid : id ≠ root)
    (h : (ps.valueFrom root beat id).isSome) : ps.Grounded id := by
  intro d hd
  refine supplies_of_amount ?_
  unfold valueFrom at h
  rwa [if_neg hid, hd, Option.bind_some] at h

/-- The value of a point depends on its derivation and on the beats of its operands. -/
theorem valueFrom_congr {ps ps' : Points α} {root id : PointId} {beat : Float}
    (hderivation : (ps'.node? id).map (·.derivation) = (ps.node? id).map (·.derivation))
    (hbeat : ∀ operand, ps.Names id operand → ps'.beat? operand = ps.beat? operand) :
    ps'.valueFrom root beat id = ps.valueFrom root beat id := by
  have hbind : (ps'.node? id).bind (·.derivation) = (ps.node? id).bind (·.derivation) := by
    have hjoin := congrArg (·.bind fun derivation => derivation) hderivation
    rwa [Option.bind_map, Option.bind_map] at hjoin
  unfold valueFrom
  rw [hbind]
  split_ifs
  · rfl
  · cases hd : (ps.node? id).bind (·.derivation) with
    | none => rfl
    | some d =>
      obtain ⟨node, hnode, hd⟩ := Option.bind_eq_some_iff.mp hd
      exact amount_congr fun operand hoperand => hbeat operand ⟨node, d, hnode, hd, hoperand⟩

end Points

namespace ResolutionWalk

open Points

/-- A walk that went on to give the listed points their beats: each point took the beat it was given,
if any. -/
structure Gives (w w' : ResolutionWalk α) (ids : List PointId) (given : PointId → Option Float) :
    Prop where
  /-- The points that took a beat are settled there, and no other changes. -/
  node : ∀ q, w'.points.node? q = (w.points.node? q).map (·.settle? (given q))
  /-- Each of them asks for what it wants, in the order of the list. -/
  entries : w'.entries = w.entries ++ ids.flatMap fun q => (given q).elim [] (w.points.wants q)
  /-- Only listed points take a beat. -/
  listed : ∀ q, (given q).isSome → q ∈ ids
  /-- The beats are finite. -/
  finite : ∀ q beat, given q = some beat → beat.isFinite = true

namespace Gives

variable {w w' : ResolutionWalk α} {ids : List PointId} {given : PointId → Option Float}

theorem keeps (h : w.Gives w' ids given) : Keeps PointNode.still w.points w'.points := by
  intro q
  rw [h.node, Option.map_map]
  congr 1
  exact funext fun node => node.still_settle? _

theorem eq_none (h : w.Gives w' ids given) {q : PointId} (hq : q ∉ ids) : given q = none :=
  Option.not_isSome_iff_eq_none.mp fun hsome => hq (h.listed q hsome)

/-- A point that is not listed keeps its beat. -/
theorem beat?_eq (h : w.Gives w' ids given) {q : PointId} (hq : q ∉ ids) :
    w'.points.beat? q = w.points.beat? q := by
  unfold beat?
  rw [h.node, h.eq_none hq]
  exact congrArg (Option.bind · _) Option.map_id_apply

/-- The value of a point does not depend on the points that it does not name. -/
theorem valueFrom_eq (h : w.Gives w' ids given) (root : PointId) (beat : Float) {q : PointId}
    (hq : ∀ operand, w.points.Names q operand → operand ∉ ids) :
    w'.points.valueFrom root beat q = w.points.valueFrom root beat q :=
  valueFrom_congr (h.keeps.comp PointNode.derivation q)
    fun operand hnames => h.beat?_eq (hq operand hnames)

/-- A point that comes first goes on by itself, before the others. -/
theorem cons {w'' : ResolutionWalk α} {id : PointId} {later : PointId → Option Float}
    (h : w.Gives w' [id] given) (h' : w'.Gives w'' ids later) (hid : id ∉ ids) :
    w.Gives w'' (id :: ids) fun q => if q = id then given q else later q where
  node := by
    intro q
    rw [h'.node, h.node, Option.map_map]
    split_ifs with hq
    · rw [hq, h'.eq_none hid]
      rfl
    · rw [h.eq_none (mt List.mem_singleton.mp hq)]
      rfl
  entries := by
    have hrest : (ids.flatMap fun q => (later q).elim [] (w'.points.wants q)) =
        ids.flatMap fun q => (if q = id then given q else later q).elim [] (w.points.wants q) := by
      -- What a point wants does not depend on the beats that were given before it.
      refine List.flatMap_congr fun q hq => ?_
      have hne : q ≠ id := fun heq => hid (heq ▸ hq)
      rw [if_neg hne, funext (wants_of_keeps h.keeps q)]
    rw [h'.entries, h.entries, List.append_assoc, hrest]
    simp
  listed := by
    intro q hsome
    split_ifs at hsome with hq
    · exact hq ▸ .head _
    · exact .tail _ (h'.listed q hsome)
  finite := by
    intro q value hvalue
    split_ifs at hvalue
    · exact h.finite q value hvalue
    · exact h'.finite q value hvalue

end Gives

/-- Where nothing changes, nothing was given. -/
theorem gives_nothing {w w' : ResolutionWalk α} (ids : List PointId) (hpoints : w'.points = w.points)
    (hentries : w'.entries = w.entries) : w.Gives w' ids fun _ => none where
  node := fun q => by rw [hpoints]; exact Option.map_id_apply.symm
  entries := by simp [hentries]
  listed := fun _ h => by cases h
  finite := fun _ _ h => by cases h

/-- Settling a point at a finite beat gives it that beat. -/
theorem gives_settle (w : ResolutionWalk α) (id : PointId) {beat : Float}
    (hbeat : beat.isFinite = true) :
    w.Gives (w.settle id beat) [id] fun q => if q = id then some beat else none where
  node := by
    intro q
    unfold settle
    by_cases hq : q = id
    · subst hq
      rw [if_pos rfl]
      cases hnode : w.points.node? q with
      | none => exact hnode
      | some node => simp only [node?_modify, if_true, hnode]; rfl
    · rw [if_neg hq]
      cases hnode : w.points.node? id with
      | none => exact Option.map_id_apply.symm
      | some node => simp only [node?_modify, if_neg hq]; exact Option.map_id_apply.symm
  entries := by
    simp only [List.flatMap_singleton, if_true, Option.elim_some]
    unfold settle wants
    cases w.points.node? id with
    | none => exact (List.append_nil _).symm
    | some node => rfl
  listed := by
    intro q h
    split_ifs at h with hq
    · exact hq ▸ List.mem_singleton_self _
    · cases h
  finite := by
    intro q value h
    split_ifs at h
    cases h
    exact hbeat

/-- The value of a point that was created can be looked up. -/
theorem valueFor_eq {w : ResolutionWalk α} (hlinked : w.points.Linked) (root : PointId)
    (beat : Float) {id : PointId} (hid : w.points.Has id) :
    w.valueFor root beat id = .ok (w.points.valueFrom root beat id) := by
  obtain ⟨node, hnode⟩ := exists_node? hid
  unfold valueFor valueFrom
  split_ifs
  · rfl
  · rw [find_of_node? hnode, hnode, Option.bind_some]
    cases hd : node.derivation with
    | none =>
      simp only [bind, Except.bind, hd]
      rfl
    | some d =>
      simp only [bind, Except.bind, hd]
      exact evaluate_eq fun operand hoperand => hlinked.has_operand hnode hd hoperand

/-- Visiting a point that was created gives it the value it has then, if that is finite. -/
theorem visit_ok {w : ResolutionWalk α} (hlinked : w.points.Linked) (root : PointId)
    (beat : Float) {id : PointId} (hid : w.points.Has id) :
    ∃ w' given, w.visit root beat id = .ok w' ∧ w.Gives w' [id] given ∧
      given id = (w.points.valueFrom root beat id).filter (·.isFinite) := by
  unfold visit
  rw [valueFor_eq hlinked root beat hid]
  simp only [bind, Except.bind]
  cases hvalue : w.points.valueFrom root beat id with
  | none => exact ⟨w, _, rfl, gives_nothing [id] rfl rfl, rfl⟩
  | some value =>
    cases hfinite : value.isFinite with
    | false =>
      -- The point is noted as skipped, and all points stay as they are.
      refine ⟨{ w with skipped := w.skipped ++ [id] }, _, by simp [hfinite, pure, Except.pure],
        gives_nothing [id] rfl rfl, ?_⟩
      rw [Option.filter_some, hfinite]
      rfl
    | true =>
      refine ⟨w.settle id value, _, by simp [hfinite, pure, Except.pure],
        gives_settle w id hfinite, ?_⟩
      rw [Option.filter_some, hfinite, if_pos rfl]
      rfl

/-- Visiting points that were created, in ascending order, gives every one of them the value that it has
at the end. -/
theorem visitAll_ok {w : ResolutionWalk α} (hlinked : w.points.Linked) (root : PointId)
    (beat : Float) {ids : List PointId} (hsorted : ids.Pairwise (·.index < ·.index))
    (hids : ∀ id ∈ ids, w.points.Has id) :
    ∃ w' given, w.visitAll root beat ids = (none, w') ∧ w.Gives w' ids given ∧
      ∀ q ∈ ids, given q = (w'.points.valueFrom root beat q).filter (·.isFinite) := by
  -- By induction on the points that are left, in the walk that the visits before them leave.
  induction ids generalizing w with
  | nil => exact ⟨w, _, rfl, gives_nothing [] rfl rfl, nofun⟩
  | cons id rest ih =>
    obtain ⟨hlater, hsorted⟩ := List.pairwise_cons.mp hsorted
    have hfresh : id ∉ rest := fun hin => lt_irrefl _ (hlater id hin)
    obtain ⟨w₁, first, hvisit, hfirst, hvalue⟩ :=
      visit_ok hlinked root beat (hids id (.head _))
    obtain ⟨w₂, later, hrest, hgives, hvalues⟩ :=
      ih (hlinked.of_keeps (hfirst.keeps.comp links)) hsorted
        fun q hq => (hfirst.keeps.has_iff q).mpr (hids q (.tail _ hq))
    have hall := hfirst.cons hgives hfresh
    refine ⟨w₂, _, ?_, hall, fun q hq => ?_⟩
    · unfold visitAll
      rw [hvisit]
      exact hrest
    · split_ifs with heq
      · subst heq
        -- Its operands are earlier, so neither its own visit nor a later one gives them a beat.
        rw [hvalue, hall.valueFrom_eq root beat fun operand hnames hin => ?_]
        have hlt := hlinked.earlier hnames
        rcases List.mem_cons.mp hin with rfl | hin
        · exact lt_irrefl _ hlt
        · exact lt_asymm hlt (hlater operand hin)
      · exact hvalues q ((List.mem_cons.mp hq).resolve_left heq)

end ResolutionWalk

namespace Points

theorem keeps_unsettle (ps : Points α) (ids : List PointId) :
    Keeps PointNode.still ps (ps.unsettle ids) :=
  keeps_foldl_modify ps ids fun _ => rfl

theorem node?_unsettle (ps : Points α) (ids : List PointId) (q : PointId) :
    (ps.unsettle ids).node? q =
      if q ∈ ids then (ps.node? q).map fun node => { node with beat := none } else ps.node? q := by
  refine node?_foldl_modify_of_idempotent ps ids ?_ q
  exact fun _ => rfl

/-- What a resolution of a point that was created comes to: what the point itself wants at a finite
beat, what points derived from it want, and the next beat if the point is recurring. -/
structure ResolvesTo (ps : Points α) (root : PointId) (beat : Float) (r : Resolved α)
    (others : List (PointEntry α)) : Prop where
  /-- Only beats came and went. -/
  keeps : Keeps PointNode.still ps r.points
  /-- Everything is found. -/
  outcome : r.outcome = .ok ⟨ps.wants root beat ++ others, ps.rearmAfter root beat⟩
  /-- The root takes the beat. -/
  beat : r.points.beat? root = some beat
  /-- The other entries are wanted by points derived from the root. -/
  others : ∀ e ∈ others, ps.Wanted e ∧ e.token.point ≠ root ∧ ps.DerivesFrom e.token.point root

/-- A point moves on by a period after every beat. -/
def Recurs (ps : Points α) (id : PointId) (period : Float) : Prop :=
  ∃ node, ps.node? id = some node ∧ node.kind = .recurring period

theorem Advances.recurs {ps ps' : Points α} {resets : PointId → Prop} (h : Advances ps ps' resets)
    {id : PointId} {period : Float} (hrecurs : ps.Recurs id period) : ps'.Recurs id period := by
  obtain ⟨node, hnode, hkind⟩ := hrecurs
  obtain ⟨node', hnode', hgrows, -⟩ := h.node hnode
  exact ⟨node', hnode', hgrows.kind.trans hkind⟩

theorem isLive_iff {ps : Points α} {token : Token} : ps.isLive token = true ↔
    ∃ node, ps.node? token.point = some node ∧ node.generation = token.generation := by
  simp only [isLive, Option.any_eq_true, decide_eq_true_eq]

/-- A point has one token that is alive. -/
theorem eq_of_isLive {ps : Points α} {token token' : Token} (h : ps.isLive token = true)
    (h' : ps.isLive token' = true) (hpoint : token.point = token'.point) : token = token' := by
  obtain ⟨node, hnode, hgen⟩ := isLive_iff.mp h
  obtain ⟨node', hnode', hgen'⟩ := isLive_iff.mp h'
  rw [← hpoint, hnode] at hnode'
  cases hnode'
  cases token
  cases token'
  exact congrArg₂ Token.mk hpoint (hgen.symm.trans hgen')

/-- The next beat is asked for by a recurring point, in its current generation. -/
theorem rearmAfter_eq_some {ps : Points α} {id : PointId} {beat next : Float} {token : Token}
    (h : ps.rearmAfter id beat = some (next, token)) :
    ∃ period, ps.Recurs id period ∧ next = beat + period ∧ token.point = id ∧
      ps.isLive token = true := by
  unfold rearmAfter at h
  cases hnode : ps.node? id with
  | none => simp [hnode] at h
  | some node =>
    rw [hnode] at h
    simp only [Option.bind_eq_bind, Option.bind_some] at h
    split at h
    · rename_i period hkind
      obtain ⟨rfl, rfl⟩ := Prod.mk.inj (Option.some.inj h)
      exact ⟨period, ⟨node, hnode, hkind⟩, rfl, rfl, isLive_iff.mpr ⟨node, hnode, rfl⟩⟩
    · cases h

/-- What a point asks for after its beat is the next one if it is recurring, and nothing otherwise. -/
theorem rearmAfter_of_node? {ps : Points α} {id : PointId} {node : PointNode α}
    (hnode : ps.node? id = some node) (beat : Float) :
    ps.rearmAfter id beat =
      match node.kind with
      | .recurring period => some (beat + period, ⟨id, node.generation⟩)
      | _ => none := by
  unfold rearmAfter
  rw [hnode]
  rfl

theorem rearmAfter_of_recurs {ps : Points α} {id : PointId} {node : PointNode α} {period : Float}
    (hnode : ps.node? id = some node) (hkind : node.kind = .recurring period) (beat : Float) :
    ps.rearmAfter id beat = some (beat + period, ⟨id, node.generation⟩) := by
  rw [rearmAfter_of_node? hnode, hkind]

/-- A recurring point derives from nothing but itself. -/
theorem eq_of_derivesFrom_of_recurs {ps : Points α} (h : ps.Linked) {q root : PointId}
    {period : Float} (hq : ps.Recurs q period) (hd : ps.DerivesFrom q root) : q = root := by
  obtain ⟨node, hnode, hkind⟩ := hq
  by_contra hne
  obtain ⟨d, hderivation⟩ := exists_derivation hnode hd hne
  rw [(h.recurring hnode hkind).1] at hderivation
  cases hderivation

/-- The next beat that a point asks for does not depend on its beat. -/
theorem rearmAfter_of_keeps {ps ps' : Points α} (h : Keeps PointNode.still ps ps') (id : PointId)
    (beat : Float) : ps'.rearmAfter id beat = ps.rearmAfter id beat := by
  unfold rearmAfter
  cases hnode : ps.node? id with
  | none =>
    have hid := h id
    rw [hnode, Option.map_none, Option.map_eq_none_iff] at hid
    rw [hid]
  | some node =>
    obtain ⟨node', hnode', hview⟩ := h.node? hnode
    rw [hnode']
    simp only [Option.bind_eq_bind, Option.bind_some,
      PointNode.generation_of_still hview, (PointNode.grows_of_still hview).kind]

/-- Moving a point on with its current token resolves it. -/
theorem rearm_of_isLive {ps : Points α} {token : Token} (h : ps.isLive token = true)
    (beat : Float) : ps.rearm token.point beat token = ps.resolve token.point beat := by
  obtain ⟨node, hnode, hgen⟩ := isLive_iff.mp h
  have htoken : token = ⟨token.point, node.generation⟩ := by
    rw [hgen]
  unfold rearm
  rw [find_of_node? hnode]
  exact if_pos htoken

theorem Wanted.isLive {ps : Points α} {e : PointEntry α} (h : ps.Wanted e) :
    ps.isLive e.token = true := by
  obtain ⟨node, hnode, hgen, -⟩ := h.current
  exact isLive_iff.mpr ⟨node, hnode, hgen.symm⟩

/-- Tokens stay alive while beats come and go. -/
theorem isLive_of_keeps {ps ps' : Points α} (h : Keeps PointNode.still ps ps') {token : Token}
    (hlive : ps.isLive token = true) : ps'.isLive token = true := by
  obtain ⟨node, hnode, hgen⟩ := isLive_iff.mp hlive
  obtain ⟨node', hnode', hview⟩ := h.node? hnode
  exact isLive_iff.mpr ⟨node', hnode', (PointNode.generation_of_still hview).trans hgen⟩

/-- Tokens are as alive after beats came and went as they were before. -/
theorem isLive_eq_of_keeps {ps ps' : Points α} (h : Keeps PointNode.still ps ps') (token : Token) :
    ps'.isLive token = ps.isLive token :=
  Bool.eq_iff_iff.mpr ⟨isLive_of_keeps (fun q => (h q).symm), isLive_of_keeps h⟩

/-- Points after a beat was given to one of them: what derives from it was computed again. -/
structure Spreads (ps ps' : Points α) (root : PointId) (beat : Float)
    (given : PointId → Option Float) : Prop where
  /-- What derives from the root lost its beat and took the one it was given, if any. -/
  within : ∀ q, ps.DerivesFrom q root →
    ps'.node? q = (ps.node? q).map fun node => { node with beat := none }.settle? (given q)
  /-- Every other point stays as it is. -/
  beyond : ∀ q, ¬ ps.DerivesFrom q root → ps'.node? q = ps.node? q
  /-- The root took the beat. -/
  taken : given root = some beat
  /-- The beats are finite. -/
  finite : ∀ q value, given q = some value → value.isFinite = true
  /-- Each of them took the value that it has in the end, if that is finite. -/
  computed : ∀ q, ps.DerivesFrom q root →
    given q = (ps'.valueFrom root beat q).filter (·.isFinite)

/-- What the points in a list ask for at the beats that they were given. -/
def wantsAll (ps : Points α) (given : PointId → Option Float) (ids : List PointId) :
    List (PointEntry α) :=
  ids.flatMap fun q => (given q).elim [] (ps.wants q)

theorem mem_wantsAll {ps : Points α} {given : PointId → Option Float} {ids : List PointId}
    {e : PointEntry α} (he : e ∈ ps.wantsAll given ids) :
    ∃ q ∈ ids, ∃ beat, given q = some beat ∧ e ∈ ps.wants q beat := by
  obtain ⟨q, hq, he⟩ := List.mem_flatMap.mp he
  cases hgiven : given q with
  | none =>
    rw [hgiven] at he
    cases he
  | some beat =>
    rw [hgiven] at he
    exact ⟨q, hq, beat, hgiven, he⟩

/-- Only beats come and go. -/
theorem Spreads.keeps {ps ps' : Points α} {root : PointId} {beat : Float}
    {given : PointId → Option Float} (h : ps.Spreads ps' root beat given) :
    Keeps PointNode.still ps ps' := by
  intro q
  by_cases hq : ps.DerivesFrom q root
  · rw [h.within q hq, Option.map_map]
    congr 1
    exact funext fun node => PointNode.still_settle? _ _
  · rw [h.beyond q hq]

/-- What derives from the root has the beat that it was given. -/
theorem Spreads.beat?_eq {ps ps' : Points α} {root : PointId} {beat : Float}
    {given : PointId → Option Float} (h : ps.Spreads ps' root beat given) (hroot : ps.Has root)
    {q : PointId} (hq : ps.DerivesFrom q root) : ps'.beat? q = given q := by
  obtain ⟨node, hnode⟩ := exists_node? (has_of_derivesFrom hroot hq)
  rw [beat?, h.within q hq, hnode]
  cases given q <;> rfl

/-- A derived point took a beat only if its operands have beats. -/
theorem Spreads.grounded {ps ps' : Points α} {root : PointId} {beat : Float}
    {given : PointId → Option Float} (h : ps.Spreads ps' root beat given) {q : PointId}
    (hq : ps.DerivesFrom q root) (hne : q ≠ root) (hsome : (given q).isSome) : ps'.Grounded q := by
  rw [h.computed q hq] at hsome
  exact grounded_of_valueFrom hne (Option.isSome_of_isSome_filter _ _ hsome)

/-- Resolving a point that was created is a walk over what derives from it, after all of that but the point
itself lost its beat. -/
theorem resolve_walk {ps : Points α} (h : ps.Linked) {root : PointId} (hroot : ps.Has root)
    (beat : Float) : ∃ (w : ResolutionWalk α) (given : PointId → Option Float),
      ps.resolve root beat =
        ⟨.ok ⟨w.entries, w.points.rearmAfter root beat⟩, w.points, w.skipped⟩ ∧
      (⟨ps.unsettle (ps.descendants root), [], []⟩ : ResolutionWalk α).Gives w
        (ps.subtree root) given ∧
      ∀ q ∈ ps.subtree root, given q = (w.points.valueFrom root beat q).filter (·.isFinite) := by
  have hkeeps := keeps_unsettle ps (ps.descendants root)
  obtain ⟨w, given, hwalk, hgives, hvalues⟩ :=
    ResolutionWalk.visitAll_ok (w := ⟨ps.unsettle (ps.descendants root), [], []⟩)
      (h.of_keeps (hkeeps.comp links)) root beat (ps.subtree_sorted root) fun q hq =>
        (hkeeps.has_iff q).mpr (has_of_derivesFrom hroot ((mem_subtree_iff h hroot q).mp hq))
  refine ⟨w, given, ?_, hgives, hvalues⟩
  obtain ⟨node, hnode⟩ := exists_node? hroot
  rw [subtree_eq_cons h hroot] at hwalk
  unfold resolve
  rw [find_of_node? hnode]
  simp only [subtree_eq_cons h hroot, List.drop_one, List.tail_cons]
  rw [hwalk]

/-- Whatever the beat, a resolution only lets beats come and go. -/
theorem keeps_resolve {ps : Points α} (h : ps.Linked) {root : PointId} (hroot : ps.Has root)
    (beat : Float) : Keeps PointNode.still ps (ps.resolve root beat).points := by
  obtain ⟨w, given, hresolve, hgives, -⟩ := resolve_walk h hroot beat
  rw [hresolve]
  exact (keeps_unsettle ps (ps.descendants root)).trans hgives.keeps

/-- Resolving a point that was created at a finite beat gives it that beat, and asks for what every point
wants that took a beat. -/
theorem resolve_spreads {ps : Points α} (h : ps.Linked) {root : PointId} (hroot : ps.Has root)
    {beat : Float} (hbeat : beat.isFinite = true) :
    ∃ given, ps.Spreads (ps.resolve root beat).points root beat given ∧
      (ps.resolve root beat).outcome =
        .ok ⟨ps.wantsAll given (ps.subtree root), ps.rearmAfter root beat⟩ := by
  have hcons := subtree_eq_cons h hroot
  have hmem := mem_subtree_iff h hroot
  have hkeeps := keeps_unsettle ps (ps.descendants root)
  obtain ⟨w, given, hresolve, hgives, hvalues⟩ := resolve_walk h hroot beat
  have htaken : given root = some beat := by
    rw [hvalues root ((hmem root).mpr .refl), valueFrom_root, Option.filter_some, if_pos hbeat]
  have hnode (q : PointId) := hgives.node q
  simp only [node?_unsettle] at hnode
  rw [hresolve]
  refine ⟨given, ⟨fun q hq => ?_, fun q hq => ?_, htaken, hgives.finite,
    fun q hq => hvalues q ((hmem q).mpr hq)⟩, ?_⟩
  · rw [hnode]
    split_ifs with hin
    · rw [Option.map_map]
      rfl
    · -- The root keeps its beat until it takes the new one.
      have hq := (hmem q).mpr hq
      rw [hcons] at hq
      obtain rfl := (List.mem_cons.mp hq).resolve_right hin
      rw [htaken]
      rfl
  · have hq : q ∉ ps.subtree root := fun hin => hq ((hmem q).mp hin)
    rw [hnode, hgives.eq_none hq, if_neg]
    · exact Option.map_id_apply
    · rw [hcons] at hq
      exact fun hin => hq (.tail _ hin)
  · have hwants : (ps.unsettle (ps.descendants root)).wants = ps.wants :=
      funext fun q => funext (wants_of_keeps hkeeps q)
    rw [hgives.entries, rearmAfter_of_keeps (hkeeps.trans hgives.keeps), hwants]
    rfl

/-- Resolving a point that was created at a finite beat. -/
theorem resolve_spec {ps : Points α} (h : ps.Linked) {root : PointId} (hroot : ps.Has root)
    {beat : Float} (hbeat : beat.isFinite = true) :
    ∃ others, ps.ResolvesTo root beat (ps.resolve root beat) others := by
  obtain ⟨given, hspreads, houtcome⟩ := resolve_spreads h hroot hbeat
  have hnodup := ps.subtree_nodup root
  have hmem := mem_subtree_iff h hroot
  rw [subtree_eq_cons h hroot] at hnodup hmem
  obtain ⟨node, hnode⟩ := exists_node? hroot
  refine ⟨ps.wantsAll given (ps.descendants root), hspreads.keeps, ?_, ?_, fun e he => ?_⟩
  · rw [houtcome, subtree_eq_cons h hroot, wantsAll, List.flatMap_cons, hspreads.taken]
    rfl
  · unfold beat?
    rw [hspreads.within root .refl, hnode, hspreads.taken]
    rfl
  · obtain ⟨q, hq, value, hgiven, he⟩ := mem_wantsAll he
    obtain ⟨hwanted, rfl⟩ := wanted_of_mem_wants (hspreads.finite q value hgiven) he
    refine ⟨hwanted, fun heq => ?_, (hmem _).mp (.tail _ hq)⟩
    exact (List.nodup_cons.mp hnodup).1 (heq ▸ hq)

end Points

end Cadence
