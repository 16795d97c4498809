import Mathlib
import Cadence.Proofs.Point.Resolution

/-!
# Points that take one beat

A one-shot point takes one beat, and so does a point computed from such points alone. This file defines
these points, proves that they are the ones that are not rebindable, and says what a change may do to one
of them:

- `Points.oneBeat_iff`: the flag of a point tells whether it takes one beat only;
- `Points.Onward`: such a point stays as it is, is created, gets an action, or takes its beat while it
  has none;
- `Onward.books`: its books are kept by each of these: it was resolved at most once, and what was asked for
  it is each of its actions once, at its beat;
- `Spreads.onward`: a resolution is such a change if, before it, a point had a beat only with all its
  operands.
-/

namespace Cadence

variable {α : Type}

namespace Points

/-- The point takes one beat: it is a one-shot point, or computed from points that take one beat. -/
inductive OneBeat (ps : Points α) : PointId → Prop where
  /-- A one-shot point. -/
  | oneShot {id node} (hnode : ps.node? id = some node) (hkind : node.kind = .oneShot) : OneBeat ps id
  /-- A point computed from such points. -/
  | derived {id node d} (hnode : ps.node? id = some node) (hd : node.derivation = some d)
    (hoperands : ∀ operand ∈ d.points, OneBeat ps operand) : OneBeat ps id

theorem OneBeat.exists_node? {ps : Points α} {id : PointId} (h : ps.OneBeat id) :
    ∃ node, ps.node? id = some node := by
  cases h with
  | oneShot hnode => exact ⟨_, hnode⟩
  | derived hnode => exact ⟨_, hnode⟩

/-- A point that takes one beat is not rebindable. -/
theorem OneBeat.rebindable_eq_false {ps : Points α} (h : ps.Linked) {id : PointId}
    (hid : ps.OneBeat id) {node : PointNode α} (hnode : ps.node? id = some node) :
    node.rebindable = false := by
  refine Bool.eq_false_iff.mpr fun hre => ?_
  -- By induction on why the point takes one beat: if it were rebindable, some operand would be.
  induction hid generalizing node with
  | @oneShot id node' hnode' hkind =>
    obtain rfl := Option.some.inj (hnode.symm.trans hnode')
    cases hd : node.derivation with
    | none => exact (h.rebindable_iff hnode hd).mp hre hkind
    | some d =>
      obtain ⟨hderived, -⟩ := h.rebindable_iff_operand hnode hd
      rw [hkind] at hderived
      cases hderived
  | @derived id node' d hnode' hd _ ih =>
    obtain rfl := Option.some.inj (hnode.symm.trans hnode')
    obtain ⟨operand, hoperand, onode, honode, hre'⟩ :=
      (h.rebindable_iff_operand hnode hd).2.mp hre
    exact ih operand hoperand honode hre'

/-- The operands of a point that is not rebindable are not rebindable. -/
theorem rebindable_operand_eq_false {ps : Points α} (h : ps.Linked) {id operand : PointId}
    {node onode : PointNode α} {d : Derivation} (hnode : ps.node? id = some node)
    (hre : node.rebindable = false) (hd : node.derivation = some d) (hoperand : operand ∈ d.points)
    (honode : ps.node? operand = some onode) : onode.rebindable = false := by
  refine Bool.eq_false_iff.mpr fun hre' => ?_
  have hmem := (h.rebindable_iff_operand hnode hd).2.mpr ⟨operand, hoperand, onode, honode, hre'⟩
  rw [hre] at hmem
  cases hmem

/-- The flag of a point tells whether it takes one beat only. -/
theorem oneBeat_iff {ps : Points α} (h : ps.Linked) {id : PointId} {node : PointNode α}
    (hnode : ps.node? id = some node) : ps.OneBeat id ↔ node.rebindable = false := by
  refine ⟨fun hid => hid.rebindable_eq_false h hnode, fun hre => ?_⟩
  -- By induction on the name, since operands were created before the point.
  induction hindex : id.index using Nat.strong_induction_on generalizing id node with
  | _ index ih =>
    subst hindex
    cases hd : node.derivation with
    | none =>
      refine .oneShot hnode (by_contra fun hkind => ?_)
      rw [(h.rebindable_iff hnode hd).mpr hkind] at hre
      cases hre
    | some d =>
      refine .derived hnode hd fun operand hoperand => ?_
      obtain ⟨onode, honode⟩ := exists_node? (h.has_operand hnode hd hoperand)
      have hlt := h.earlier ⟨node, d, hnode, hd, hoperand⟩
      exact ih operand.index hlt honode
        (rebindable_operand_eq_false h hnode hre hd hoperand honode) rfl

/-- What a point that takes one beat is computed from takes one beat. -/
theorem OneBeat.operand {ps : Points α} (h : ps.Linked) {id operand : PointId} (hid : ps.OneBeat id)
    (hnames : ps.Names id operand) : ps.OneBeat operand := by
  obtain ⟨node, d, hnode, hd, hoperand⟩ := hnames
  obtain ⟨onode, honode⟩ := Points.exists_node? (h.has_operand hnode hd hoperand)
  have hre := hid.rebindable_eq_false h hnode
  exact (oneBeat_iff h honode).mpr (rebindable_operand_eq_false h hnode hre hd hoperand honode)

theorem OneBeat.of_derivesFrom {ps : Points α} (h : ps.Linked) {id q : PointId}
    (hid : ps.OneBeat id) (hq : ps.DerivesFrom id q) : ps.OneBeat q := by
  induction hq with
  | refl => exact hid
  | tail _ hnames ih => exact ih.operand h hnames

/-- A set of points that take one beat, with everything that they are computed from. -/
structure OneBeats (ps : Points α) (A : Set PointId) : Prop where
  /-- None of them is rebindable. -/
  rebindable : ∀ {id node}, id ∈ A → ps.node? id = some node → node.rebindable = false
  /-- Their operands belong to them. -/
  operand : ∀ {id operand}, id ∈ A → ps.Names id operand → operand ∈ A

theorem OneBeat.oneBeats {ps : Points α} (h : ps.Linked) {id : PointId} (hid : ps.OneBeat id) :
    ps.OneBeats {q | ps.DerivesFrom id q} where
  rebindable := fun hq hnode => (hid.of_derivesFrom h hq).rebindable_eq_false h hnode
  operand := fun hq hnames => Relation.ReflTransGen.tail hq hnames

namespace OneBeats

variable {ps ps' : Points α} {A : Set PointId}

/-- Points are flagged and computed as they were created. -/
theorem of_advances {resets : PointId → Prop} (h : ps'.OneBeats A) (hps : Advances ps ps' resets) :
    ps.OneBeats A where
  rebindable := by
    intro id node hid hnode
    obtain ⟨node', hnode', hgrows, -⟩ := hps.node hnode
    exact hgrows.rebindable.symm.trans (h.rebindable hid hnode')
  operand := by
    rintro id operand hid ⟨node, d, hnode, hd, hoperand⟩
    obtain ⟨node', hnode', hgrows, -⟩ := hps.node hnode
    exact h.operand hid ⟨node', d, hnode', hgrows.derivation.trans hd, hoperand⟩

theorem of_derivesFrom (h : ps.OneBeats A) {id root : PointId} (hid : id ∈ A)
    (hd : ps.DerivesFrom id root) : root ∈ A := by
  induction hd with
  | refl => exact hid
  | tail _ hnames ih => exact h.operand ih hnames

/-- If they have beats only together with their operands, what derives from one without a beat has
none. -/
theorem beat?_eq_none (h : ps.OneBeats A)
    (hgrounded : ∀ q ∈ A, (ps.beat? q).isSome → ps.Grounded q) {id root : PointId} (hid : id ∈ A)
    (hd : ps.DerivesFrom id root) (hroot : ps.beat? root = none) : ps.beat? id = none := by
  induction hd with
  | refl => exact hroot
  | @tail q r hd hnames ih =>
    -- A beat of the point in between would stand on one of the point that it names.
    refine ih (Option.not_isSome_iff_eq_none.mp fun hsome => ?_)
    have hground := (grounded_iff ps q).mp (hgrounded q (h.of_derivesFrom hid hd) hsome)
    have hoperand := hground r hnames
    rw [hroot] at hoperand
    cases hoperand

end OneBeats

end Points

/-! ## What becomes of a point that takes one beat -/

/-- Some actions at a beat, if there is a finite one. -/
def duesAt (beat : Option Float) (actions : List α) : List (Float × α) :=
  match beat with
  | some beat => if beat.isFinite then actions.map (beat, ·) else []
  | none => []

@[simp]
theorem duesAt_none (actions : List α) : duesAt none actions = [] := rfl

theorem duesAt_some {beat : Float} (h : beat.isFinite = true) (actions : List α) :
    duesAt (some beat) actions = actions.map (beat, ·) :=
  if_pos h

@[simp]
theorem duesAt_nil (beat : Option Float) : duesAt beat ([] : List α) = [] := by
  cases beat with
  | none => rfl
  | some beat => exact ite_self _

theorem duesAt_append (beat : Option Float) (actions actions' : List α) :
    duesAt beat (actions ++ actions') = duesAt beat actions ++ duesAt beat actions' := by
  cases beat with
  | none => rfl
  | some beat =>
    simp only [duesAt]
    split_ifs <;> simp

namespace Points

/-- What a change makes of a point that takes one beat, with what it asks to be queued for it. -/
inductive Onward (ps ps' : Points α) (id : PointId) : List (Float × α) → Prop where
  /-- There is no such point yet. -/
  | absent (hnone : ps.node? id = none) (hnone' : ps'.node? id = none) : Onward ps ps' id []
  /-- The point keeps its beat and its actions. -/
  | stays {node node'} (hnode : ps.node? id = some node) (hnode' : ps'.node? id = some node')
    (hbeat : node'.beat = node.beat) (hresolutions : node'.resolutions = node.resolutions)
    (hactions : node'.actions = node.actions) : Onward ps ps' id []
  /-- The point is created. It has a beat at most if its operands have. -/
  | created {node'} (hnone : ps.node? id = none) (hnode' : ps'.node? id = some node')
    (hfresh : node'.resolutions = 0 ∧ node'.actions = [])
    (hgrounded : node'.beat.isSome → ps'.Grounded id) : Onward ps ps' id []
  /-- An action is attached, and asked for if the point has a beat. -/
  | attached {node action} (hnode : ps.node? id = some node)
    (hnode' : ps'.node? id = some { node with actions := node.actions ++ [action] }) :
    Onward ps ps' id (duesAt node.beat [action])
  /-- The point takes a beat while it has none, and its actions are asked for. -/
  | settled {node beat} (hnode : ps.node? id = some node) (hnone : node.beat = none)
    (hnode' : ps'.node? id = some (node.settle beat)) (hbeat : beat.isFinite = true)
    (hgrounded : ps'.Grounded id) : Onward ps ps' id (node.actions.map (beat, ·))

/-- The books of a point that takes one beat. -/
structure OneBeatBooks (ps : Points α) (id : PointId) (queued : List (Float × α)) : Prop where
  /-- It was not resolved without a beat, and at most once. -/
  resolutions : ∀ node, ps.node? id = some node →
    node.resolutions ≤ if node.beat.isSome then 1 else 0
  /-- Each of its actions was queued once at its beat, if that is finite. -/
  queued : queued.Perm ((ps.node? id).elim [] fun node => duesAt node.beat node.actions)

/-- What holds of what is kept for a point holds of whatever is kept for it. -/
theorem forall_node?_of {ps : Points α} {id : PointId} {node : PointNode α} {P : PointNode α → Prop}
    (hnode : ps.node? id = some node) (h : P node) : ∀ node', ps.node? id = some node' → P node' := by
  rintro node' hnode'
  rwa [← Option.some.inj (hnode.symm.trans hnode')]

namespace Onward

variable {ps ps' : Points α} {id : PointId} {asks : List (Float × α)}

theorem of_node?_eq (h : ps'.node? id = ps.node? id) : Onward ps ps' id [] := by
  cases hnode : ps.node? id with
  | none => exact .absent hnode (h.trans hnode)
  | some node => exact .stays hnode (h.trans hnode) rfl rfl rfl

/-- The beat is kept. -/
theorem beat?_eq (h : Onward ps ps' id asks) {beat : Float} (hbeat : ps.beat? id = some beat) :
    ps'.beat? id = some beat := by
  unfold beat? at hbeat ⊢
  cases h with
  | absent hnone | created hnone =>
    rw [hnone] at hbeat
    cases hbeat
  | stays hnode hnode' hsame =>
    rw [hnode, Option.bind_some] at hbeat
    rw [hnode', Option.bind_some, hsame, hbeat]
  | attached hnode hnode' =>
    rw [hnode] at hbeat
    rw [hnode']
    exact hbeat
  | settled hnode hnone =>
    rw [hnode, Option.bind_some, hnone] at hbeat
    cases hbeat

/-- A beat that is new comes with the beats of all operands. -/
theorem grounded_of_new (h : Onward ps ps' id asks) (hnone : ps.beat? id = none)
    (hsome : (ps'.beat? id).isSome) : ps'.Grounded id := by
  unfold beat? at hnone hsome
  cases h with
  | absent _ hnone' =>
    rw [hnone'] at hsome
    cases hsome
  | stays hnode hnode' hsame =>
    rw [hnode, Option.bind_some] at hnone
    rw [hnode', Option.bind_some, hsame, hnone] at hsome
    cases hsome
  | created _ hnode' _ hgrounded =>
    rw [hnode'] at hsome
    exact hgrounded hsome
  | attached hnode hnode' =>
    rw [hnode, Option.bind_some] at hnone
    rw [hnode', Option.bind_some, hnone] at hsome
    cases hsome
  | settled _ _ _ _ hgrounded => exact hgrounded

/-- The books are kept. -/
theorem books (h : Onward ps ps' id asks) {queued queued' : List (Float × α)}
    (hbooks : ps.OneBeatBooks id queued) (hqueued : queued'.Perm (queued ++ asks)) :
    ps'.OneBeatBooks id queued' := by
  obtain ⟨hcount, hdues⟩ := hbooks
  -- What is queued now is what the books had and what is asked for.
  have hall := hqueued.trans (hdues.append_right asks)
  cases h with
  | absent hnone hnone' =>
    rw [hnone, List.append_nil] at hall
    exact ⟨by simp [hnone'], by rwa [hnone']⟩
  | @stays node node' hnode hnode' hbeat hresolutions hactions =>
    rw [hnode, List.append_nil] at hall
    refine ⟨forall_node?_of hnode' ?_, ?_⟩
    · rw [hresolutions, hbeat]
      exact hcount node hnode
    · rwa [hnode', Option.elim_some, hbeat, hactions]
  | created hnone hnode' hfresh =>
    rw [hnone, List.append_nil] at hall
    refine ⟨forall_node?_of hnode' ?_, ?_⟩
    · rw [hfresh.1]
      exact Nat.zero_le _
    · rwa [hnode', Option.elim_some, hfresh.2, duesAt_nil]
  | @attached node action hnode hnode' =>
    rw [hnode] at hall
    refine ⟨forall_node?_of hnode' (hcount node hnode), ?_⟩
    rwa [hnode', Option.elim_some, duesAt_append]
  | @settled node beat hnode hnone hnode' hbeat =>
    rw [hnode, Option.elim_some, hnone, duesAt_none, List.nil_append] at hall
    have hzero : node.resolutions ≤ 0 := by simpa [hnone] using hcount node hnode
    refine ⟨forall_node?_of hnode' (Nat.succ_le_succ hzero), ?_⟩
    rwa [hnode', Option.elim_some, PointNode.settle, duesAt_some hbeat]

/-- Where a point comes from matters only by what is kept for it. -/
theorem of_left {ps₀ : Points α} (h : Onward ps ps' id asks) (heq : ps.node? id = ps₀.node? id) :
    Onward ps₀ ps' id asks := by
  cases h with
  | absent hnone hnone' => exact .absent (heq ▸ hnone) hnone'
  | stays hnode hnode' hbeat hresolutions hactions =>
    exact .stays (heq ▸ hnode) hnode' hbeat hresolutions hactions
  | created hnone hnode' hfresh hgrounded => exact .created (heq ▸ hnone) hnode' hfresh hgrounded
  | attached hnode hnode' => exact .attached (heq ▸ hnode) hnode'
  | settled hnode hnone hnode' hbeat hgrounded =>
    exact .settled (heq ▸ hnode) hnone hnode' hbeat hgrounded

end Onward

/-- If every point in the set goes on like this, points in the set still have beats only with their
operands. -/
theorem OneBeats.grounded {ps ps' : Points α} {A : Set PointId} {resets : PointId → Prop}
    (hA : ps'.OneBeats A) (hps : Advances ps ps' resets)
    (honward : ∀ q ∈ A, ∃ asks, Onward ps ps' q asks)
    (hgrounded : ∀ q ∈ A, (ps.beat? q).isSome → ps.Grounded q) :
    ∀ q ∈ A, (ps'.beat? q).isSome → ps'.Grounded q := by
  intro q hq hsome
  obtain ⟨asks, hstep⟩ := honward q hq
  cases hbeat : ps.beat? q with
  | none => exact hstep.grounded_of_new hbeat hsome
  | some beat =>
    -- The point had its beat before, so its operands had theirs, and beats are kept.
    obtain ⟨node, hnode, -⟩ := Option.bind_eq_some_iff.mp hbeat
    obtain ⟨node', hnode', hgrows, -⟩ := hps.node hnode
    rw [grounded_iff]
    rintro operand ⟨node'', d, hnode'', hd, hoperand⟩
    obtain rfl := Option.some.inj (hnode'.symm.trans hnode'')
    have hold := (grounded_iff ps q).mp (hgrounded q hq (by rw [hbeat]; rfl)) operand
      ⟨node, d, hnode, hgrows.derivation.symm.trans hd, hoperand⟩
    obtain ⟨value, hvalue⟩ := Option.isSome_iff_exists.mp hold
    obtain ⟨_, hoperandStep⟩ := honward operand (hA.operand hq ⟨node', d, hnode', hd, hoperand⟩)
    exact Option.isSome_of_eq_some (hoperandStep.beat?_eq hvalue)

/-! ## What operations on points make of one -/

/-- Creating a point that is not derived. -/
theorem onward_insert (ps : Points α) (kind : PointKind) (id : PointId) :
    Onward ps (ps.insert kind).2 id [] := by
  have hnode := node?_insert ps kind id
  by_cases hid : id = ps.nextId
  · rw [if_pos hid] at hnode
    refine .created (hid ▸ ps.node?_nextId) hnode ⟨rfl, rfl⟩ fun hsome => ?_
    cases hsome
  · rw [if_neg hid] at hnode
    exact .of_node?_eq hnode

/-- Attaching an action to a point that takes one beat asks for it if there is a beat, whatever the time
is. -/
theorem addAction_of_not_rebindable {ps : Points α} {id : PointId} {node : PointNode α}
    (hnode : ps.node? id = some node) (hre : node.rebindable = false) (action : α) (now : Float) :
    (ps.addAction id action now).1 =
      .ok (node.beat.map fun beat => ⟨beat, ⟨id, node.generation⟩, action⟩) := by
  unfold addAction
  rw [find_of_node? hnode]
  cases hbeat : node.beat with
  | none => simp only [hbeat]; rfl
  | some beat => simp only [hbeat, hre, Bool.false_and]; rfl

/-- Creating a point computed from others. -/
theorem onward_derive {ps : Points α} {d : Derivation} (h : ∀ id ∈ d.points, ps.Has id)
    (id : PointId) : Onward ps (ps.derive d).2 id [] := by
  obtain ⟨rebindable, hderive, -⟩ := node?_derive h
  have hnode := hderive id
  split_ifs at hnode with hid hoperand
  · refine .created (hid ▸ ps.node?_nextId) hnode ⟨rfl, rfl⟩ fun hsome d' hd' operand hoperand => ?_
    rw [hnode] at hd'
    cases hd'
    -- The operands keep the beats that they had before.
    have hbeat := supplies_of_amount hsome operand hoperand
    unfold beat? at hbeat ⊢
    rw [hderive, if_neg (ne_nextId (h operand hoperand)), if_pos hoperand]
    cases honode : ps.node? operand with
    | none =>
      rw [honode] at hbeat
      cases hbeat
    | some onode =>
      rw [honode] at hbeat
      rw [Option.map_some, addChild_eq]
      exact hbeat
  · cases hold : ps.node? id with
    | none =>
      rw [hold] at hnode
      exact .absent hold hnode
    | some node =>
      rw [hold, Option.map_some, addChild_eq] at hnode
      exact .stays hold hnode rfl rfl rfl
  · exact .of_node?_eq hnode

end Points

/-- The beat and the action of an entry that the point wants. -/
def PointEntry.deedOf? (p : PointId) (e : PointEntry α) : Option (Float × α) :=
  if e.token.point = p then some (e.beat, e.action) else none

namespace Points

/-- What a point wants at a beat is its own actions. -/
theorem filterMap_wants (ps : Points α) (id : PointId) (beat : Float) (p : PointId) :
    (ps.wants id beat).filterMap (·.deedOf? p) =
      if id = p then (ps.node? p).elim [] fun node => node.actions.map (beat, ·) else [] := by
  unfold wants
  split_ifs with hid
  · subst hid
    cases ps.node? id with
    | none => rfl
    | some node => simp [PointEntry.deedOf?]
  · cases ps.node? id with
    | none => rfl
    | some node => simp [PointEntry.deedOf?, hid]

/-- So is what it wants among others at the beats that they were given. -/
theorem filterMap_wantsAll (ps : Points α) (given : PointId → Option Float) {ids : List PointId}
    (hids : ids.Nodup) (p : PointId) :
    (ps.wantsAll given ids).filterMap (·.deedOf? p) =
      if p ∈ ids then
        (given p).elim [] fun beat => (ps.node? p).elim [] fun node => node.actions.map (beat, ·)
      else [] := by
  induction ids with
  | nil => rfl
  | cons id rest ih =>
    obtain ⟨hfresh, hrest⟩ := List.nodup_cons.mp hids
    have hsplit : (ps.wantsAll given (id :: rest)).filterMap (·.deedOf? p) =
        ((given id).elim [] (ps.wants id)).filterMap (·.deedOf? p) ++
          (ps.wantsAll given rest).filterMap (·.deedOf? p) := by
      rw [wantsAll, List.flatMap_cons, List.filterMap_append]
      rfl
    rw [hsplit, ih hrest]
    -- The list names each point once, so the rest says nothing about the first one.
    by_cases hid : id = p
    · subst hid
      rw [if_neg hfresh, List.append_nil, if_pos (List.mem_cons_self ..)]
      cases given id with
      | none => rfl
      | some beat => exact (ps.filterMap_wants id beat id).trans (if_pos rfl)
    · have hhead : ((given id).elim [] (ps.wants id)).filterMap (·.deedOf? p) = [] := by
        cases given id with
        | none => rfl
        | some beat => exact (ps.filterMap_wants id beat p).trans (if_neg hid)
      simp [hhead, Ne.symm hid]

/-- A resolution gives a point its beat only while it has none, if it is unbound whenever it is computed
from the root. What is asked for it then is its actions. -/
theorem Spreads.onward {ps ps' : Points α} (h : ps.Linked) {root : PointId} (hroot : ps.Has root)
    {beat : Float} {given : PointId → Option Float} (hspreads : ps.Spreads ps' root beat given)
    {id : PointId} (hunbound : ps.DerivesFrom id root → ps.beat? id = none)
    (hgrounded : id = root → ps.Grounded root) :
    Onward ps ps' id ((ps.wantsAll given (ps.subtree root)).filterMap (·.deedOf? id)) := by
  have hmem := mem_subtree_iff h hroot id
  rw [filterMap_wantsAll ps given (ps.subtree_nodup root)]
  by_cases hd : ps.DerivesFrom id root
  swap
  · rw [if_neg (mt hmem.mp hd)]
    exact .of_node?_eq (hspreads.beyond id hd)
  rw [if_pos (hmem.mpr hd)]
  obtain ⟨node, hnode⟩ := exists_node? (has_of_derivesFrom hroot hd)
  have hnone := hunbound hd
  unfold beat? at hnone
  rw [hnode, Option.bind_some] at hnone
  have hnode' := hspreads.within id hd
  -- The point is unbound, so the resolution takes no beat from it.
  have hsame : { node with beat := none } = node := by rw [← hnone]
  rw [hnode, Option.map_some, hsame] at hnode'
  simp only [hnode, Option.elim_some]
  cases hgiven : given id with
  | none =>
    rw [hgiven] at hnode'
    exact .stays hnode hnode' rfl rfl rfl
  | some value =>
    rw [hgiven] at hnode'
    refine .settled hnode hnone hnode' (hspreads.finite id value hgiven) ?_
    by_cases heq : id = root
    · -- The operands of the root do not derive from it.
      subst heq
      rw [grounded_iff]
      intro operand hnames
      have hnames := (Keeps.names_iff (hspreads.keeps.comp (·.derivation)) id operand).mp hnames
      have hbeyond : ¬ ps.DerivesFrom operand id := fun hd =>
        absurd (h.index_le hd) (not_le.mpr (h.earlier hnames))
      have hbeat := (grounded_iff ps id).mp (hgrounded rfl) operand hnames
      unfold beat? at hbeat ⊢
      rwa [hspreads.beyond operand hbeyond]
    · exact hspreads.grounded hd heq (hgiven ▸ rfl)

end Points

end Cadence
