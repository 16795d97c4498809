import Mathlib
import Cadence.Point.Basic

/-!
# Which points derive from which

Points are only ever added, a derived point names earlier points as operands, and a point lists as
children exactly the points that name it. This file calls such points linked, defines what it means
for a point to derive from another one, and proves:

- `Points.linked_insert` and `Points.linked_derive`: creating points keeps them linked;
- `Points.Linked.index_le`: what derives from a point was not created before it.
-/

namespace Cadence

variable {α : Type}

namespace Points

/-! ## Looking points up -/

/-- A point of that name was created. -/
def Has (ps : Points α) (id : PointId) : Prop := id.index < ps.size

instance (ps : Points α) (id : PointId) : Decidable (ps.Has id) := Nat.decLt _ _

theorem node?_isSome_iff (ps : Points α) (id : PointId) : (ps.node? id).isSome ↔ ps.Has id := by
  simp [node?, Has, size]

theorem exists_node? {ps : Points α} {id : PointId} (h : ps.Has id) :
    ∃ node, ps.node? id = some node :=
  Option.isSome_iff_exists.mp ((ps.node?_isSome_iff id).mpr h)

theorem has_of_node? {ps : Points α} {id : PointId} {node : PointNode α}
    (h : ps.node? id = some node) : ps.Has id :=
  (ps.node?_isSome_iff id).mp (by rw [h]; rfl)

theorem node?_eq_none {ps : Points α} {id : PointId} (h : ¬ ps.Has id) : ps.node? id = none :=
  Option.not_isSome_iff_eq_none.mp (mt (ps.node?_isSome_iff id).mp h)

theorem find_of_node? {ps : Points α} {id : PointId} {node : PointNode α}
    (h : ps.node? id = some node) : ps.find id = .ok node := by
  simp [find, h]

/-- A change of one point does not touch the others. -/
theorem node?_modify (ps : Points α) (id : PointId) (change : PointNode α → PointNode α)
    (q : PointId) :
    (ps.modify id change).node? q = if q = id then (ps.node? q).map change else ps.node? q := by
  obtain ⟨i⟩ := id
  obtain ⟨j⟩ := q
  simp only [modify, node?, Array.getElem?_modify, PointId.mk.injEq]
  by_cases h : i = j
  · rw [if_pos h, if_pos h.symm]
  · rw [if_neg h, if_neg (Ne.symm h)]

@[simp]
theorem size_modify (ps : Points α) (id : PointId) (change : PointNode α → PointNode α) :
    (ps.modify id change).size = ps.size := by
  simp [modify, size]

/-- The point that was created last is kept behind all others. -/
theorem node?_push (ps : Points α) (node : PointNode α) (q : PointId) :
    (⟨ps.nodes.push node⟩ : Points α).node? q = if q = ps.nextId then some node else ps.node? q := by
  obtain ⟨j⟩ := q
  simp only [node?, nextId, size, Array.getElem?_push, PointId.mk.injEq]

/-- A change of several points, each once, does not touch the others. -/
theorem node?_foldl_modify (ps : Points α) {ids : List PointId} (hids : ids.Nodup)
    (change : PointNode α → PointNode α) (q : PointId) :
    (ids.foldl (fun ps id => ps.modify id change) ps).node? q =
      if q ∈ ids then (ps.node? q).map change else ps.node? q := by
  induction ids generalizing ps with
  | nil => simp
  | cons id rest ih =>
    obtain ⟨hid, hrest⟩ := List.nodup_cons.mp hids
    rw [List.foldl_cons, ih _ hrest, node?_modify]
    by_cases hq : q = id
    · subst hq
      rw [if_neg hid, if_pos rfl, if_pos (.head _)]
    · rw [if_neg hq]
      simp [hq]

/-- Nor does a change of several points that does nothing a second time. -/
theorem node?_foldl_modify_of_idempotent (ps : Points α) (ids : List PointId)
    {change : PointNode α → PointNode α} (hchange : ∀ node, change (change node) = change node)
    (q : PointId) :
    (ids.foldl (fun ps id => ps.modify id change) ps).node? q =
      if q ∈ ids then (ps.node? q).map change else ps.node? q := by
  induction ids generalizing ps with
  | nil => simp
  | cons id rest ih =>
    rw [List.foldl_cons, ih, node?_modify]
    by_cases hq : q = id
    · subst hq
      have hmem : q ∈ q :: rest := .head _
      rw [if_pos rfl, if_pos hmem, Option.map_map]
      split_ifs
      · congr 1
        exact funext hchange
      · rfl
    · rw [if_neg hq]
      simp [hq]

/-! ## What a change leaves alone -/

/-- Part of what is kept for each point is the same after a change. -/
def Keeps {γ : Type} (view : PointNode α → γ) (ps ps' : Points α) : Prop :=
  ∀ id, (ps'.node? id).map view = (ps.node? id).map view

namespace Keeps

variable {γ δ : Type} {view : PointNode α → γ} {ps ps' ps'' : Points α}

theorem refl (ps : Points α) : Keeps view ps ps := fun _ => rfl

theorem trans (h : Keeps view ps ps') (h' : Keeps view ps' ps'') : Keeps view ps ps'' :=
  fun id => (h' id).trans (h id)

theorem comp (f : γ → δ) (h : Keeps view ps ps') : Keeps (f ∘ view) ps ps' := by
  intro id
  rw [← Option.map_map, ← Option.map_map, h id]

theorem has_iff (h : Keeps view ps ps') (id : PointId) : ps'.Has id ↔ ps.Has id := by
  rw [← node?_isSome_iff, ← node?_isSome_iff, ← Option.isSome_map (f := view), h id,
    Option.isSome_map]

theorem nextId_eq (h : Keeps view ps ps') : ps'.nextId = ps.nextId :=
  congrArg PointId.mk (eq_of_forall_lt_iff fun n => h.has_iff ⟨n⟩)

/-- What is kept for a point afterwards looks like what was kept before. -/
theorem node? (h : Keeps view ps ps') {id : PointId} {node : PointNode α}
    (hnode : ps.node? id = some node) : ∃ node', ps'.node? id = some node' ∧
      view node' = view node := by
  have hid := h id
  rw [hnode, Option.map_some, Option.map_eq_some_iff] at hid
  exact hid

/-- What was kept for a point before looks like what is kept afterwards. -/
theorem node?_symm (h : Keeps view ps ps') {id : PointId} {node' : PointNode α}
    (hnode : ps'.node? id = some node') : ∃ node, ps.node? id = some node ∧
      view node' = view node := by
  have hid := h id
  rw [hnode, Option.map_some] at hid
  obtain ⟨node, hnode, hview⟩ := Option.map_eq_some_iff.mp hid.symm
  exact ⟨node, hnode, hview.symm⟩

end Keeps

/-- What is read off a part of what is kept for a point is the same if that part is. -/
theorem elim_node?_congr {γ : Type} {view : PointNode α → γ} {ps ps' : Points α} {q : PointId}
    (h : (ps'.node? q).map view = (ps.node? q).map view) (none : γ) :
    (ps'.node? q).elim none view = (ps.node? q).elim none view := by
  have hview := congrArg (·.elim none id) h
  simp only [Option.elim_map] at hview
  exact hview

/-- A change of one point keeps what the change keeps. -/
theorem keeps_modify {γ : Type} {view : PointNode α → γ} (ps : Points α) (id : PointId)
    {change : PointNode α → PointNode α} (h : ∀ node, view (change node) = view node) :
    Keeps view ps (ps.modify id change) := by
  intro q
  rw [node?_modify]
  split_ifs
  · rw [Option.map_map]
    congr 1
    exact funext h
  · rfl

/-- So does a change of several points. -/
theorem keeps_foldl_modify {γ : Type} {view : PointNode α → γ} (ps : Points α)
    (ids : List PointId) {change : PointNode α → PointNode α}
    (h : ∀ node, view (change node) = view node) :
    Keeps view ps (ids.foldl (fun ps id => ps.modify id change) ps) := by
  induction ids generalizing ps with
  | nil => exact .refl ps
  | cons id rest ih => exact (keeps_modify ps id h).trans (ih _)

/-! ## Linked points -/

/-- The point names the other one as an operand. -/
def Names (ps : Points α) (child parent : PointId) : Prop :=
  ∃ node d, ps.node? child = some node ∧ node.derivation = some d ∧ parent ∈ d.points

/-- The point takes another beat while it has one. -/
def Rebindable (ps : Points α) (id : PointId) : Prop :=
  ∃ node, ps.node? id = some node ∧ node.rebindable = true

/-- Whether a point takes another beat is as its kind and its operands have it: a one-shot point does not,
any other that is not derived does, and a derived one does if some operand does. -/
def Flagged (ps : Points α) (node : PointNode α) : Prop :=
  match node.derivation with
  | none => node.rebindable = true ↔ node.kind ≠ .oneShot
  | some d => node.kind = .derived ∧
      (node.rebindable = true ↔ ∃ id ∈ d.points, ps.Rebindable id)

/-- Derived points name earlier ones, and these list them as children. -/
structure Linked (ps : Points α) : Prop where
  /-- An operand was created before the point that names it. -/
  earlier : ∀ {child parent}, ps.Names child parent → parent.index < child.index
  /-- The children of a point are the points that name it. -/
  children_iff : ∀ {parent node}, ps.node? parent = some node →
    ∀ child, child ∈ node.children ↔ ps.Names child parent
  /-- Every point is flagged. -/
  flagged : ∀ {id node}, ps.node? id = some node → ps.Flagged node

/-- A point that is not derived takes another beat unless it is a one-shot point. -/
theorem Linked.rebindable_iff {ps : Points α} (h : ps.Linked) {id : PointId} {node : PointNode α}
    (hnode : ps.node? id = some node) (hd : node.derivation = none) :
    node.rebindable = true ↔ node.kind ≠ .oneShot := by
  have hflagged := h.flagged hnode
  unfold Flagged at hflagged
  rwa [hd] at hflagged

/-- A derived point does if some operand does. -/
theorem Linked.rebindable_iff_operand {ps : Points α} (h : ps.Linked) {id : PointId}
    {node : PointNode α} (hnode : ps.node? id = some node) {d : Derivation}
    (hd : node.derivation = some d) :
    node.kind = .derived ∧ (node.rebindable = true ↔ ∃ id ∈ d.points, ps.Rebindable id) := by
  have hflagged := h.flagged hnode
  unfold Flagged at hflagged
  rwa [hd] at hflagged

/-- A recurring point is not computed from others and takes any number of beats. -/
theorem Linked.recurring {ps : Points α} (h : ps.Linked) {id : PointId} {node : PointNode α}
    (hnode : ps.node? id = some node) {period : Float} (hkind : node.kind = .recurring period) :
    node.derivation = none ∧ node.rebindable = true := by
  cases hd : node.derivation with
  | none =>
    refine ⟨rfl, (h.rebindable_iff hnode hd).mpr ?_⟩
    rw [hkind]
    exact nofun
  | some d =>
    obtain ⟨hderived, -⟩ := h.rebindable_iff_operand hnode hd
    rw [hkind] at hderived
    cases hderived

/-- A derived point was created after its operands. -/
theorem Linked.has_operand {ps : Points α} (h : ps.Linked) {id : PointId} {node : PointNode α}
    (hnode : ps.node? id = some node) {d : Derivation} (hd : node.derivation = some d)
    {operand : PointId} (hoperand : operand ∈ d.points) : ps.Has operand :=
  (h.earlier ⟨node, d, hnode, hd, hoperand⟩).trans (has_of_node? hnode)

/-- Points that are rebindable as before are flagged as before. -/
theorem Flagged.of_rebindable_iff {ps ps' : Points α} {node node' : PointNode α}
    (h : ps.Flagged node) (hkind : node'.kind = node.kind)
    (hrebindable : node'.rebindable = node.rebindable)
    (hderivation : node'.derivation = node.derivation)
    (hiff : ∀ d, node.derivation = some d → ∀ id ∈ d.points,
      (ps'.Rebindable id ↔ ps.Rebindable id)) : ps'.Flagged node' := by
  unfold Flagged at h ⊢
  rw [hderivation]
  cases hd : node.derivation with
  | none =>
    rw [hd] at h
    rwa [hrebindable, hkind]
  | some d =>
    rw [hd] at h
    refine ⟨hkind.trans h.1, ?_⟩
    rw [hrebindable, h.2]
    exact exists_congr fun id => and_congr_right fun hid => (hiff d hd id hid).symm

theorem linked_empty : (empty : Points α).Linked where
  earlier := by
    rintro child parent ⟨node, d, hnode, -⟩
    simp [empty, node?] at hnode
  children_iff := by
    intro parent node hnode
    simp [empty, node?] at hnode
  flagged := by
    intro id node hnode
    simp [empty, node?] at hnode

/-- What links points: how they are computed, and their children. -/
def links (node : PointNode α) : Option Derivation × List PointId × PointKind × Bool :=
  (node.derivation, node.children, node.kind, node.rebindable)

/-- What a point names depends on its derivation alone. -/
theorem names_iff_of_derivation {ps ps' : Points α} {child : PointId}
    (h : (ps'.node? child).map (·.derivation) = (ps.node? child).map (·.derivation))
    (parent : PointId) : ps'.Names child parent ↔ ps.Names child parent := by
  have hnames (qs : Points α) : qs.Names child parent ↔
      ∃ derivation ∈ (qs.node? child).map (·.derivation), ∃ d ∈ derivation, parent ∈ d.points := by
    unfold Names
    cases qs.node? child <;> simp
  rw [hnames, hnames, h]

theorem Keeps.names_iff {ps ps' : Points α} (h : Keeps (·.derivation) ps ps')
    (child parent : PointId) : ps'.Names child parent ↔ ps.Names child parent :=
  names_iff_of_derivation (h child) parent

/-- Whether a point is rebindable depends on its flag alone. -/
theorem rebindable_iff_of_flag {ps ps' : Points α} {id : PointId}
    (h : (ps'.node? id).map (·.rebindable) = (ps.node? id).map (·.rebindable)) :
    ps'.Rebindable id ↔ ps.Rebindable id := by
  have hflag (qs : Points α) : qs.Rebindable id ↔ (qs.node? id).map (·.rebindable) = some true :=
    Option.map_eq_some_iff.symm
  rw [hflag, hflag, h]

/-- A change that leaves the links alone keeps points linked. -/
theorem Linked.of_keeps {ps ps' : Points α} (h : ps.Linked) (hkeeps : Keeps links ps ps') :
    ps'.Linked where
  earlier := fun hnames =>
    h.earlier (((hkeeps.comp Prod.fst).names_iff _ _).mp hnames)
  children_iff := by
    intro parent node' hnode' child
    obtain ⟨node, hnode, hview⟩ := hkeeps.node?_symm hnode'
    rw [(hkeeps.comp Prod.fst).names_iff, ← h.children_iff hnode child,
      show node'.children = node.children from congrArg (·.2.1) hview]
  flagged := by
    intro id node' hnode'
    obtain ⟨node, hnode, hview⟩ := hkeeps.node?_symm hnode'
    have hflags := hkeeps.comp (·.2.2.2)
    exact (h.flagged hnode).of_rebindable_iff (congrArg (·.2.2.1) hview)
      (congrArg (·.2.2.2) hview) (congrArg Prod.fst hview)
      fun _ _ id _ => rebindable_iff_of_flag (hflags id)

/-! ## Creating points -/

theorem node?_nextId (ps : Points α) : ps.node? ps.nextId = none := by
  rw [← Option.not_isSome_iff_eq_none, node?_isSome_iff]
  exact lt_irrefl _

theorem ne_nextId {ps : Points α} {id : PointId} (h : ps.Has id) : id ≠ ps.nextId := by
  rintro rfl
  exact lt_irrefl _ h

/-- Nobody names a point before it is created. -/
theorem Linked.not_names_nextId {ps : Points α} (h : ps.Linked) (child : PointId) :
    ¬ ps.Names child ps.nextId := by
  intro hnames
  obtain ⟨node, d, hchild, -⟩ := id hnames
  exact absurd ((h.earlier hnames).trans (has_of_node? hchild)) (lt_irrefl _)

/-- A new point without children adds only the names of its own operands. -/
theorem names_push (ps : Points α) (node : PointNode α) (child parent : PointId) :
    (⟨ps.nodes.push node⟩ : Points α).Names child parent ↔
      ps.Names child parent ∨
        child = ps.nextId ∧ ∃ d, node.derivation = some d ∧ parent ∈ d.points := by
  unfold Names
  rw [node?_push]
  by_cases h : child = ps.nextId
  · subst h
    rw [if_pos rfl, node?_nextId]
    simp
  · rw [if_neg h]
    simp [h]

/-- A point that is not derived is created without links. -/
theorem node?_insert (ps : Points α) (kind : PointKind) (q : PointId) :
    (ps.insert kind).2.node? q =
      if q = ps.nextId then some (.fresh kind (kind ≠ .oneShot) none) else ps.node? q :=
  node?_push ps _ q

/-- Creating a point that is not derived keeps points linked. -/
theorem linked_insert {ps : Points α} (h : ps.Linked) (kind : PointKind) :
    (ps.insert kind).2.Linked := by
  have hnames (child parent : PointId) :
      (ps.insert kind).2.Names child parent ↔ ps.Names child parent := by
    refine (names_push ps _ child parent).trans ?_
    simp [PointNode.fresh]
  constructor
  · intro child parent hchild
    exact h.earlier ((hnames child parent).mp hchild)
  · intro parent node hnode child
    rw [hnames]
    rw [node?_insert] at hnode
    split_ifs at hnode with heq
    · subst heq
      cases hnode
      constructor
      · intro hin
        simp [PointNode.fresh] at hin
      · intro hn
        exact absurd hn (h.not_names_nextId child)
    · exact h.children_iff hnode child
  · intro id node hnode
    rw [node?_insert] at hnode
    split_ifs at hnode
    · cases hnode
      exact decide_eq_true_iff
    · refine (h.flagged hnode).of_rebindable_iff rfl rfl rfl fun d hd operand hoperand => ?_
      refine rebindable_iff_of_flag ?_
      rw [node?_insert, if_neg (ne_nextId (h.has_operand hnode hd hoperand))]

/-- The search for a rebindable point goes on after one that is not. -/
theorem anyRebindable_cons_of_node? {ps : Points α} {id : PointId} {node : PointNode α}
    (hnode : ps.node? id = some node) (rest : List PointId) :
    ps.anyRebindable (id :: rest) =
      if node.rebindable then .ok true else ps.anyRebindable rest := by
  conv_lhs => unfold anyRebindable
  rw [find_of_node? hnode]
  rfl

/-- Whether some point is rebindable can be answered for points that were created. -/
theorem anyRebindable_ok {ps : Points α} {ids : List PointId} (h : ∀ id ∈ ids, ps.Has id) :
    ∃ answer, ps.anyRebindable ids = .ok answer ∧
      (answer = true ↔ ∃ id ∈ ids, ps.Rebindable id) := by
  induction ids with
  | nil => exact ⟨false, rfl, by simp⟩
  | cons id rest ih =>
    obtain ⟨node, hnode⟩ := exists_node? (h id (.head _))
    obtain ⟨answer, hrest, hiff⟩ := ih fun q hq => h q (.tail _ hq)
    rw [anyRebindable_cons_of_node? hnode]
    cases hre : node.rebindable
    · refine ⟨answer, hrest, ?_⟩
      have hnot : ¬ ps.Rebindable id := by
        rintro ⟨node', hnode', hr⟩
        rw [hnode] at hnode'
        cases hnode'
        rw [hre] at hr
        cases hr
      simp [hiff, hnot]
    · refine ⟨true, rfl, ?_⟩
      simp only [true_iff]
      exact ⟨id, .head _, node, hnode, hre⟩

/-- The value of an operand, as far as its point has a beat. -/
def worth (ps : Points α) : Operand → Option Float
  | .scalar value => some value
  | .point id => ps.beat? id

/-- The value of a derivation, as far as its operands have values. -/
def amount (ps : Points α) (d : Derivation) : Option Float :=
  (ps.worth d.lhs).bind fun lhs => (ps.worth d.rhs).map (d.op.apply lhs)

/-- A derivation has a value exactly if both sides have one. -/
theorem amount_eq_some_iff {ps : Points α} {d : Derivation} {value : Float} :
    ps.amount d = some value ↔ ∃ lhs rhs, ps.worth d.lhs = some lhs ∧ ps.worth d.rhs = some rhs ∧
      d.op.apply lhs rhs = value := by
  simp only [amount, Option.bind_eq_some_iff, Option.map_eq_some_iff, exists_and_left]

theorem valueOf_of_node? {ps : Points α} {id : PointId} {node : PointNode α}
    (hnode : ps.node? id = some node) : ps.valueOf (.point id) = .ok node.beat := by
  change (ps.find id).map (·.beat) = _
  rw [find_of_node? hnode]
  rfl

/-- The value of an operand can be looked up if its point was created. -/
theorem valueOf_eq {ps : Points α} {o : Operand} (h : ∀ id, o.point? = some id → ps.Has id) :
    ps.valueOf o = .ok (ps.worth o) := by
  cases o with
  | scalar value => rfl
  | point id =>
    obtain ⟨node, hnode⟩ := exists_node? (h id rfl)
    rw [valueOf_of_node? hnode, worth, beat?, hnode, Option.bind_some]

/-- Every operand of a derivation has a beat. -/
def Supplies (ps : Points α) (d : Derivation) : Prop := ∀ id ∈ d.points, (ps.beat? id).isSome

instance (ps : Points α) (d : Derivation) : Decidable (ps.Supplies d) :=
  inferInstanceAs (Decidable (∀ id ∈ d.points, (ps.beat? id).isSome))

/-- Every operand of the point has a beat. A point that is not derived has no operands. -/
def Grounded (ps : Points α) (id : PointId) : Prop :=
  ∀ d ∈ (ps.node? id).bind (·.derivation), ps.Supplies d

instance (ps : Points α) (id : PointId) : Decidable (ps.Grounded id) :=
  inferInstanceAs (Decidable (∀ d ∈ (ps.node? id).bind (·.derivation), ps.Supplies d))

theorem grounded_iff (ps : Points α) (id : PointId) :
    ps.Grounded id ↔ ∀ operand, ps.Names id operand → (ps.beat? operand).isSome := by
  constructor
  · rintro h operand ⟨node, d, hnode, hd, hoperand⟩
    exact h d (by rw [hnode]; exact hd) operand hoperand
  · intro h d hd operand hoperand
    obtain ⟨node, hnode, hd⟩ := Option.bind_eq_some_iff.mp hd
    exact h operand ⟨node, d, hnode, hd, hoperand⟩

/-- The points that a derivation names are those of its two sides. -/
theorem mem_points (d : Derivation) (id : PointId) :
    id ∈ d.points ↔ d.lhs.point? = some id ∨ d.rhs.point? = some id := by
  simp only [Derivation.points, List.mem_filterMap, List.mem_cons, List.not_mem_nil, or_false]
  constructor
  · rintro ⟨o, rfl | rfl, ho⟩
    · exact .inl ho
    · exact .inr ho
  · rintro (ho | ho)
    · exact ⟨_, .inl rfl, ho⟩
    · exact ⟨_, .inr rfl, ho⟩

/-- A derivation over points that were created can be evaluated. -/
theorem evaluate_eq {ps : Points α} {d : Derivation} (h : ∀ id ∈ d.points, ps.Has id) :
    ps.evaluate d = .ok (ps.amount d) := by
  unfold evaluate amount
  rw [valueOf_eq fun id hid => h id ((mem_points d id).mpr (.inl hid)),
    valueOf_eq fun id hid => h id ((mem_points d id).mpr (.inr hid))]
  cases ps.worth d.lhs <;> cases ps.worth d.rhs <;> rfl

/-- The value of an operand depends on the beat of its point alone. -/
theorem worth_congr {ps ps' : Points α} {o : Operand}
    (h : ∀ id, o.point? = some id → ps'.beat? id = ps.beat? id) : ps'.worth o = ps.worth o := by
  cases o with
  | scalar value => rfl
  | point id => exact h id rfl

/-- The value of a derivation depends on the beats of its operands alone. -/
theorem amount_congr {ps ps' : Points α} {d : Derivation}
    (h : ∀ id ∈ d.points, ps'.beat? id = ps.beat? id) : ps'.amount d = ps.amount d := by
  unfold amount
  rw [worth_congr fun id hid => h id ((mem_points d id).mpr (.inl hid)),
    worth_congr fun id hid => h id ((mem_points d id).mpr (.inr hid))]

theorem isSome_beat?_of_worth {ps : Points α} {o : Operand} (h : (ps.worth o).isSome)
    {id : PointId} (hid : o.point? = some id) : (ps.beat? id).isSome := by
  cases o with
  | scalar value => cases hid
  | point q =>
    cases hid
    exact h

/-- A derivation has no value before every operand has a beat. -/
theorem supplies_of_amount {ps : Points α} {d : Derivation} (h : (ps.amount d).isSome) :
    ps.Supplies d := by
  obtain ⟨value, hvalue⟩ := Option.isSome_iff_exists.mp h
  obtain ⟨lhs, rhs, hlhs, hrhs, -⟩ := amount_eq_some_iff.mp hvalue
  intro id hid
  rcases (mem_points d id).mp hid with hid | hid
  · exact isSome_beat?_of_worth (Option.isSome_of_eq_some hlhs) hid
  · exact isSome_beat?_of_worth (Option.isSome_of_eq_some hrhs) hid

theorem link_cons_of_has {ps : Points α} {id : PointId} (h : ps.Has id) (child : PointId)
    (rest : List PointId) :
    ps.link child (id :: rest) = (ps.modify id (·.addChild child)).link child rest := by
  obtain ⟨node, hnode⟩ := exists_node? h
  conv_lhs => unfold link
  rw [find_of_node? hnode]

/-- Linking a child to points that were created lists it under each of them. -/
theorem link_ok {ps : Points α} (child : PointId) {ids : List PointId}
    (h : ∀ id ∈ ids, ps.Has id) :
    ps.link child ids = (.ok child, ids.foldl (fun ps id => ps.modify id (·.addChild child)) ps) := by
  induction ids generalizing ps with
  | nil => rfl
  | cons id rest ih =>
    rw [link_cons_of_has (h id (.head _)), List.foldl_cons]
    refine ih fun q hq => ?_
    unfold Has
    rw [size_modify]
    exact h q (.tail _ hq)

/-- A point computed from points that were created is created behind them and listed under
them. It is rebindable if some operand is, and has a beat once every operand has one. -/
theorem derive_ok {ps : Points α} {d : Derivation} (h : ∀ id ∈ d.points, ps.Has id) :
    ∃ rebindable,
      ps.derive d = (.ok ps.nextId,
        d.points.foldl (fun qs id => qs.modify id (·.addChild ps.nextId))
          ⟨ps.nodes.push
            { PointNode.fresh .derived rebindable (some d) with beat := ps.amount d }⟩) ∧
      (rebindable = true ↔ ∃ id ∈ d.points, ps.Rebindable id) := by
  obtain ⟨rebindable, hrebindable, hiff⟩ := anyRebindable_ok h
  refine ⟨rebindable, ?_, hiff⟩
  unfold derive
  rw [hrebindable, evaluate_eq h]
  simp only [bind, Except.bind, pure, Except.pure]
  refine link_ok ps.nextId fun id hid => ?_
  have hlt : id.index < ps.size := h id hid
  simp only [Has, size, Array.size_push]
  exact hlt.trans (Nat.lt_succ_self _)

@[simp]
theorem mem_addChild (node : PointNode α) (child c : PointId) :
    c ∈ (node.addChild child).children ↔ c ∈ node.children ∨ c = child := by
  unfold PointNode.addChild
  split_ifs with h
  · constructor
    · exact .inl
    · rintro (hc | rfl)
      · exact hc
      · exact h
  · simp

theorem addChild_addChild (node : PointNode α) (child : PointId) :
    (node.addChild child).addChild child = node.addChild child := by
  have : child ∈ (node.addChild child).children := (mem_addChild _ _ _).mpr (.inr rfl)
  conv_lhs => rw [PointNode.addChild, if_pos this]

theorem addChild_eq (node : PointNode α) (child : PointId) :
    node.addChild child = { node with children := (node.addChild child).children } := by
  unfold PointNode.addChild
  split_ifs <;> rfl

/-- What is kept for each point after a point was derived from points that were created. -/
theorem node?_derive {ps : Points α} {d : Derivation} (h : ∀ id ∈ d.points, ps.Has id) :
    ∃ rebindable, (∀ q,
      (ps.derive d).2.node? q =
        if q = ps.nextId then
          some { PointNode.fresh .derived rebindable (some d) with beat := ps.amount d }
        else if q ∈ d.points then (ps.node? q).map (·.addChild ps.nextId)
        else ps.node? q) ∧
      (rebindable = true ↔ ∃ id ∈ d.points, ps.Rebindable id) := by
  obtain ⟨rebindable, heq, hiff⟩ := derive_ok h
  refine ⟨rebindable, fun q => ?_, hiff⟩
  rw [heq, node?_foldl_modify_of_idempotent _ _ (addChild_addChild · _), node?_push]
  by_cases hq : q = ps.nextId
  · have hnot : q ∉ d.points := by
      intro hmem
      have hlt := h q hmem
      rw [hq] at hlt
      exact lt_irrefl _ hlt
    rw [if_pos hq, if_pos hq, if_neg hnot]
  · rw [if_neg hq, if_neg hq]

/-- Of the points that were there, only the lists of children change when a point is derived. -/
theorem map_node?_derive {γ : Type} {view : PointNode α → γ} {ps : Points α} {d : Derivation}
    (h : ∀ id ∈ d.points, ps.Has id) (hview : ∀ node child, view (node.addChild child) = view node)
    {q : PointId} (hq : q ≠ ps.nextId) :
    ((ps.derive d).2.node? q).map view = (ps.node? q).map view := by
  obtain ⟨_, hnode, -⟩ := node?_derive h
  rw [hnode, if_neg hq]
  split_ifs
  · rw [Option.map_map]
    congr 1
    exact funext fun node => hview node _
  · rfl

/-- A derived point has the value of its derivation right away. The others keep their beats. -/
theorem beat?_derive {ps : Points α} {d : Derivation} (h : ∀ id ∈ d.points, ps.Has id)
    (q : PointId) :
    (ps.derive d).2.beat? q = if q = ps.nextId then ps.amount d else ps.beat? q := by
  obtain ⟨_, hnode, -⟩ := node?_derive h
  unfold beat?
  rw [hnode]
  split_ifs
  · rfl
  · rw [Option.bind_map]
    congr 1
    exact funext fun node => by rw [Function.comp_apply, addChild_eq]
  · rfl

/-- A derived point names its operands. What the others name stays the same. -/
theorem names_derive {ps : Points α} {d : Derivation} (h : ∀ id ∈ d.points, ps.Has id)
    (child parent : PointId) :
    (ps.derive d).2.Names child parent ↔
      ps.Names child parent ∨ child = ps.nextId ∧ parent ∈ d.points := by
  by_cases hc : child = ps.nextId
  · obtain ⟨_, hnode, -⟩ := node?_derive h
    unfold Names
    rw [hc, hnode, if_pos rfl, node?_nextId]
    simp [PointNode.fresh]
  · rw [names_iff_of_derivation (map_node?_derive h (fun node child => by rw [addChild_eq]) hc) parent]
    simp [hc]

/-- Creating a point computed from points that were created keeps points linked. -/
theorem linked_derive {ps : Points α} (hps : ps.Linked) {d : Derivation}
    (h : ∀ id ∈ d.points, ps.Has id) : (ps.derive d).2.Linked := by
  obtain ⟨rebindable, hnode, hrebindable⟩ := node?_derive h
  have hflag {id : PointId} (hid : ps.Has id) :
      (ps.derive d).2.Rebindable id ↔ ps.Rebindable id :=
    rebindable_iff_of_flag <|
      map_node?_derive h (fun node child => by rw [addChild_eq]) (ne_nextId hid)
  constructor
  · intro child parent hchild
    rcases (names_derive h child parent).mp hchild with hold | ⟨rfl, hp⟩
    · exact hps.earlier hold
    · exact h parent hp
  · intro parent node hpar child
    rw [names_derive h]
    rw [hnode] at hpar
    split_ifs at hpar with hnew hop
    · -- The new point has no children, and nobody names it yet, not even itself.
      cases hpar
      constructor
      · intro hin
        simp [PointNode.fresh] at hin
      · rintro (hold | ⟨-, hp⟩)
        · exact absurd (hnew ▸ hold) (hps.not_names_nextId child)
        · exact absurd hnew (ne_nextId (h parent hp))
    · obtain ⟨node', hn, rfl⟩ := Option.map_eq_some_iff.mp hpar
      rw [mem_addChild, hps.children_iff hn]
      simp [hop]
    · rw [hps.children_iff hpar]
      simp [hop]
  · intro id node hnode'
    rw [hnode] at hnode'
    split_ifs at hnode'
    · cases hnode'
      refine ⟨rfl, hrebindable.trans ?_⟩
      exact exists_congr fun operand => and_congr_right fun hoperand =>
        (hflag (h operand hoperand)).symm
    · obtain ⟨node', hn, rfl⟩ := Option.map_eq_some_iff.mp hnode'
      rw [addChild_eq]
      exact (hps.flagged hn).of_rebindable_iff rfl rfl rfl fun d' hd operand hoperand =>
        hflag (hps.has_operand hn hd hoperand)
    · exact (hps.flagged hnode').of_rebindable_iff rfl rfl rfl fun d' hd operand hoperand =>
        hflag (hps.has_operand hnode' hd hoperand)

/-! ## What derives from a point -/

/-- The first point is the second one, or is computed from it through any number of steps. -/
def DerivesFrom (ps : Points α) : PointId → PointId → Prop := Relation.ReflTransGen ps.Names

/-- What derives from a point was not created before it. -/
theorem Linked.index_le {ps : Points α} (h : ps.Linked) {q root : PointId}
    (hq : ps.DerivesFrom q root) : root.index ≤ q.index := by
  induction hq with
  | refl => exact le_rfl
  | tail _ hnames ih => exact (h.earlier hnames).le.trans ih

/-- What derives from a point depends on derivations alone. -/
theorem Keeps.derivesFrom_iff {ps ps' : Points α} (h : Keeps (·.derivation) ps ps')
    (q root : PointId) : ps'.DerivesFrom q root ↔ ps.DerivesFrom q root := by
  have hnames : ps'.Names = ps.Names :=
    funext fun child => funext fun parent => propext (h.names_iff child parent)
  rw [DerivesFrom, DerivesFrom, hnames]

theorem has_of_derivesFrom {ps : Points α} {q root : PointId} (hroot : ps.Has root)
    (hq : ps.DerivesFrom q root) : ps.Has q := by
  rcases hq.cases_head with rfl | ⟨r, ⟨node, _, hnode, _⟩, _⟩
  · exact hroot
  · exact has_of_node? hnode

/-- A point that derives from another one is computed. -/
theorem exists_derivation {ps : Points α} {q root : PointId} {node : PointNode α}
    (hnode : ps.node? q = some node) (hq : ps.DerivesFrom q root) (hne : q ≠ root) :
    ∃ d, node.derivation = some d := by
  rcases hq.cases_head with heq | ⟨operand, ⟨node', d, hnode', hd, -⟩, -⟩
  · exact absurd heq hne
  · obtain rfl := Option.some.inj (hnode.symm.trans hnode')
    exact ⟨d, hd⟩

end Points

end Cadence
