import Mathlib
import Cadence.Proofs.Point.Derivation

/-!
# The search for what derives from a point

A search keeps what it has found, in ascending order, and those points among it whose children it has not
looked at yet. A turn looks at the children of one of them, and finds those that were not found before. So a
point is looked at once, and the search is at its end after as many turns as there are points to find.

- `PointSearch.extends_foldl_meet`: what a search has found after several points were met;
- `Points.Searching.next`: what a turn of a search preserves;
- `Points.searchOn_iterate_subtree`: the search comes to its end, with what is collected for the point;
- `Points.mem_subtree_iff`: what is collected for a point is that point and what derives from it;
- `Points.subtree_eq_cons`: it is collected in ascending order, the point itself first.
-/

namespace Cadence

variable {α : Type}

namespace PointSearch

/-! ## Points that are met -/

theorem mem_place {id q : PointId} {found : List PointId} : q ∈ place id found ↔ q = id ∨ q ∈ found := by
  induction found with
  | nil => simp [place]
  | cons first rest ih =>
    rw [place]
    split_ifs
    · rw [List.mem_cons]
    · rw [List.mem_cons, ih, List.mem_cons, or_left_comm]

theorem length_place (id : PointId) (found : List PointId) : (place id found).length = found.length + 1 := by
  induction found with
  | nil => rfl
  | cons first rest ih =>
    rw [place]
    split_ifs
    · rfl
    · rw [List.length_cons, ih, List.length_cons]

/-- Putting a point in its place keeps ascending order, if it is not there yet. -/
theorem sorted_place {id : PointId} {found : List PointId} (h : found.Pairwise (·.index < ·.index))
    (hid : id ∉ found) : (place id found).Pairwise (·.index < ·.index) := by
  induction found with
  | nil => exact List.pairwise_singleton _ _
  | cons first rest ih =>
    obtain ⟨hfirst, hrest⟩ := List.pairwise_cons.mp h
    rw [place]
    split_ifs with hlt
    · refine List.pairwise_cons.mpr ⟨fun q hq => ?_, h⟩
      rcases List.mem_cons.mp hq with rfl | hq
      · exact hlt
      · exact hlt.trans (hfirst q hq)
    · have hne : first.index ≠ id.index := fun heq =>
        List.ne_of_not_mem_cons hid (congrArg PointId.mk heq.symm)
      refine List.pairwise_cons.mpr ⟨fun q hq => ?_, ih hrest (List.not_mem_of_not_mem_cons hid)⟩
      rcases mem_place.mp hq with rfl | hq
      · exact lt_of_le_of_ne (not_lt.mp hlt) hne
      · exact hfirst q hq

/-- A search in which several points were met. -/
structure Extends (s : PointSearch) (ids : List PointId) (s' : PointSearch) : Prop where
  /-- They are found, and nothing else is that was not found before. -/
  mem_found : ∀ q, q ∈ s'.found ↔ q ∈ s.found ∨ q ∈ ids
  /-- Those that were not found before are pending. -/
  mem_pending : ∀ q, q ∈ s'.pending ↔ q ∈ s.pending ∨ q ∈ ids ∧ q ∉ s.found
  /-- What is found stays in ascending order. -/
  sorted : s.found.Pairwise (·.index < ·.index) → s'.found.Pairwise (·.index < ·.index)
  /-- As many points are found anew as are pending anew. -/
  length : s'.found.length + s.pending.length = s.found.length + s'.pending.length

theorem extends_meet (s : PointSearch) (id : PointId) : s.Extends [id] (s.meet id) := by
  unfold meet
  split_ifs with hid
  · have hknown (q : PointId) : q ∈ [id] → q ∈ s.found := fun hq => List.mem_singleton.mp hq ▸ hid
    exact ⟨fun q => (or_iff_left_of_imp (hknown q)).symm,
      fun q => (or_iff_left fun hq => hq.2 (hknown q hq.1)).symm, fun h => h, rfl⟩
  · refine ⟨fun q => ?_, fun q => ?_, fun h => sorted_place h hid, ?_⟩
    · rw [mem_place, List.mem_singleton, or_comm]
    · rw [List.mem_cons, List.mem_singleton, or_comm]
      exact or_congr_right (iff_self_and.mpr fun hq => hq ▸ hid)
    · rw [length_place, List.length_cons]
      omega

theorem Extends.trans {s s' s'' : PointSearch} {ids ids' : List PointId} (h : s.Extends ids s')
    (h' : s'.Extends ids' s'') : s.Extends (ids ++ ids') s'' where
  mem_found q := by rw [h'.mem_found, h.mem_found, List.mem_append, or_assoc]
  mem_pending q := by
    rw [h'.mem_pending, h.mem_pending, h.mem_found, List.mem_append]
    tauto
  sorted hsorted := h'.sorted (h.sorted hsorted)
  length := by
    have := h.length
    have := h'.length
    omega

/-- Points that are met one after another. -/
theorem extends_foldl_meet (s : PointSearch) (ids : List PointId) : s.Extends ids (ids.foldl meet s) := by
  induction ids generalizing s with
  | nil => exact ⟨by simp, by simp, fun h => h, rfl⟩
  | cons id rest ih => exact (s.extends_meet id).trans (ih (s.meet id))

end PointSearch

namespace Points

/-! ## A turn of the search -/

/-- The children of a point are the points that name it. -/
theorem mem_childrenOf {ps : Points α} (h : ps.Linked) (child parent : PointId) :
    child ∈ ps.childrenOf parent ↔ ps.Names child parent := by
  unfold childrenOf
  cases hnode : ps.node? parent with
  | some node => exact h.children_iff hnode child
  | none =>
    refine iff_of_false List.not_mem_nil fun hnames => ?_
    obtain ⟨node, d, hchild, hd, hoperand⟩ := hnames
    obtain ⟨pnode, hpnode⟩ := exists_node? (h.has_operand hchild hd hoperand)
    rw [hnode] at hpnode
    cases hpnode

theorem searchOn_of_pending_eq_nil (ps : Points α) {s : PointSearch} (h : s.pending = []) :
    ps.searchOn s = s := by
  rw [searchOn, h]

/-- A turn meets the children of the point that is looked at. -/
theorem extends_searchOn (ps : Points α) {s : PointSearch} {id : PointId} {rest : List PointId}
    (h : s.pending = id :: rest) :
    ({ s with pending := rest } : PointSearch).Extends (ps.childrenOf id) (ps.searchOn s) := by
  rw [searchOn, h]
  exact PointSearch.extends_foldl_meet _ _

/-- A search for what derives from a point, after so many turns. -/
structure Searching (ps : Points α) (root : PointId) (turns : ℕ) (s : PointSearch) : Prop where
  /-- What was found is in ascending order. -/
  sorted : s.found.Pairwise (·.index < ·.index)
  /-- The point itself was found. -/
  root_mem : root ∈ s.found
  /-- What was found derives from it. -/
  derives : ∀ q ∈ s.found, ps.DerivesFrom q root
  /-- What is pending was found. -/
  pending_subset : ∀ q ∈ s.pending, q ∈ s.found
  /-- What names a point that is no longer pending was found. -/
  closed : ∀ q ∈ s.found, q ∉ s.pending → ∀ child, ps.Names child q → child ∈ s.found
  /-- Every turn has looked at one point. -/
  length : s.found.length = s.pending.length + turns

theorem searching_start (ps : Points α) (root : PointId) : ps.Searching root 0 (.start root) where
  sorted := List.pairwise_singleton _ _
  root_mem := .head _
  derives _ hq := List.mem_singleton.mp hq ▸ .refl
  pending_subset _ hq := hq
  closed _ hq hnot := absurd hq hnot
  length := rfl

/-- A turn of a search that is not at its end. -/
theorem Searching.next {ps : Points α} (hlinked : ps.Linked) {root : PointId} {turns : ℕ} {s : PointSearch}
    (h : ps.Searching root turns s) (hpending : s.pending ≠ []) :
    ps.Searching root (turns + 1) (ps.searchOn s) := by
  obtain ⟨id, rest, hs⟩ := List.exists_cons_of_ne_nil hpending
  obtain ⟨hfound, hpend, hsorted, hlength⟩ := ps.extends_searchOn hs
  have hid : id ∈ s.found := h.pending_subset id (hs ▸ .head _)
  refine ⟨hsorted h.sorted, (hfound root).mpr (.inl h.root_mem), fun q hq => ?_, fun q hq => ?_,
    fun q hq hnot child hchild => ?_, ?_⟩
  · rcases (hfound q).mp hq with hq | hq
    · exact h.derives q hq
    · exact .head ((mem_childrenOf hlinked q id).mp hq) (h.derives id hid)
  · rcases (hpend q).mp hq with hq | ⟨hq, -⟩
    · exact (hfound q).mpr (.inl (h.pending_subset q (hs ▸ .tail _ hq)))
    · exact (hfound q).mpr (.inr hq)
  · -- What is found in this turn is pending, so the point was found before, and is the one that is looked
    -- at now or was looked at earlier.
    rw [hpend, not_or] at hnot
    have hbefore : q ∈ s.found := by
      by_contra hnew
      exact hnot.2 ⟨((hfound q).mp hq).resolve_left hnew, hnew⟩
    rw [hfound]
    by_cases hnow : q = id
    · exact .inr ((mem_childrenOf hlinked child id).mpr (hnow ▸ hchild))
    · refine .inl (h.closed q hbefore (fun hold => ?_) child hchild)
      rw [hs, List.mem_cons] at hold
      exact hold.elim hnow hnot.1
  · have := h.length
    rw [hs, List.length_cons] at this
    simp only at hlength
    omega

/-! ## The search -/

/-- What is found is found once, so there is room for it among the points. -/
theorem Searching.length_le {ps : Points α} {root : PointId} (hroot : ps.Has root) {turns : ℕ}
    {s : PointSearch} (h : ps.Searching root turns s) : s.found.length ≤ ps.size := by
  have hnodup : (s.found.map (·.index)).Nodup := List.pairwise_map.mpr (h.sorted.imp ne_of_lt)
  have hbelow : s.found.map (·.index) ⊆ List.range ps.size := by
    intro index hindex
    obtain ⟨q, hq, rfl⟩ := List.mem_map.mp hindex
    exact List.mem_range.mpr (has_of_derivesFrom hroot (h.derives q hq))
  have hle := (hnodup.subperm hbelow).length_le
  rwa [List.length_map, List.length_range] at hle

/-- So many turns are made, or the search is at its end before. -/
theorem exists_searching {ps : Points α} (hlinked : ps.Linked) (root : PointId) (fuel : ℕ) :
    ∃ turns ≤ fuel, ps.Searching root turns (ps.searchOn^[turns] (.start root)) ∧
      ((ps.searchOn^[turns] (.start root)).pending = [] ∨ turns = fuel) := by
  induction fuel with
  | zero => exact ⟨0, le_rfl, ps.searching_start root, .inr rfl⟩
  | succ fuel ih =>
    obtain ⟨turns, hle, hsearching, hend⟩ := ih
    by_cases hpending : (ps.searchOn^[turns] (.start root)).pending = []
    · exact ⟨turns, hle.trans (Nat.le_succ fuel), hsearching, .inl hpending⟩
    · obtain rfl := hend.resolve_left hpending
      refine ⟨turns + 1, le_rfl, ?_, .inr rfl⟩
      rw [Function.iterate_succ_apply']
      exact hsearching.next hlinked hpending

/-- So much fuel is for so many turns, since a search at its end stays as it is. -/
theorem search_eq_iterate (ps : Points α) (fuel : ℕ) (s : PointSearch) :
    ps.search fuel s = ps.searchOn^[fuel] s := by
  induction fuel generalizing s with
  | zero => rfl
  | succ fuel ih =>
    rw [search]
    split_ifs with hend
    · have hfixed := ps.searchOn_of_pending_eq_nil (List.isEmpty_iff.mp hend)
      exact (Function.iterate_fixed hfixed _).symm
    · exact ih _

/-- After as many turns as there are points to find, the search is at its end. -/
theorem searchOn_iterate_subtree {ps : Points α} (hlinked : ps.Linked) {root : PointId}
    (hroot : ps.Has root) :
    ps.searchOn^[(ps.subtree root).length] (.start root) = ⟨ps.subtree root, []⟩ ∧
      ps.Searching root (ps.subtree root).length ⟨ps.subtree root, []⟩ := by
  obtain ⟨turns, hle, hsearching, hturns⟩ := exists_searching hlinked root ps.size
  have hlength := hsearching.length
  have hroom := hsearching.length_le hroot
  have hsubtree : ps.subtree root = (ps.searchOn^[ps.size] (.start root)).found :=
    congrArg PointSearch.found (ps.search_eq_iterate _ _)
  rw [← Nat.sub_add_cancel hle, Function.iterate_add_apply] at hsubtree
  generalize hs : ps.searchOn^[turns] (.start root) = s at *
  have hend : s.pending = [] := hturns.elim id fun hfull => List.eq_nil_of_length_eq_zero (by omega)
  -- The turns that are left change nothing.
  rw [Function.iterate_fixed (ps.searchOn_of_pending_eq_nil hend)] at hsubtree
  have hstate : s = ⟨ps.subtree root, []⟩ := by rw [hsubtree, ← hend]
  have hcount : (ps.subtree root).length = turns := by rw [hsubtree, hlength, hend, List.length_nil, zero_add]
  rw [hcount, hs, ← hstate]
  exact ⟨rfl, hsearching⟩

/-- What names a point that was found, in any number of steps, was found. -/
theorem Searching.mem_of_derivesFrom {ps : Points α} {root : PointId} {turns : ℕ} {found : List PointId}
    (h : ps.Searching root turns ⟨found, []⟩) {q : PointId} (hq : ps.DerivesFrom q root) : q ∈ found := by
  induction hq using Relation.ReflTransGen.head_induction_on with
  | refl => exact h.root_mem
  | head hnames _ ih => exact h.closed _ ih List.not_mem_nil _ hnames

/-! ## What is collected -/

/-- What is collected for a point is that point and what derives from it. -/
theorem mem_subtree_iff {ps : Points α} (h : ps.Linked) {root : PointId} (hroot : ps.Has root)
    (q : PointId) : q ∈ ps.subtree root ↔ ps.DerivesFrom q root := by
  obtain ⟨-, hsearching⟩ := searchOn_iterate_subtree h hroot
  exact ⟨hsearching.derives q, hsearching.mem_of_derivesFrom⟩

/-- A turn keeps what was found in ascending order, whatever the points are. -/
theorem sorted_searchOn (ps : Points α) {s : PointSearch} (h : s.found.Pairwise (·.index < ·.index)) :
    (ps.searchOn s).found.Pairwise (·.index < ·.index) := by
  cases hs : s.pending with
  | nil => rwa [ps.searchOn_of_pending_eq_nil hs]
  | cons id rest => exact (ps.extends_searchOn hs).sorted h

theorem subtree_sorted (ps : Points α) (root : PointId) :
    (ps.subtree root).Pairwise (·.index < ·.index) := by
  have hsorted (turns : ℕ) :
      (ps.searchOn^[turns] (.start root)).found.Pairwise (·.index < ·.index) := by
    induction turns with
    | zero => exact List.pairwise_singleton _ _
    | succ turns ih =>
      rw [Function.iterate_succ_apply']
      exact ps.sorted_searchOn ih
  rw [subtree, search_eq_iterate]
  exact hsorted ps.size

theorem subtree_nodup (ps : Points α) (root : PointId) : (ps.subtree root).Nodup :=
  (ps.subtree_sorted root).imp fun hlt heq => absurd (heq ▸ hlt) (lt_irrefl _)

/-- The point itself comes first. -/
theorem subtree_eq_cons {ps : Points α} (h : ps.Linked) {root : PointId} (hroot : ps.Has root) :
    ps.subtree root = root :: ps.descendants root := by
  have hmem : root ∈ ps.subtree root := (mem_subtree_iff h hroot root).mpr .refl
  have hsorted := ps.subtree_sorted root
  unfold descendants
  cases hsub : ps.subtree root with
  | nil =>
    rw [hsub] at hmem
    cases hmem
  | cons first rest =>
    rw [hsub] at hmem hsorted
    have hfirst : ps.DerivesFrom first root :=
      (mem_subtree_iff h hroot first).mp (hsub ▸ .head _)
    rcases List.mem_cons.mp hmem with rfl | hin
    · rfl
    · -- Nothing that derives from the root is earlier than the root.
      have hlt := (List.pairwise_cons.mp hsorted).1 root hin
      exact absurd (h.index_le hfirst) (not_le.mpr hlt)

end Points

end Cadence
