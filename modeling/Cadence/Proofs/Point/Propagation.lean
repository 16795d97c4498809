import Mathlib
import Cadence.Proofs.Point.Calls

/-!
# Computed at creation or later

A derived point is computed in one of two places: when it is created, if its operands have beats by then,
or when a beat reaches it from a point that it derives from. The two differ in what they accept. A beat
that is passed on is taken only if it is finite, while a point is created with whatever its derivation
amounts to.

- `beat?_resolve`: after a resolution, what derives from the root has the beat that its derivation amounts
  to, if that is finite;
- `beat?_derive_resolve`: points that were there take the same beats whether the new one is there or not;
- `derive_then_resolve`: computing a point before or after one of its operands takes a beat comes to the
  same, except for a result that is not finite.
-/

namespace Cadence

variable {α : Type}

namespace Points

/-- Of the points after a resolution at a finite beat, those that derive from the root have the value that
they have by then, if it is finite, and the others keep their beats. -/
theorem beat?_resolve {ps : Points α} (h : ps.Linked) {root : PointId} (hroot : ps.Has root)
    {beat : Float} (hbeat : beat.isFinite = true) (q : PointId) :
    (ps.DerivesFrom q root → (ps.resolve root beat).points.beat? q =
      ((ps.resolve root beat).points.valueFrom root beat q).filter (·.isFinite)) ∧
    (¬ ps.DerivesFrom q root → (ps.resolve root beat).points.beat? q = ps.beat? q) := by
  obtain ⟨given, hspreads, -⟩ := resolve_spreads h hroot hbeat
  constructor
  · intro hq
    rw [← hspreads.computed q hq]
    exact hspreads.beat?_eq hroot hq
  · intro hq
    unfold beat?
    rw [hspreads.beyond q hq]

section

variable {ps : Points α} {d : Derivation}

/-- What the points that were there derive from stays the same when a point is computed from them. -/
theorem derivesFrom_derive (h : ps.Linked) (hd : ∀ id ∈ d.points, ps.Has id) {q : PointId}
    (hq : q ≠ ps.nextId) (root : PointId) :
    (ps.derive d).2.DerivesFrom q root ↔ ps.DerivesFrom q root := by
  constructor
  · intro hderives
    -- Each step is an old one: only the new point names anything new, and nothing names the new point.
    induction hderives using Relation.ReflTransGen.head_induction_on with
    | refl => exact .refl
    | head hnames _ ih =>
      have hold := ((names_derive hd _ _).mp hnames).resolve_right fun hnew => hq hnew.1
      refine .head hold (ih ?_)
      rintro rfl
      exact h.not_names_nextId _ hold
  · intro hderives
    exact Relation.ReflTransGen.mono
      (fun child parent hnames => (names_derive hd child parent).mpr (.inl hnames)) _ _ hderives

/-- The new point derives from what its operands derive from. -/
theorem derivesFrom_derive_nextId (h : ps.Linked) (hd : ∀ id ∈ d.points, ps.Has id)
    {root : PointId} (hroot : ps.Has root) :
    (ps.derive d).2.DerivesFrom ps.nextId root ↔
      ∃ operand ∈ d.points, ps.DerivesFrom operand root := by
  constructor
  · intro hderives
    -- The first step goes to an operand, and from there on nothing is new.
    rcases hderives.cases_head with heq | ⟨operand, hnames, hrest⟩
    · exact absurd heq.symm (ne_nextId hroot)
    · have hoperand : operand ∈ d.points := by
        rcases (names_derive hd _ _).mp hnames with ⟨node, _, hnode, -⟩ | ⟨-, hoperand⟩
        · rw [node?_nextId] at hnode
          cases hnode
        · exact hoperand
      exact ⟨operand, hoperand,
        (derivesFrom_derive h hd (ne_nextId (hd operand hoperand)) root).mp hrest⟩
  · rintro ⟨operand, hoperand, hderives⟩
    exact .head ((names_derive hd _ _).mpr (.inr ⟨rfl, hoperand⟩))
      ((derivesFrom_derive h hd (ne_nextId (hd operand hoperand)) root).mpr hderives)

variable {p : PointId} {beat : Float}

/-- A point that was there is computed in the same way after a resolution, whether another point is there
or not. -/
theorem derivation_derive_resolve (h : ps.Linked) (hd : ∀ id ∈ d.points, ps.Has id)
    (hp : ps.Has p) {q : PointId} (hq : q ≠ ps.nextId) :
    (((ps.derive d).2.resolve p beat).points.node? q).map (·.derivation) =
      ((ps.resolve p beat).points.node? q).map (·.derivation) := by
  have hp' := (advances_derive hd).has hp
  calc (((ps.derive d).2.resolve p beat).points.node? q).map PointNode.derivation
      = ((ps.derive d).2.node? q).map PointNode.derivation :=
        (keeps_resolve (linked_derive h hd) hp' beat).comp PointNode.derivation q
    _ = (ps.node? q).map PointNode.derivation :=
        map_node?_derive hd (fun node child => by rw [addChild_eq]) hq
    _ = ((ps.resolve p beat).points.node? q).map PointNode.derivation :=
        ((keeps_resolve h hp beat).comp PointNode.derivation q).symm

/-- Points that were there take the same beats in a resolution, whether another point is computed from them
or not. -/
theorem beat?_derive_resolve (h : ps.Linked) (hd : ∀ id ∈ d.points, ps.Has id) (hp : ps.Has p)
    (hbeat : beat.isFinite = true) {q : PointId} (hq : q ≠ ps.nextId) :
    ((ps.derive d).2.resolve p beat).points.beat? q = (ps.resolve p beat).points.beat? q := by
  have hlinked := linked_derive h hd
  have hp' := (advances_derive hd).has hp
  have hkeeps := keeps_resolve h hp beat
  -- By induction on the name: what a point is given depends on points before it.
  induction hindex : q.index using Nat.strong_induction_on generalizing q with
  | _ index ih =>
    subst hindex
    have hwith := beat?_resolve hlinked hp' hbeat q
    have hwithout := beat?_resolve h hp hbeat q
    rw [derivesFrom_derive h hd hq] at hwith
    by_cases hderives : ps.DerivesFrom q p
    · rw [hwith.1 hderives, hwithout.1 hderives]
      congr 1
      refine valueFrom_congr (derivation_derive_resolve h hd hp hq) fun operand hnames => ?_
      have hnames := ((hkeeps.comp (·.derivation)).names_iff q operand).mp hnames
      -- The operand was there before the new point, since a point that was there names it.
      refine ih operand.index (h.earlier hnames) ?_ rfl
      rintro rfl
      exact h.not_names_nextId q hnames
    · rw [hwith.2 hderives, hwithout.2 hderives, beat?_derive hd, if_neg hq]

/-- A point that is computed after a resolution has the value that it amounts to then. -/
theorem beat?_resolve_derive (h : ps.Linked) (hd : ∀ id ∈ d.points, ps.Has id) (hp : ps.Has p)
    (q : PointId) :
    ((ps.resolve p beat).points.derive d).2.beat? q =
      if q = ps.nextId then (ps.resolve p beat).points.amount d
      else (ps.resolve p beat).points.beat? q := by
  have hkeeps := keeps_resolve h hp beat
  rw [beat?_derive fun id hid => (hkeeps.has_iff id).mpr (hd id hid), hkeeps.nextId_eq]

/-- A point that is computed before a resolution takes the value that it amounts to afterwards, if the
resolution reaches it and the value is finite. -/
theorem beat?_nextId_derive_resolve (h : ps.Linked) (hd : ∀ id ∈ d.points, ps.Has id)
    (hp : ps.Has p) (hbeat : beat.isFinite = true)
    (hreached : ∃ operand ∈ d.points, ps.DerivesFrom operand p) :
    ((ps.derive d).2.resolve p beat).points.beat? ps.nextId =
      ((ps.resolve p beat).points.amount d).filter (·.isFinite) := by
  have hlinked := linked_derive h hd
  have hp' := (advances_derive hd).has hp
  obtain ⟨_, hnode, -⟩ := node?_derive hd
  obtain ⟨node, hnode', hview⟩ :=
    (keeps_resolve hlinked hp' beat).node? ((hnode ps.nextId).trans (if_pos rfl))
  have hderivation : node.derivation = some d := (PointNode.grows_of_still hview).derivation
  rw [(beat?_resolve hlinked hp' hbeat ps.nextId).1 ((derivesFrom_derive_nextId h hd hp).mpr hreached),
    valueFrom_of_derivation (ne_nextId hp).symm beat hnode' hderivation,
    amount_congr fun id hid => beat?_derive_resolve h hd hp hbeat (ne_nextId (hd id hid))]

/-- It keeps the value that it was created with, which it still amounts to afterwards, if the resolution
does not reach it. -/
theorem beat?_nextId_derive_resolve_of_not (h : ps.Linked) (hd : ∀ id ∈ d.points, ps.Has id)
    (hp : ps.Has p) (hbeat : beat.isFinite = true)
    (hreached : ¬ ∃ operand ∈ d.points, ps.DerivesFrom operand p) :
    ((ps.derive d).2.resolve p beat).points.beat? ps.nextId =
      (ps.resolve p beat).points.amount d := by
  have hlinked := linked_derive h hd
  have hp' := (advances_derive hd).has hp
  have hbeyond : ¬ (ps.derive d).2.DerivesFrom ps.nextId p :=
    mt (derivesFrom_derive_nextId h hd hp).mp hreached
  rw [(beat?_resolve hlinked hp' hbeat ps.nextId).2 hbeyond, beat?_derive hd, if_pos rfl]
  refine (amount_congr fun id hid => ?_).symm
  exact (beat?_resolve h hp hbeat id).2 fun hderives => hreached ⟨id, hid, hderives⟩

end

/-- Whether a point is computed from others before one of the points takes a finite beat or after it, every
point has the same beat in the end; only the new point, if it derives from the one that took the beat and
its value is not finite, has no beat in the first case and that value in the second. -/
theorem derive_then_resolve (calls : List (Call α)) (hcalls : empty.Knows calls) {d : Derivation}
    {p : PointId} {beat : Float} (hd : ∀ id ∈ d.points, (empty.afterCalls calls).Has id)
    (hp : (empty.afterCalls calls).Has p) (hbeat : beat.isFinite = true) :
    let ps := empty.afterCalls calls
    let first := ((ps.derive d).2.resolve p beat).points
    let last := ((ps.resolve p beat).points.derive d).2
    (∀ q ≠ ps.nextId, first.beat? q = last.beat? q) ∧
      ((∃ operand ∈ d.points, ps.DerivesFrom operand p) →
        first.beat? ps.nextId = (last.beat? ps.nextId).filter (·.isFinite)) ∧
      ((¬ ∃ operand ∈ d.points, ps.DerivesFrom operand p) →
        first.beat? ps.nextId = last.beat? ps.nextId) := by
  intro ps first last
  have h : ps.Linked := linked_afterCalls hcalls
  refine ⟨fun q hq => ?_, fun hreached => ?_, fun hreached => ?_⟩
  · rw [beat?_resolve_derive h hd hp, if_neg hq]
    exact beat?_derive_resolve h hd hp hbeat hq
  · rw [beat?_resolve_derive h hd hp, if_pos rfl]
    exact beat?_nextId_derive_resolve h hd hp hbeat hreached
  · rw [beat?_resolve_derive h hd hp, if_pos rfl]
    exact beat?_nextId_derive_resolve_of_not h hd hp hbeat hreached

/-- The distance between a persistent point at beat 3 and a one-shot point that takes the beat 10. -/
theorem distance_then_resolve :
    let calls : List (Call Unit) :=
      [.insert .oneShot, .insert .persistent, .derive ⟨.mul, .point ⟨0⟩, .scalar 2.0⟩,
        .resolve ⟨1⟩ 3.0]
    let d : Derivation := ⟨.sub, .point ⟨2⟩, .point ⟨1⟩⟩
    let ps := empty.afterCalls calls
    let first := ((ps.derive d).2.resolve ⟨0⟩ 10.0).points
    let last := ((ps.resolve ⟨0⟩ 10.0).points.derive d).2
    first.beat? ⟨3⟩ = some 17.0 ∧ last.beat? ⟨3⟩ = some 17.0 ∧
      (∀ q ≠ ps.nextId, first.beat? q = last.beat? q) := by
  intro calls d ps first last
  have hcalls : empty.Knows calls := by decide +kernel
  have hd : ∀ id ∈ d.points, (empty.afterCalls calls).Has id := by decide +kernel
  have hp : (empty.afterCalls calls).Has ⟨0⟩ := by decide +kernel
  have hbeat : (10.0 : Float).isFinite = true := by decide +kernel
  obtain ⟨hold, -, -⟩ := derive_then_resolve calls hcalls hd hp hbeat
  exact ⟨by decide +kernel, by decide +kernel, hold⟩

/-- A quotient by zero has no beat if it is created before its operand takes one, and an infinite beat if it
is created afterwards. -/
theorem quotient_by_zero_then_resolve :
    let calls : List (Call Unit) := [.insert .oneShot]
    let d : Derivation := ⟨.div, .point ⟨0⟩, .scalar 0.0⟩
    let ps := empty.afterCalls calls
    let first := ((ps.derive d).2.resolve ⟨0⟩ 4.0).points
    let last := ((ps.resolve ⟨0⟩ 4.0).points.derive d).2
    empty.Knows calls ∧ (∀ id ∈ d.points, ps.Has id) ∧ ps.Has ⟨0⟩ ∧
      first.beat? ⟨1⟩ = none ∧ (last.beat? ⟨1⟩).map (·.isFinite) = some false := by
  decide +kernel

end Points

end Cadence
