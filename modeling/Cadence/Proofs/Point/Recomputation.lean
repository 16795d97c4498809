import Mathlib
import Cadence.Proofs.Point.Calls

/-!
# What a resolution computes

A resolution takes the beats of all points that derive from the root away, and then goes over them once.
Operands come before what is computed from them, so each point is computed from beats that are settled by
then, however many ways lead from the root to it, and no beat of an earlier resolution is left among them.

- `Spreads.node?_eq`: a point that derives from the root takes at most a beat, which is counted;
- `Spreads.beat?_eq_some_iff`: it has a beat exactly if its operands have beats in the end and the result is
  finite;
- `resolve_recomputes`: a resolution as a whole, whatever calls were made before it.
-/

namespace Cadence

variable {α : Type}

/-- The point after it was computed again: its beat, if it has one now, is counted. -/
def PointNode.recomputed (node : PointNode α) (beat : Option Float) : PointNode α :=
  { node with beat := beat, resolutions := node.resolutions + if beat.isSome then 1 else 0 }

namespace Points

/-- Elements that contribute nothing can be left out. -/
theorem flatMap_filter_of_eq_nil {γ δ : Type} {l : List γ} {p : γ → Bool} {f : γ → List δ}
    (h : ∀ a ∈ l, p a = false → f a = []) : (l.filter p).flatMap f = l.flatMap f := by
  induction l with
  | nil => rfl
  | cons a l ih =>
    have hrest := ih fun b hb => h b (.tail _ hb)
    rw [List.flatMap_cons, List.filter_cons]
    split_ifs with ha
    · rw [List.flatMap_cons, hrest]
    · rw [h a (.head _) (Bool.eq_false_iff.mpr ha), hrest, List.nil_append]

/-- Everything that derives from the root was computed again from its beat, and actions are asked for
wherever a point took one. -/
structure Recomputes (ps ps' : Points α) (root : PointId) (beat : Float) (r : Resolution α) : Prop where
  /-- The root has the beat. -/
  taken : ps'.beat? root = some beat
  /-- Any other point that derives from it has the beat that it is computed to be, if both operands have a
  value in the end and the result is finite, and no beat otherwise. -/
  computed : ∀ q node, ps.node? q = some node → ps.DerivesFrom q root → q ≠ root →
    ∃ d, node.derivation = some d ∧ ∀ value, ps'.beat? q = some value ↔
      ∃ lhs rhs, ps'.worth d.lhs = some lhs ∧ ps'.worth d.rhs = some rhs ∧
        d.op.apply lhs rhs = value ∧ value.isFinite = true
  /-- Such a point and the root keep everything else, and the beat that they have is counted. -/
  within : ∀ q node, ps.node? q = some node → ps.DerivesFrom q root →
    ps'.node? q = some (node.recomputed (ps'.beat? q))
  /-- Every other point is kept as it was. -/
  beyond : ∀ q, ¬ ps.DerivesFrom q root → ps'.node? q = ps.node? q
  /-- Every token is as alive as before. -/
  live : ∀ token, ps'.isLive token = ps.isLive token
  /-- What is asked for are the actions of the points that took a beat, at that beat, in ascending order of
  points and in the order in which they were attached. -/
  entries : ∃ order : List PointId, order.Pairwise (·.index < ·.index) ∧
    (∀ q, q ∈ order ↔ ps.DerivesFrom q root ∧ (ps'.beat? q).isSome) ∧
    r.entries = order.flatMap fun q => (ps'.beat? q).elim [] (ps'.wants q)
  /-- Each of them is asked for under a token that is alive. -/
  owned : ∀ e ∈ r.entries, ps'.isLive e.token = true
  /-- The next beat is asked for if the root is recurring, and not otherwise. -/
  rearm : ∀ node, ps.node? root = some node → r.rearm =
    match node.kind with
    | .recurring period => some (beat + period, ⟨root, node.generation⟩)
    | _ => none

namespace Spreads

variable {ps ps' : Points α} {root q : PointId} {beat : Float} {given : PointId → Option Float}
  {node : PointNode α}

/-- A point that derives from the root takes a beat, or loses the one it had. -/
theorem node?_eq (h : ps.Spreads ps' root beat given) (hroot : ps.Has root)
    (hnode : ps.node? q = some node) (hq : ps.DerivesFrom q root) :
    ps'.node? q = some (node.recomputed (ps'.beat? q)) := by
  rw [h.beat?_eq hroot hq, h.within q hq, hnode]
  cases given q <;> rfl

/-- It has a beat exactly if its operands have values by then and the result is finite. -/
theorem beat?_eq_some_iff (h : ps.Spreads ps' root beat given) (hroot : ps.Has root)
    (hnode : ps.node? q = some node) (hq : ps.DerivesFrom q root) (hne : q ≠ root)
    {d : Derivation} (hd : node.derivation = some d) (value : Float) :
    ps'.beat? q = some value ↔
      ∃ lhs rhs, ps'.worth d.lhs = some lhs ∧ ps'.worth d.rhs = some rhs ∧
        d.op.apply lhs rhs = value ∧ value.isFinite = true := by
  -- The point is computed by the same derivation afterwards.
  have hvalue := valueFrom_of_derivation hne beat (h.node?_eq hroot hnode hq) hd
  rw [h.beat?_eq hroot hq, h.computed q hq, hvalue, Option.filter_eq_some_iff, amount_eq_some_iff]
  simp only [← and_assoc, exists_and_right]

/-- What is asked for is what the points that took a beat want there. -/
theorem wantsAll_eq (h : ps.Spreads ps' root beat given) (hlinked : ps.Linked)
    (hroot : ps.Has root) :
    ps.wantsAll given (ps.subtree root) =
      ((ps.subtree root).filter fun q => (ps'.beat? q).isSome).flatMap fun q =>
        (ps'.beat? q).elim [] (ps'.wants q) := by
  have hwants : ps'.wants = ps.wants := funext fun q => funext (wants_of_keeps h.keeps q)
  calc ps.wantsAll given (ps.subtree root)
      = (ps.subtree root).flatMap fun q => (ps'.beat? q).elim [] (ps'.wants q) := by
        refine List.flatMap_congr fun q hq => ?_
        rw [hwants, h.beat?_eq hroot ((mem_subtree_iff hlinked hroot q).mp hq)]
    _ = ((ps.subtree root).filter fun q => (ps'.beat? q).isSome).flatMap fun q =>
          (ps'.beat? q).elim [] (ps'.wants q) := by
        -- A point that ends up without a beat asks for nothing.
        refine (flatMap_filter_of_eq_nil fun q _ hnone => ?_).symm
        rw [Option.not_isSome_iff_eq_none.mp (Bool.eq_false_iff.mp hnone), Option.elim_none]

end Spreads

/-- Resolving a point of linked points at a finite beat computes everything that derives from it again. -/
theorem Linked.recomputes_resolve {ps : Points α} (h : ps.Linked) {root : PointId}
    (hroot : ps.Has root) {beat : Float} (hbeat : beat.isFinite = true) :
    ∃ r, (ps.resolve root beat).outcome = .ok r ∧
      ps.Recomputes (ps.resolve root beat).points root beat r := by
  obtain ⟨given, hspreads, houtcome⟩ := resolve_spreads h hroot hbeat
  have hentries := hspreads.wantsAll_eq h hroot
  refine ⟨_, houtcome, ?_, ?_, ?_, hspreads.beyond, isLive_eq_of_keeps hspreads.keeps, ?_, ?_, ?_⟩
  · rw [hspreads.beat?_eq hroot .refl, hspreads.taken]
  · intro q node hnode hq hne
    obtain ⟨d, hd⟩ := exists_derivation hnode hq hne
    exact ⟨d, hd, hspreads.beat?_eq_some_iff hroot hnode hq hne hd⟩
  · intro q node hnode hq
    exact hspreads.node?_eq hroot hnode hq
  · refine ⟨_, (ps.subtree_sorted root).filter _, fun q => ?_, hentries⟩
    rw [List.mem_filter, mem_subtree_iff h hroot]
  · intro e he
    obtain ⟨q, -, value, hgiven, he⟩ := mem_wantsAll he
    rw [isLive_eq_of_keeps hspreads.keeps]
    exact (wanted_of_mem_wants (hspreads.finite q value hgiven) he).1.isLive
  · intro node hnode
    exact rearmAfter_of_node? hnode beat

/-- Whatever calls were made that name existing points, a resolution of a point at a finite beat computes
everything that derives from it again, and nothing else. -/
theorem resolve_recomputes (calls : List (Call α)) (hcalls : empty.Knows calls) {root : PointId}
    (hroot : (empty.afterCalls calls).Has root) {beat : Float} (hbeat : beat.isFinite = true) :
    let ps := empty.afterCalls calls
    ∃ r, (ps.resolve root beat).outcome = .ok r ∧
      ps.Recomputes (ps.resolve root beat).points root beat r :=
  (linked_afterCalls hcalls).recomputes_resolve hroot hbeat

/-- A recurring point, the two ends of a diamond over it, a sum with a point that has no beat, and a
quotient that was finite at the beat before. -/
theorem diamond_resolve_recomputes :
    let calls : List (Call ℕ) :=
      [.insert (.recurring 4.0), .insert .oneShot, .derive ⟨.add, .point ⟨0⟩, .scalar 1.0⟩,
        .derive ⟨.mul, .point ⟨2⟩, .point ⟨0⟩⟩, .derive ⟨.add, .point ⟨2⟩, .point ⟨1⟩⟩,
        .derive ⟨.sub, .point ⟨0⟩, .scalar 2.0⟩, .derive ⟨.div, .scalar 1.0, .point ⟨5⟩⟩,
        .addAction ⟨3⟩ 7 0.0, .addAction ⟨0⟩ 8 0.0, .addAction ⟨6⟩ 9 0.0, .addAction ⟨3⟩ 5 0.0,
        .resolve ⟨0⟩ 4.0]
    let ps := (empty : Points ℕ).afterCalls calls
    let ids := (List.range 7).map PointId.mk
    ids.map ps.beat? = [some 4.0, none, some 5.0, some 20.0, none, some 2.0, some 0.5] ∧
      ids.map (ps.resolve ⟨0⟩ 2.0).points.beat? =
        [some 2.0, none, some 3.0, some 6.0, none, some 0.0, none] ∧
      ∃ r, (ps.resolve ⟨0⟩ 2.0).outcome = .ok r ∧
        r.entries.map (fun e => (e.beat, e.token.point.index, e.action)) =
          [(2.0, 0, 8), (6.0, 3, 7), (6.0, 3, 5)] ∧
        r.rearm = some (6.0, ⟨⟨0⟩, 0⟩) ∧
        ps.Recomputes (ps.resolve ⟨0⟩ 2.0).points ⟨0⟩ 2.0 r := by
  intro calls ps ids
  have hcalls : empty.Knows calls := by decide +kernel
  have hroot : ps.Has ⟨0⟩ := by decide +kernel
  have hbeat : (2.0 : Float).isFinite = true := by decide +kernel
  obtain ⟨r, houtcome, hrecomputes⟩ := resolve_recomputes calls hcalls hroot hbeat
  -- What is asked for can be read off the outcome.
  have hasks : (ps.resolve ⟨0⟩ 2.0).outcome.toOption.map (fun r =>
      (r.entries.map fun e => (e.beat, e.token.point.index, e.action), r.rearm)) =
        some ([(2.0, 0, 8), (6.0, 3, 7), (6.0, 3, 5)], some (6.0, ⟨⟨0⟩, 0⟩)) := by
    decide +kernel
  rw [houtcome] at hasks
  obtain ⟨hentries, hrearm⟩ := Prod.mk.inj (Option.some.inj hasks)
  exact ⟨by decide +kernel, by decide +kernel, r, houtcome, hentries, hrearm, hrecomputes⟩

end Points

end Cadence
