import Mathlib
import Cadence.Proofs.Point.Calls

/-!
# Operands that do not exist

Calls may name points that were never created. Looking such a point up ends a call, and as long as nothing
has changed by then, the points stay as they were. A derivation looks its operands up before the new point
is created, but only as far as it has to: once the left one is known to be rebindable the right one is
not asked whether it is, and once the left one is known to have no beat the right one is not asked for its
own. If both are the case, the right operand is first looked up when the new point is there already.

- `derive_of_missing`: any other derivation that names a missing point changes nothing;
- `derive_of_skipsRight`: what this one leaves behind;
- `Call.run_of_missing`: no other call that names a missing point changes anything;
- `missing_operand_noticed`: over any calls, operands come before what is computed from them as long as no
  derivation skips a missing operand.
-/

namespace Cadence

variable {α : Type}

namespace Points

variable {ps : Points α} {d : Derivation} {id : PointId}

/-! ## Looking missing points up -/

theorem find_of_not_has (h : ¬ ps.Has id) : ps.find id = .error id := by
  unfold find
  rw [node?_eq_none h]

theorem anyRebindable_cons_of_not_has (h : ¬ ps.Has id) (rest : List PointId) :
    ps.anyRebindable (id :: rest) = .error id := by
  unfold anyRebindable
  rw [find_of_not_has h]
  rfl

theorem valueOf_of_not_has (h : ¬ ps.Has id) : ps.valueOf (.point id) = .error id := by
  change (ps.find id).map (·.beat) = _
  rw [find_of_not_has h]
  rfl

/-- The right operand is looked up once the left one has a value. -/
theorem evaluate_of_not_has {lhs : Operand} {value : Float} (hlhs : ps.valueOf lhs = .ok (some value))
    (h : ¬ ps.Has id) (op : PointOp) : ps.evaluate ⟨op, lhs, .point id⟩ = .error id := by
  unfold evaluate
  rw [hlhs, valueOf_of_not_has h]
  rfl

/-- It is not looked up before. -/
theorem evaluate_of_valueOf_eq_none {lhs : Operand} (hlhs : ps.valueOf lhs = .ok none) (op : PointOp)
    (rhs : Operand) : ps.evaluate ⟨op, lhs, rhs⟩ = .ok none := by
  unfold evaluate
  rw [hlhs]
  rfl

/-- A derivation that fails before the point is created changes nothing. -/
theorem derive_of_anyRebindable_eq_error (h : ps.anyRebindable d.points = .error id) :
    ps.derive d = (.error id, ps) := by
  simp [derive, h, bind, Except.bind]

theorem derive_of_evaluate_eq_error {rebindable : Bool}
    (hrebindable : ps.anyRebindable d.points = .ok rebindable) (h : ps.evaluate d = .error id) :
    ps.derive d = (.error id, ps) := by
  simp [derive, hrebindable, h, bind, Except.bind]

theorem link_cons_of_not_has (h : ¬ ps.Has id) (child : PointId) (rest : List PointId) :
    ps.link child (id :: rest) = (.error id, ps) := by
  unfold link
  rw [find_of_not_has h]

/-- A new point comes next, and no other one appears. -/
theorem has_push_iff (ps : Points α) (new : PointNode α) (q : PointId) :
    (⟨ps.nodes.push new⟩ : Points α).Has q ↔ ps.Has q ∨ q = ps.nextId := by
  obtain ⟨index⟩ := q
  rw [Has, size, Array.size_push, Nat.lt_succ_iff_lt_or_eq, nextId, PointId.mk.injEq]
  rfl

/-- A point is linked to a pair of operands if both are there. -/
theorem link_pair_fst {p : PointId} (hp : ps.Has p) (child : PointId) :
    (ps.link child [p, id]).1 = if ps.Has id then .ok child else .error id := by
  have hhas : (ps.modify p (·.addChild child)).Has id ↔ ps.Has id := by
    rw [Has, Has, size_modify]
  rw [link_cons_of_has hp]
  by_cases hid : ps.Has id
  · rw [link_cons_of_has (hhas.mpr hid), if_pos hid]
    rfl
  · rw [link_cons_of_not_has (mt hhas.mp hid), if_neg hid]

/-- Linking changes no derivation, however far it gets. -/
theorem keeps_link (ps : Points α) (child : PointId) (ids : List PointId) :
    Keeps (·.derivation) ps (ps.link child ids).2 := by
  induction ids generalizing ps with
  | nil => exact .refl ps
  | cons id rest ih =>
    by_cases hid : ps.Has id
    · rw [link_cons_of_has hid]
      exact (keeps_modify ps id fun node => by rw [addChild_eq]).trans (ih _)
    · rw [link_cons_of_not_has hid]
      exact .refl ps

/-! ## Derivations -/

/-- The left operand is a point that is rebindable and has no beat, so the new point is created without a look
at the right operand. -/
def SkipsRight (ps : Points α) (d : Derivation) : Prop :=
  ∃ id ∈ d.lhs.point?, ∃ node ∈ ps.node? id, node.rebindable = true ∧ node.beat = none

instance (ps : Points α) (d : Derivation) : Decidable (ps.SkipsRight d) :=
  inferInstanceAs (Decidable
    (∃ id ∈ d.lhs.point?, ∃ node ∈ ps.node? id, node.rebindable = true ∧ node.beat = none))

/-- A left operand that is missing is looked up first. -/
theorem derive_of_missing_left (hlhs : d.lhs = .point id) (hid : ¬ ps.Has id) :
    ps.derive d = (.error id, ps) := by
  obtain ⟨op, lhs, rhs⟩ := d
  obtain rfl : lhs = .point id := hlhs
  exact derive_of_anyRebindable_eq_error (anyRebindable_cons_of_not_has hid _)

/-- A right operand that is missing is looked up before the point is created, unless the left one answers
for it. -/
theorem derive_of_missing_right (hrhs : d.rhs = .point id) (hid : ¬ ps.Has id)
    (hlhs : ∀ p, d.lhs = .point p → ps.Has p) (h : ¬ ps.SkipsRight d) :
    ps.derive d = (.error id, ps) := by
  obtain ⟨op, lhs, rhs⟩ := d
  obtain rfl : rhs = .point id := hrhs
  cases lhs with
  | scalar value =>
    exact derive_of_anyRebindable_eq_error (anyRebindable_cons_of_not_has hid _)
  | point p =>
    obtain ⟨node, hnode⟩ := exists_node? (hlhs p rfl)
    have hsearch := anyRebindable_cons_of_node? hnode [id]
    by_cases hre : node.rebindable = true
    · -- The left operand is rebindable, so it has a beat.
      obtain ⟨value, hbeat⟩ : ∃ value, node.beat = some value :=
        Option.ne_none_iff_exists'.mp fun hnone => h ⟨p, rfl, node, hnode, hre, hnone⟩
      have hvalue := valueOf_of_node? hnode
      rw [hbeat] at hvalue
      rw [if_pos hre] at hsearch
      exact derive_of_evaluate_eq_error hsearch (evaluate_of_not_has hvalue hid op)
    · rw [if_neg hre, anyRebindable_cons_of_not_has hid] at hsearch
      exact derive_of_anyRebindable_eq_error hsearch

theorem point?_eq_some {o : Operand} (h : o.point? = some id) : o = .point id := by
  cases o with
  | scalar value => cases h
  | point p => exact congrArg Operand.point (Option.some.inj h)

/-- A derivation that names a missing point, and looks at it in time, changes nothing. -/
theorem derive_of_missing (hmissing : ∃ id ∈ d.points, ¬ ps.Has id) (h : ¬ ps.SkipsRight d) :
    ∃ id ∈ d.points, ¬ ps.Has id ∧ ps.derive d = (.error id, ps) := by
  -- The left operand is looked up first, so it is the one that is reported if both are missing.
  by_cases hleft : ∀ p, d.lhs = .point p → ps.Has p
  · obtain ⟨id, hin, hid⟩ := hmissing
    have hrhs := ((mem_points d id).mp hin).resolve_left fun heq => hid (hleft id (point?_eq_some heq))
    exact ⟨id, hin, hid, derive_of_missing_right (point?_eq_some hrhs) hid hleft h⟩
  · push Not at hleft
    obtain ⟨p, hlhs, hp⟩ := hleft
    refine ⟨p, (mem_points d p).mpr (.inl ?_), hp, derive_of_missing_left hlhs hp⟩
    rw [hlhs]
    rfl

/-- A derivation that skips a missing right operand creates a point which names it. It fails afterwards,
unless the operand is the new point itself. -/
theorem derive_of_skipsRight (h : ps.SkipsRight d) (hrhs : d.rhs = .point id) (hid : ¬ ps.Has id) :
    (ps.derive d).1 = (if id = ps.nextId then .ok id else .error id) ∧
      (ps.derive d).2.size = ps.size + 1 ∧ (ps.derive d).2.Names ps.nextId id := by
  obtain ⟨op, lhs, rhs⟩ := d
  obtain rfl : rhs = .point id := hrhs
  obtain ⟨p, hp, node, hnode, hre, hbeat⟩ := h
  obtain rfl : lhs = .point p := point?_eq_some hp
  have hsearch := anyRebindable_cons_of_node? hnode [id]
  have hvalue := valueOf_of_node? hnode
  rw [if_pos hre] at hsearch
  rw [hbeat] at hvalue
  -- The new point is there before it is linked, without a beat.
  let new : PointNode α := .fresh .derived true (some ⟨op, .point p, .point id⟩)
  let pushed : Points α := ⟨ps.nodes.push new⟩
  have hderive : ps.derive ⟨op, .point p, .point id⟩ = pushed.link ps.nextId [p, id] := by
    unfold derive
    rw [show Derivation.points ⟨op, .point p, .point id⟩ = [p, id] from rfl, hsearch,
      evaluate_of_valueOf_eq_none hvalue]
    rfl
  have hleft : pushed.Has p := (has_push_iff ps new p).mpr (.inl (has_of_node? hnode))
  have hright : pushed.Has id ↔ id = ps.nextId := by
    rw [has_push_iff, or_iff_right hid]
  have hnames : pushed.Names ps.nextId id :=
    (names_push ps new _ _).mpr (.inr ⟨rfl, _, rfl, .tail _ (.head _)⟩)
  have hkeeps := keeps_link pushed ps.nextId [p, id]
  rw [hderive]
  refine ⟨?_, ?_, (hkeeps.names_iff _ _).mpr hnames⟩
  · rw [link_pair_fst hleft]
    by_cases hnew : id = ps.nextId
    · rw [if_pos (hright.mpr hnew), if_pos hnew, hnew]
    · rw [if_neg (mt hright.mp hnew), if_neg hnew]
  · exact (congrArg PointId.index hkeeps.nextId_eq).trans (Array.size_push _)

/-! ## Any calls -/

namespace Call

/-- If the call is a derivation that does not look at its right operand, it names existing points. -/
def Careful (ps : Points α) : Call α → Prop
  | .derive d => ps.SkipsRight d → ∀ id ∈ d.points, ps.Has id
  | _ => True

instance (ps : Points α) (call : Call α) : Decidable (call.Careful ps) := by
  cases call <;> unfold Careful <;> infer_instance

/-- A call that names a missing point changes nothing. -/
theorem run_of_missing {call : Call α} (hcareful : call.Careful ps)
    (hmissing : ∃ id ∈ call.names, ¬ ps.Has id) : call.run ps = ps := by
  obtain ⟨id, hin, hid⟩ := hmissing
  cases call with
  | insert | resetAll => cases hin
  | derive d =>
    -- All of its operands exist if it does not look at the right one.
    obtain ⟨_, -, -, hderive⟩ :=
      derive_of_missing ⟨id, hin, hid⟩ fun hskips => hid (hcareful hskips id hin)
    exact congrArg Prod.snd hderive
  | resolve root beat =>
    obtain rfl := List.mem_singleton.mp hin
    simp only [run, Points.resolve, find_of_not_has hid]
  | rearm root beat token =>
    obtain rfl := List.mem_singleton.mp hin
    simp only [run, Points.rearm, find_of_not_has hid]
  | addAction root action now =>
    obtain rfl := List.mem_singleton.mp hin
    simp only [run, Points.addAction, find_of_not_has hid]
  | resetSubtree root =>
    obtain rfl := List.mem_singleton.mp hin
    simp only [run, Points.resetSubtree, find_of_not_has hid]

end Call

/-- No derivation among the calls skips a missing right operand. -/
def Careful (ps : Points α) : List (Call α) → Prop
  | [] => True
  | call :: calls => call.Careful ps ∧ (call.run ps).Careful calls

/-- It can be tested whether calls are careful. -/
def decidableCareful : ∀ (ps : Points α) (calls : List (Call α)), Decidable (ps.Careful calls)
  | _, [] => .isTrue trivial
  | ps, call :: calls =>
    letI := decidableCareful (call.run ps) calls
    inferInstanceAs (Decidable (call.Careful ps ∧ (call.run ps).Careful calls))

instance (ps : Points α) (calls : List (Call α)) : Decidable (ps.Careful calls) :=
  decidableCareful ps calls

/-- Careful calls leave every point as it was created, whatever they name. -/
theorem Records.afterCarefulCalls {log : List Creation} (h : ps.Records log)
    {calls : List (Call α)} (hcareful : ps.Careful calls) :
    ∃ log', (ps.afterCalls calls).Records log' := by
  induction calls generalizing ps log with
  | nil => exact ⟨log, h⟩
  | cons call calls ih =>
    -- Either the call is one of those that are recorded, or nothing happens in it.
    by_cases hnames : ∀ id ∈ call.names, ps.Has id
    · exact ih (h.call call hnames) hcareful.2
    · push Not at hnames
      have hsame := call.run_of_missing hcareful.1 hnames
      have hrest := hcareful.2
      rw [hsame] at hrest
      rw [show ps.afterCalls (call :: calls) = (call.run ps).afterCalls calls from rfl, hsame]
      exact ih h hrest

/-- A derivation with a missing operand fails and changes nothing, unless its left operand is a rebindable
point without a beat and the right one is missing. Unless that happens, every operand comes before the
points computed from it, whatever was called and whatever it named. -/
theorem missing_operand_noticed (calls : List (Call α)) :
    let ps := empty.afterCalls calls
    (∀ d : Derivation, (∃ id ∈ d.points, ¬ ps.Has id) → ¬ ps.SkipsRight d →
      ∃ id ∈ d.points, ¬ ps.Has id ∧ ps.derive d = (.error id, ps)) ∧
    (empty.Careful calls → ∀ child parent, ps.Names child parent →
      ps.Has child ∧ parent.index < child.index) := by
  intro ps
  refine ⟨fun d => derive_of_missing, fun hcareful child parent hnames => ?_⟩
  obtain ⟨log, hrecords⟩ := Records.empty.afterCarefulCalls hcareful
  obtain ⟨node, _, hnode, -⟩ := id hnames
  exact ⟨has_of_node? hnode, hrecords.linked.earlier hnames⟩

/-- Derivations over a one-shot point and over a bound one look at their right operand, and fail if it is
missing. -/
theorem missing_operand_noticed_thrice :
    let calls : List (Call Unit) :=
      [.insert .persistent, .insert .oneShot, .derive ⟨.add, .point ⟨1⟩, .point ⟨9⟩⟩,
        .resolve ⟨0⟩ 4.0, .derive ⟨.add, .point ⟨0⟩, .point ⟨2⟩⟩,
        .derive ⟨.mul, .point ⟨0⟩, .scalar 2.0⟩, .resetSubtree ⟨5⟩]
    let ps := empty.afterCalls calls
    empty.Careful calls ∧ ps.size = 3 ∧
      (∀ child parent, ps.Names child parent → ps.Has child ∧ parent.index < child.index) ∧
      ∃ id, ¬ ps.Has id ∧ ps.derive ⟨.sub, .point ⟨1⟩, .point ⟨3⟩⟩ = (.error id, ps) := by
  intro calls ps
  have hcareful : empty.Careful calls := by decide +kernel
  obtain ⟨hnoticed, hearlier⟩ := missing_operand_noticed calls
  have hmissing : ∃ id ∈ Derivation.points ⟨.sub, .point ⟨1⟩, .point ⟨3⟩⟩, ¬ ps.Has id :=
    ⟨⟨3⟩, by decide +kernel, by decide +kernel⟩
  obtain ⟨id, -, hid, hderive⟩ := hnoticed _ hmissing (by decide +kernel)
  exact ⟨hcareful, by decide +kernel, hearlier hcareful, id, hid, hderive⟩

/-- The right operand of a sum over an unbound persistent point is the sum itself, which is created and
answered. If it is a point that is created even later, the sum is not answered, but it is created. -/
theorem missing_operand_overlooked :
    let ps := (empty : Points Unit).afterCalls [.insert .persistent]
    let own : Derivation := ⟨.add, .point ⟨0⟩, .point ⟨1⟩⟩
    let later : Derivation := ⟨.add, .point ⟨0⟩, .point ⟨5⟩⟩
    (¬ ps.Has ⟨1⟩ ∧ (ps.derive own).1 = .ok ⟨1⟩ ∧ (ps.derive own).2.Names ⟨1⟩ ⟨1⟩) ∧
      (¬ ps.Has ⟨5⟩ ∧ (ps.derive later).1 = .error ⟨5⟩ ∧ (ps.derive later).2.size = 2 ∧
        (ps.derive later).2.Names ⟨1⟩ ⟨5⟩) := by
  intro ps own later
  have hown := derive_of_skipsRight (show ps.SkipsRight own by decide +kernel) rfl
    (show ¬ ps.Has ⟨1⟩ by decide +kernel)
  have hlater := derive_of_skipsRight (show ps.SkipsRight later by decide +kernel) rfl
    (show ¬ ps.Has ⟨5⟩ by decide +kernel)
  exact ⟨⟨by decide +kernel, hown.1, hown.2.2⟩, by decide +kernel, hlater⟩

end Points

end Cadence
