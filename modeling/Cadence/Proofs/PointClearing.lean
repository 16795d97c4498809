import Mathlib
import Cadence.Proofs.Silence

/-!
# Clearing a point

Clearing a point stops it together with everything that is computed from it: their entries leave the queue,
and they have no beats afterwards. Everything else stays as it is.

- `Points.Reaches`: the entries of a point and of what is computed from it;
- `Conductor.clearPoint_eq`: clearing a point as one change of the points and one of the queue;
- `PointCleared` says what clearing a point leaves, and `PointCleared.again` what a second clear finds then;
- `point_cleared_with_descendants` proves both of every clock with a history.
-/

namespace Cadence

variable {σ β : Type}

/-- What a reset leaves of a point: all but its beat and its generation. -/
def PointNode.lasting {α : Type} (node : PointNode α) : PointNode α :=
  { node with beat := none, generation := 0 }

/-- The entry is owned by the point, or by a point that is computed from it. -/
def Points.Reaches {α τ : Type} (ps : Points α) (id : PointId) (e : Entry τ) : Prop :=
  ∃ owner, e.owner = some owner ∧ ps.DerivesFrom owner id

namespace Points

variable {α τ : Type} {ps ps' : Points α} {id : PointId}

/-- The entries of what is collected for a point are those that it reaches. -/
theorem ownedBy_subtree_iff (h : ps.Linked) (hid : ps.Has id) (e : Entry τ) :
    e.ownedBy (ps.subtree id) = true ↔ ps.Reaches id e := by
  unfold Entry.ownedBy Reaches
  rw [Option.any_eq_true]
  exact exists_congr fun owner => and_congr Option.mem_def
    (decide_eq_true_iff.trans (mem_subtree_iff h hid owner))

/-- Which entries a point reaches depends on derivations alone. -/
theorem Keeps.reaches_iff (h : Keeps (·.derivation) ps ps') (id : PointId) (e : Entry τ) :
    ps'.Reaches id e ↔ ps.Reaches id e :=
  exists_congr fun owner => and_congr_right fun _ => h.derivesFrom_iff owner id

/-- A point that was reset has no beat. -/
theorem beat?_of_map_reset {q : PointId} (h : ps'.node? q = (ps.node? q).map PointNode.reset) :
    ps'.beat? q = none := by
  rw [beat?, h, Option.bind_map]
  cases ps.node? q <;> rfl

end Points

namespace Conductor

variable (c : Conductor σ β) {id : PointId}

/-- Clearing a point changes the points and takes entries off the queue, and counts these. -/
theorem clearPoint_eq (hid : c.points.Has id) :
    c.clearPoint id =
      (c.queue.entries.countP (·.ownedBy (c.points.subtree id)),
        { c with
          points := (c.points.resetSubtree id).2
          queue :=
            { c.queue with
              entries := c.queue.entries.filter (!·.ownedBy (c.points.subtree id)) } }) := by
  unfold clearPoint
  rw [Points.resetSubtree_ok hid]
  rfl

/-- Clearing a point keeps all of any point but its beat and its generation. -/
theorem keeps_clearPoint (id : PointId) :
    Points.Keeps PointNode.lasting c.points (c.clearPoint id).2.points := by
  by_cases hid : c.points.Has id
  · intro q
    rw [c.node?_clearPoint_eq hid]
    split_ifs
    · rw [Option.map_map]
      rfl
    · rfl
  · rw [c.clearPoint_of_not_has hid]
    exact .refl _

end Conductor

/-- The clock `c'` after a point was cleared on the clock `c`, and the number that is answered. -/
structure PointCleared (c : Conductor σ β) (id : PointId) (count : ℕ) (c' : Conductor σ β) : Prop where
  /-- The entries of the point and of what is computed from it are taken off the queue and counted. All
  others stay queued in their order. -/
  queue : ∃ taken : Entry (Task β) → Bool, (∀ e, taken e = true ↔ c.points.Reaches id e) ∧
    c'.queue.entries = c.queue.entries.filter (!taken ·) ∧ count = c.queue.entries.countP taken
  /-- Among them are all that carry a token of these points, their actions and their next beats. -/
  tokens : ∀ e ∈ c'.queue.entries, ∀ token, e.task.token? = some token →
    ¬ c.points.DerivesFrom token.point id
  /-- No name is handed out or taken back. -/
  submitted : c'.queue.submitted = c.queue.submitted
  /-- The point has no beat, and neither has what is computed from it. -/
  unbound : ∀ q, c.points.DerivesFrom q id → c'.points.beat? q = none
  /-- Any other point stays as it is. -/
  apart : ∀ q, ¬ c.points.DerivesFrom q id → c'.points.node? q = c.points.node? q
  /-- Every point keeps all but its beat and its generation: its actions, how often it took a beat, and how
  it is computed. -/
  kept : Points.Keeps PointNode.lasting c.points c'.points
  /-- Nothing else changes. -/
  rest : c' = { c with points := c'.points, queue := c'.queue }

/-- Right after a clear there is nothing left for another one to take off the queue. -/
theorem PointCleared.again {c c' c'' : Conductor σ β} {id : PointId} {count count' : ℕ}
    (h : PointCleared c id count c') (h' : PointCleared c' id count' c'') :
    count' = 0 ∧ c''.queue = c'.queue := by
  obtain ⟨taken, htaken, hentries, -⟩ := h.queue
  obtain ⟨taken', htaken', hentries', hcount'⟩ := h'.queue
  -- Both clears look for the same entries, since derivations are kept.
  have hreaches (e : Entry (Task β)) := (h.kept.comp (·.derivation)).reaches_iff id e
  have hnone : ∀ e ∈ c'.queue.entries, taken' e = false := by
    intro e he
    rw [hentries] at he
    have hkept := (List.mem_filter.mp he).2
    rw [← Bool.not_eq_true, htaken', hreaches, ← htaken]
    simpa using hkept
  refine ⟨?_, ?_⟩
  · rw [hcount', List.countP_eq_zero]
    exact fun e he => Bool.eq_false_iff.mp (hnone e he)
  · have hsame : c''.queue.entries = c'.queue.entries := by
      rw [hentries', List.filter_eq_self]
      exact fun e he => by rw [hnone e he]; rfl
    calc c''.queue = ⟨c''.queue.entries, c''.queue.submitted⟩ := rfl
      _ = ⟨c'.queue.entries, c'.queue.submitted⟩ := by rw [hsame, h'.submitted]
      _ = c'.queue := rfl

/-- Clearing a point that was created. -/
theorem Conductor.pointCleared [Transport σ] {events : List (Event σ β)} {m : Moment σ β}
    (h : History events m) {id : PointId} (hid : m.clock.points.Has id) :
    PointCleared m.clock id (m.clock.clearPoint id).1 (m.clock.clearPoint id).2 := by
  have hlinked := h.sound.linked
  have hmem := Points.mem_subtree_iff hlinked hid
  have hnode := m.clock.node?_clearPoint_eq hid
  have hreaches (e : Entry (Task β)) := Points.ownedBy_subtree_iff hlinked hid e
  refine ⟨⟨_, hreaches, ?_, ?_⟩, ?_, ?_, fun q hq => ?_, fun q hq => ?_,
    m.clock.keeps_clearPoint id, ?_⟩
  · rw [m.clock.clearPoint_eq hid]
  · rw [m.clock.clearPoint_eq hid]
  · intro e he token htoken hderives
    rw [m.clock.clearPoint_eq hid] at he
    obtain ⟨hqueued, hkept⟩ := List.mem_filter.mp he
    -- An entry with a token is owned by the point of the token.
    obtain ⟨howner, -⟩ := h.generation_le (List.mem_append_left _ hqueued) htoken
    rw [(hreaches e).mpr ⟨token.point, howner, hderives⟩] at hkept
    cases hkept
  · rw [m.clock.clearPoint_eq hid]
  · exact Points.beat?_of_map_reset ((hnode q).trans (if_pos ((hmem q).mpr hq)))
  · exact (hnode q).trans (if_neg (mt (hmem q).mp hq))
  · rw [m.clock.clearPoint_eq hid]

/-- Clearing a point takes exactly the entries off the queue that are owned by it or by a point computed from
it, counts them, and leaves these points without beats and everything else as it was. A second clear right
after it finds nothing. -/
theorem point_cleared_with_descendants [Transport σ] {events : List (Event σ β)} {m : Moment σ β}
    (h : History events m) {id : PointId} (hid : m.clock.points.Has id) :
    PointCleared m.clock id (m.clock.clearPoint id).1 (m.clock.clearPoint id).2 ∧
      ((m.clock.clearPoint id).2.clearPoint id).1 = 0 ∧
      ((m.clock.clearPoint id).2.clearPoint id).2.queue = (m.clock.clearPoint id).2.queue := by
  have hfirst := Conductor.pointCleared h hid
  refine ⟨hfirst, ?_⟩
  -- The second clear is one of a clock with a history as well.
  have hstep : Step m (.called (.clearPoint id) m.clock) ⟨(m.clock.clearPoint id).2, m.underway⟩ :=
    .call trivial
  have hlater := h.append (.single hstep)
  exact hfirst.again (Conductor.pointCleared hlater ((hfirst.kept.has_iff id).mpr hid))

namespace Conductor

/-- A recurring point, two points computed from it, and one computed from both of these; and a persistent
point beside them. The first, the last and the persistent one have an action each, and are bound. -/
def loopingCalls : List (Operation Offline Unit) :=
  [.recurringPoint 4.0, .derivePoint ⟨.add, .point ⟨0⟩, .scalar 1.0⟩,
    .derivePoint ⟨.add, .point ⟨0⟩, .scalar 2.0⟩, .derivePoint ⟨.add, .point ⟨1⟩, .point ⟨2⟩⟩,
    .createPoint .persistent, .addAction ⟨0⟩ ⟨"loop", ()⟩, .addAction ⟨3⟩ ⟨"fill", ()⟩,
    .addAction ⟨4⟩ ⟨"cue", ()⟩, .bind ⟨0⟩ 4.0, .bind ⟨4⟩ 2.0]

/-- The clock after these calls. -/
def looping : Conductor Offline Unit := offline.applyAll loopingCalls

end Conductor

/-- The two actions and the next beat of the recurring point are taken off the queue, and the action of the
persistent point stays. -/
theorem looping_cleared_with_descendants :
    Conductor.looping.points.Has ⟨0⟩ ∧
      PointCleared Conductor.looping ⟨0⟩ 3 (Conductor.looping.clearPoint ⟨0⟩).2 ∧
      (Conductor.looping.clearPoint ⟨0⟩).2.queue.entries.map (·.task.label) = ["cue"] ∧
      ((Conductor.looping.clearPoint ⟨0⟩).2.clearPoint ⟨0⟩).1 = 0 := by
  have hhistory : History (callEvents Conductor.offline Conductor.loopingCalls)
      ⟨Conductor.looping, []⟩ := Conductor.history_offline_calls (by decide +kernel)
  have hid : Conductor.looping.points.Has ⟨0⟩ := by decide +kernel
  obtain ⟨hcleared, hagain, -⟩ := point_cleared_with_descendants hhistory hid
  have hcount : (Conductor.looping.clearPoint ⟨0⟩).1 = 3 := by decide +kernel
  dsimp only at hcleared hagain
  rw [hcount] at hcleared
  exact ⟨hid, hcleared, by decide +kernel, hagain⟩

end Cadence
