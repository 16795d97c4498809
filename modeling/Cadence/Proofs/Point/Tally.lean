import Mathlib
import Cadence.Proofs.Point.Recomputation

/-!
# The count of beats

A point counts the beats that it takes. Beats come to points in two ways: a resolution gives them out, to
its root and to what derives from it, and a point that is derived from points with beats is created with
one. This file says for each operation on points which counts go up, and where a beat comes from that is not
counted.

- `Spreads.tallies`: a resolution counts one more beat for each point that has one afterwards, and for no
  other;
- `tallies_of_resets`: a reset takes beats away and counts none;
- `tallies_derive`: a derivation counts none either, although it may give the new point a beat.
-/

namespace Cadence

variable {α : Type}

namespace Points

/-- How many beats a point took so far. A point that was not created took none. -/
def resolutionsOf (ps : Points α) (q : PointId) : ℕ := (ps.node? q).elim 0 (·.resolutions)

theorem resolutionsOf_of_node? {ps : Points α} {q : PointId} {node : PointNode α}
    (h : ps.node? q = some node) : ps.resolutionsOf q = node.resolutions := by
  rw [resolutionsOf, h, Option.elim_some]

theorem resolutionsOf_congr {ps ps' : Points α} {q : PointId}
    (h : (ps'.node? q).map (·.resolutions) = (ps.node? q).map (·.resolutions)) :
    ps'.resolutionsOf q = ps.resolutionsOf q :=
  elim_node?_congr h 0

/-- Of points after the source took a beat, those that it went on to: what derives from the source loses its
beat first, so whatever it has afterwards was given to it. -/
def Reached (ps : Points α) (source : Option PointId) (q : PointId) : Prop :=
  ∃ root ∈ source, ps.DerivesFrom q root ∧ (ps.beat? q).isSome

theorem not_reached_none (ps : Points α) (q : PointId) : ¬ ps.Reached none q := by
  rintro ⟨_, ⟨⟩, -⟩

/-- Points after the source, if there is one, took a beat: the points that it reached count one more, and no
other point has a beat that it did not have before, unless it was born with it. -/
structure Tallies (ps ps' : Points α) (source : Option PointId) (born : PointId → Float → Prop) :
    Prop where
  /-- The points that were reached took a beat. -/
  reached : ∀ q, ps'.Reached source q → ps'.resolutionsOf q = ps.resolutionsOf q + 1
  /-- No other point did. -/
  unreached : ∀ q, ¬ ps'.Reached source q → ps'.resolutionsOf q = ps.resolutionsOf q
  /-- Where these have their beats from. -/
  kept : ∀ q beat, ¬ ps'.Reached source q → ps'.beat? q = some beat →
    ps.beat? q = some beat ∨ born q beat

namespace Tallies

variable {ps ps' ps'' : Points α} {source : Option PointId} {born : PointId → Float → Prop}

/-- Nothing takes a beat. -/
theorem silent (hcount : ∀ q, ps'.resolutionsOf q = ps.resolutionsOf q)
    (hbeat : ∀ q beat, ps'.beat? q = some beat → ps.beat? q = some beat ∨ born q beat) :
    Tallies ps ps' none born where
  reached := fun q hq => absurd hq (not_reached_none ps' q)
  unreached := fun q _ => hcount q
  kept := fun q beat _ => hbeat q beat

/-- Nothing changes. -/
theorem of_eq (h : ps' = ps) : Tallies ps ps' none born :=
  .silent (fun q => by rw [h]) fun q beat hbeat => .inl (h ▸ hbeat)

/-- Counts and beats are left alone. -/
theorem of_keeps (h : Keeps (fun node => (node.beat, node.resolutions)) ps ps') :
    Tallies ps ps' none born := by
  refine .silent (fun q => resolutionsOf_congr (h.comp Prod.snd q)) fun q beat hbeat => .inl ?_
  have hsame := congrArg (·.bind id) (h.comp Prod.fst q)
  simp only [Option.bind_map] at hsame
  exact hsame.symm.trans hbeat

/-- What comes before the source takes its beat. -/
theorem trans (h : Tallies ps ps' none born) (h' : Tallies ps' ps'' source born) :
    Tallies ps ps'' source born where
  reached := fun q hq => by rw [h'.reached q hq, h.unreached q (not_reached_none ps' q)]
  unreached := fun q hq => by rw [h'.unreached q hq, h.unreached q (not_reached_none ps' q)]
  kept := fun q beat hq hbeat => by
    rcases h'.kept q beat hq hbeat with hold | hborn
    · exact h.kept q beat (not_reached_none ps' q) hold
    · exact .inr hborn

/-- A source that reaches no point is as good as none. -/
theorem of_none (h : Tallies ps ps' none born) (hsource : ∀ q, ¬ ps'.Reached source q) :
    Tallies ps ps' source born where
  reached := fun q hq => absurd hq (hsource q)
  unreached := fun q _ => h.unreached q (not_reached_none ps' q)
  kept := fun q beat _ => h.kept q beat (not_reached_none ps' q)

end Tallies

section

variable {ps ps' : Points α} {born : PointId → Float → Prop}

/-- A reset takes beats away, and no count changes. -/
theorem tallies_of_resets (h : ∀ q, ps'.node? q = (ps.node? q).map PointNode.reset ∨
    ps'.node? q = ps.node? q) : Tallies ps ps' none born := by
  refine .silent (fun q => resolutionsOf_congr ?_) fun q beat hbeat => .inl ?_
  · rcases h q with hreset | hsame
    · rw [hreset, Option.map_map]
      rfl
    · rw [hsame]
  · unfold beat? at hbeat ⊢
    rcases h q with hreset | hsame
    · -- A point that was reset has no beat.
      rw [hreset, Option.bind_map] at hbeat
      obtain ⟨_, -, hnone⟩ := Option.bind_eq_some_iff.mp hbeat
      cases hnone
    · rwa [hsame] at hbeat

/-- A point that is not derived is created without a beat. -/
theorem tallies_insert (ps : Points α) (kind : PointKind) :
    Tallies ps (ps.insert kind).2 none born := by
  refine .silent (fun q => ?_) fun q beat hbeat => .inl ?_
  · unfold resolutionsOf
    rw [node?_insert]
    split_ifs with hq
    · rw [hq, node?_nextId]
      rfl
    · rfl
  · unfold beat? at hbeat ⊢
    rw [node?_insert] at hbeat
    split_ifs at hbeat
    · cases hbeat
    · exact hbeat

/-- A derived point is created with the value of its derivation, and that is not counted. -/
theorem tallies_derive {d : Derivation} (h : ∀ id ∈ d.points, ps.Has id) :
    Tallies ps (ps.derive d).2 none fun q beat => q = ps.nextId ∧ ps.amount d = some beat := by
  refine .silent (fun q => ?_) fun q beat hbeat => ?_
  · by_cases hq : q = ps.nextId
    · obtain ⟨_, hnode, -⟩ := node?_derive h
      rw [resolutionsOf, hnode, if_pos hq, hq, resolutionsOf, node?_nextId]
      rfl
    · exact resolutionsOf_congr (map_node?_derive h (fun node child => by rw [addChild_eq]) hq)
  · rw [beat?_derive h] at hbeat
    split_ifs at hbeat with hq
    · exact .inr ⟨hq, hbeat⟩
    · exact .inl hbeat

/-- Attaching an action leaves counts and beats alone. -/
theorem tallies_addAction (ps : Points α) (id : PointId) (action : α) (now : Float) :
    Tallies ps (ps.addAction id action now).2 none born :=
  .of_keeps (keeps_addAction (fun _ _ => rfl) ps id action now)

/-- A resolution counts one more beat for each point that derives from its root and has a beat
afterwards. -/
theorem Spreads.tallies {root : PointId} {beat : Float} {given : PointId → Option Float}
    (h : ps.Spreads ps' root beat given) (hroot : ps.Has root) :
    Tallies ps ps' (some root) born := by
  have hderives (q : PointId) : ps'.DerivesFrom q root ↔ ps.DerivesFrom q root :=
    (h.keeps.comp PointNode.derivation).derivesFrom_iff q root
  -- The counts of what derives from the root, by whether it has a beat now.
  have hcount (q : PointId) (hq : ps.DerivesFrom q root) :
      ps'.resolutionsOf q = ps.resolutionsOf q + if (ps'.beat? q).isSome then 1 else 0 := by
    obtain ⟨node, hnode⟩ := exists_node? (has_of_derivesFrom hroot hq)
    rw [resolutionsOf_of_node? (h.node?_eq hroot hnode hq), resolutionsOf_of_node? hnode]
    rfl
  refine ⟨?_, fun q hq => ?_, fun q value hq hbeat => .inl ?_⟩
  · rintro q ⟨_, ⟨⟩, hq, hsome⟩
    rw [hcount q ((hderives q).mp hq), if_pos hsome]
  · by_cases hd : ps.DerivesFrom q root
    · rw [hcount q hd, if_neg fun hsome => hq ⟨root, rfl, (hderives q).mpr hd, hsome⟩, Nat.add_zero]
    · rw [resolutionsOf, h.beyond q hd, resolutionsOf]
  · by_cases hd : ps.DerivesFrom q root
    · exact absurd ⟨root, rfl, (hderives q).mpr hd, Option.isSome_of_eq_some hbeat⟩ hq
    · rwa [beat?, h.beyond q hd] at hbeat

end

end Points

end Cadence
