import Mathlib
import Cadence.Proofs.Recurrence
import Cadence.Proofs.Run.Dropping
import Cadence.Proofs.Run.Giving

/-!
# The rounds of a derived point

A point that is computed from another one, directly or not, gets a new value whenever that one takes a
beat, and its actions are queued for every finite value. This file keeps the books of such a point since a
moment, as long as it is not reset and takes its beats from that one point only:

- `Points.Values` says what the value of the point is when the other one has a beat, and `Values.unique`
  that there is one such value;
- `Rounds` says which beats the other point took, which value each of them gave, and what was queued;
- `Rounds.run` keeps it through every run, whatever else happens.
-/

namespace Cadence

variable {σ β : Type}

/-! ## Values of derived points -/

/-- The value of an operand, given values of points. -/
def Operand.value (v : PointId → Option Float) : Operand → Option Float
  | .scalar value => some value
  | .point id => v id

/-- The value of a derivation, given values of points. -/
def Derivation.value (v : PointId → Option Float) (d : Derivation) : Option Float :=
  (d.lhs.value v).bind fun lhs => (d.rhs.value v).map (d.op.apply lhs)

/-- The value of a derivation depends on the values of its operands alone. -/
theorem Derivation.value_congr {v v' : PointId → Option Float} {d : Derivation}
    (h : ∀ id ∈ d.points, v id = v' id) : d.value v = d.value v' := by
  have hvalue (o : Operand) (ho : ∀ id, o.point? = some id → v id = v' id) :
      o.value v = o.value v' := by
    cases o with
    | scalar => rfl
    | point id => exact ho id rfl
  unfold value
  rw [hvalue d.lhs fun id hid => h id ((Points.mem_points d id).mpr (.inl hid)),
    hvalue d.rhs fun id hid => h id ((Points.mem_points d id).mpr (.inr hid))]

namespace Points

variable {α : Type}

theorem amount_eq_value (ps : Points α) (d : Derivation) : ps.amount d = d.value ps.beat? := by
  have hworth (o : Operand) : ps.worth o = o.value ps.beat? := by cases o <;> rfl
  rw [amount, Derivation.value, hworth, hworth]

/-- Values of the points that `q` is computed from, itself included, when `p` has a beat: points that are
computed from `p` have the values of their derivations, as far as these are finite, and all others have
their beats. -/
structure Values (ps : Points α) (p : PointId) (beat : Float) (q : PointId)
    (v : PointId → Option Float) : Prop where
  /-- The point that has the beat. -/
  root : v p = some beat
  /-- A point that is not computed from it. -/
  apart : ∀ a, ps.DerivesFrom q a → ¬ ps.DerivesFrom a p → v a = ps.beat? a
  /-- A point that is. -/
  derived : ∀ a node d, ps.DerivesFrom q a → ps.DerivesFrom a p → a ≠ p → ps.node? a = some node →
    node.derivation = some d → v a = (d.value v).filter (·.isFinite)

/-- There is one value for each of these points. -/
theorem Values.unique {ps : Points α} (hlinked : ps.Linked) {p q : PointId} {beat : Float}
    {v v' : PointId → Option Float} (h : ps.Values p beat q v) (h' : ps.Values p beat q v')
    {a : PointId} (ha : ps.DerivesFrom q a) : v a = v' a := by
  -- By induction on the name, since operands are earlier.
  induction hindex : a.index using Nat.strong_induction_on generalizing a with
  | _ index ih =>
    subst hindex
    by_cases hp : ps.DerivesFrom a p
    swap
    · rw [h.apart a ha hp, h'.apart a ha hp]
    rcases hp.cases_head with rfl | ⟨operand, ⟨node, d, hnode, hd, -⟩, -⟩
    · rw [h.root, h'.root]
    by_cases heq : a = p
    · rw [heq, h.root, h'.root]
    rw [h.derived a node d ha hp heq hnode hd, h'.derived a node d ha hp heq hnode hd]
    refine congrArg _ (Derivation.value_congr fun id hid => ?_)
    have hnames : ps.Names a id := ⟨node, d, hnode, hd, hid⟩
    exact ih id.index (hlinked.earlier hnames) (ha.tail hnames) rfl

/-! ## Later points -/

/-- Later points: none was lost, and each is computed as before. -/
def Grown (ps ps' : Points α) : Prop :=
  ∀ id node, ps.node? id = some node → ∃ node', ps'.node? id = some node' ∧ node.Grows node'

theorem Grown.refl (ps : Points α) : ps.Grown ps := fun _ node hnode => ⟨node, hnode, .refl node⟩

theorem Advances.grown {ps ps' : Points α} {resets : PointId → Prop} (h : ps.Advances ps' resets) :
    ps.Grown ps' := by
  intro id node hnode
  obtain ⟨node', hnode', hgrows, -⟩ := h.node hnode
  exact ⟨node', hnode', hgrows⟩

namespace Grown

variable {ps ps' ps'' : Points α} {q : PointId}

theorem trans (h : ps.Grown ps') (h' : ps'.Grown ps'') : ps.Grown ps'' := by
  intro id node hnode
  obtain ⟨node', hnode', hgrows⟩ := h id node hnode
  obtain ⟨node'', hnode'', hgrows'⟩ := h' id node' hnode'
  exact ⟨node'', hnode'', hgrows.trans hgrows'⟩

theorem has (h : ps.Grown ps') (hq : ps.Has q) : ps'.Has q := by
  obtain ⟨node, hnode⟩ := exists_node? hq
  obtain ⟨node', hnode', -⟩ := h _ node hnode
  exact has_of_node? hnode'

theorem names_iff (h : ps.Grown ps') (hq : ps.Has q) (parent : PointId) :
    ps'.Names q parent ↔ ps.Names q parent := by
  obtain ⟨node, hnode⟩ := exists_node? hq
  obtain ⟨node', hnode', hgrows⟩ := h _ node hnode
  refine names_iff_of_derivation ?_ parent
  rw [hnode, hnode', Option.map_some, Option.map_some, hgrows.derivation]

/-- A point that was created derives from the same points as before. -/
theorem derivesFrom_iff (h : ps.Grown ps') (hlinked : ps.Linked) (hq : ps.Has q) (root : PointId) :
    ps'.DerivesFrom q root ↔ ps.DerivesFrom q root := by
  constructor
  · intro hd
    induction hd using Relation.ReflTransGen.head_induction_on with
    | refl => exact .refl
    | head hnames _ ih =>
      -- The operand was created before the point, so it was there already.
      have hnames := (h.names_iff hq _).mp hnames
      exact .head hnames (ih ((hlinked.earlier hnames).trans hq))
  · intro hd
    induction hd using Relation.ReflTransGen.head_induction_on with
    | refl => exact .refl
    | head hnames _ ih =>
      exact .head ((h.names_iff hq _).mpr hnames) (ih ((hlinked.earlier hnames).trans hq))

end Grown

/-- What a point is computed from was created before it. -/
theorem Linked.has_of_derivesFrom {ps : Points α} (h : ps.Linked) {q a : PointId} (hq : ps.Has q)
    (ha : ps.DerivesFrom q a) : ps.Has a :=
  (h.index_le ha).trans_lt hq

end Points

/-! ## The books -/

/-- A beat that a point took, the value that another point had then, and the actions that were attached to
that one. -/
structure Round (β : Type) where
  /-- The beat. -/
  beat : Float
  /-- The value. -/
  value : Option Float
  /-- The actions. -/
  actions : List (Action β)

namespace Round

/-- What is queued in a round: the actions at the value, if that is finite. -/
def dues (r : Round β) : List (Float × Action β) := duesAt r.value r.actions

/-- The value is the one that `q` is computed to when `p` has the beat, and the actions are those that were
attached by then: at the start, or in the events up to some time. -/
def Fits (r : Round β) (ps : Points (Action β)) (p q : PointId) (events : List (Event σ β)) : Prop :=
  (∃ v, ps.Values p r.beat q v ∧ r.value = v q) ∧
    ∃ sofar, sofar <+: events ∧ r.actions = ps.actionsOf q ++ sofar.flatMap (Event.addedTo q)

theorem Fits.mono {r : Round β} {ps : Points (Action β)} {p q : PointId}
    {events : List (Event σ β)} (h : r.Fits ps p q events) (later : List (Event σ β)) :
    r.Fits ps p q (events ++ later) := by
  obtain ⟨hvalue, sofar, hsofar, hactions⟩ := h
  exact ⟨hvalue, sofar, hsofar.trans (List.prefix_append _ _), hactions⟩

end Round

namespace Event

/-- The beat that an event gives to the point. -/
def beatFor? (p : PointId) (event : Event σ β) : Option Float :=
  event.given?.bind fun given => if given.1 = p then some given.2 else none

variable [Transport σ]

/-- The event leaves alone what is queued for the point of the token: it does not reset the point, drops
none of its entries, and gives a beat to no other point than `p` that it is computed from. -/
structure Spares (event : Event σ β) (ps : Points (Action β)) (p : PointId) (t : Token) : Prop where
  /-- The point is not reset. -/
  reset : ¬ event.Resets t.point
  /-- None of its entries is dropped. -/
  dropped : ∀ e ∈ event.dropped, e.task.token? ≠ some t
  /-- No other point takes a beat that it is computed from. -/
  only : ∀ a beat, event.given? = some (a, beat) → ps.DerivesFrom t.point a → a = p

end Event

/-- A run leads to later points. -/
theorem Run.grown [Transport σ] {m m' : Moment σ β} {events : List (Event σ β)} (hs : Sound m)
    (hrun : Run m events m') : m.clock.points.Grown m'.clock.points := by
  induction hrun with
  | nil => exact .refl _
  | snoc hrun hstep ih =>
    obtain ⟨_, heffect, -⟩ := hstep.effect (hrun.sound hs)
    exact ih.trans heffect.points.grown

/-- What a run leaves alone that does not disturb the point, and gives a beat to no other point than `p`
that it is computed from. -/
theorem Run.spares [Transport σ] {before events : List (Event σ β)} {m m' : Moment σ β}
    (h : History before m) (hrun : Run m events m') {p : PointId} {t : Token}
    (hpoint : m.clock.points.Has t.point) (hcalm : ∀ event ∈ events, ¬ event.Disturbs t.point)
    (honly : ∀ event ∈ events, ∀ a beat, event.given? = some (a, beat) →
      m.clock.points.DerivesFrom t.point a → a = p) :
    ∀ event ∈ events, event.Spares m.clock.points p t := by
  intro event hevent
  refine ⟨fun hreset => hcalm event hevent ?_, ?_, honly event hevent⟩
  · cases event with
    | called op c => exact .inl hreset
    | _ => cases hreset
  · obtain ⟨earlier, later, rfl⟩ := List.append_of_mem hevent
    obtain ⟨m₁, hearlier, hrest⟩ := hrun.split
    obtain ⟨_, hstep, -⟩ := hrest.head
    exact (h.append hearlier).token?_ne_of_dropped hstep (hearlier.has h.sound hpoint)
      (hcalm event hevent)

/-- The books of the point of a token since a moment, with the points of that moment: the beats that `p`
took since, and what they gave. -/
structure Rounds (ps : Points (Action β)) (p : PointId) (t : Token)
    (start : List (Float × Action β)) (events : List (Event σ β)) (m : Moment σ β)
    (rounds : List (Round β)) : Prop where
  /-- The token is alive. -/
  live : m.clock.points.isLive t = true
  /-- No point was lost. -/
  grown : ps.Grown m.clock.points
  /-- The points that are not computed from `p` kept their beats. -/
  kept : ∀ a, ps.DerivesFrom t.point a → ¬ ps.DerivesFrom a p →
    m.clock.points.beat? a = ps.beat? a
  /-- There was a round for each beat. -/
  beats : rounds.map (·.beat) = events.filterMap (Event.beatFor? p)
  /-- In each round the point had the value that it is computed to, and the actions that were attached so
  far. -/
  fits : ∀ r ∈ rounds, r.Fits ps p t.point events
  /-- So it has now. -/
  actions : m.clock.points.actionsOf t.point =
    ps.actionsOf t.point ++ events.flatMap (Event.addedTo t.point)
  /-- What was started since or is pending was pending at the start, was queued in a round, or was queued
  at once when an action was attached. -/
  deeds : (gather (Task.deed? t) (startedEntries events ++ m.pending)).Perm
    (start ++ rounds.flatMap Round.dues ++ events.flatMap (Event.attachedOf t.point))

/-- What is asked for a point is asked for its live token. -/
theorem asked_deed?_eq {ps : Points (Action β)} {t : Token} (hlive : ps.isLive t = true)
    {rs : List (Request β)} (hbacked : ∀ r ∈ rs, r.Backed ps) :
    asked (Task.deed? t) rs = asked (Task.deedOf? t.point) rs := by
  refine List.filterMap_congr fun r hr => ?_
  cases htask : r.task with
  | actFor token action =>
    have htoken := ((hbacked r hr).token token (by rw [htask]; rfl)).1
    have hiff : token = t ↔ token.point = t.point :=
      ⟨congrArg _, Points.eq_of_isLive htoken hlive⟩
    simp only [Task.deed?, Task.deedOf?, hiff]
  | _ => rfl

/-- An event that gives a beat attaches nothing. -/
theorem Event.attachedOf_of_given? {event : Event σ β} {given : PointId × Float}
    (h : event.given? = some given) (q : PointId) : event.attachedOf q = [] := by
  cases event with
  | called op c =>
    cases op with
    | addAction => cases h
    | _ => rfl
  | _ => rfl

namespace Rounds

variable {ps : Points (Action β)} {p : PointId} {t : Token} {start : List (Float × Action β)}
  {events : List (Event σ β)} {event : Event σ β} {m m' : Moment σ β} {rounds : List (Round β)}

/-- A live token opens books. -/
theorem opened (p : PointId) (hlive : m.clock.points.isLive t = true) :
    Rounds m.clock.points p t (gather (Task.deed? t) m.pending) [] m [] where
  live := hlive
  grown := .refl _
  kept := fun _ _ _ => rfl
  beats := rfl
  fits := by simp
  actions := by simp
  deeds := by simp [startedEntries]

variable [Transport σ] (hlinked : ps.Linked) (hpoint : ps.Has t.point)

include hlinked hpoint

/-- A point that is not computed from `p` keeps its beat. -/
theorem kept_step (h : Rounds ps p t start events m rounds) (hstep : Step m event m')
    {requests : List (Request β)}
    (hsettles : Settles m.clock.points m'.clock.points event.Resets event.given? (event.addedTo ·)
      (event.attachedOf ·) requests) (hspares : event.Spares ps p t) {a : PointId}
    (ha : ps.DerivesFrom t.point a) (hap : ¬ ps.DerivesFrom a p) :
    m'.clock.points.beat? a = ps.beat? a := by
  have hhas := hlinked.has_of_derivesFrom hpoint ha
  rw [← h.kept a ha hap]
  refine (hsettles.beyond a (h.grown.has hhas) (fun root beat hgiven hroot => ?_) fun hreset => ?_).1
  -- A point that takes a beat, and that it is computed from, could only be `p`.
  · have hroot := (h.grown.derivesFrom_iff hlinked hhas root).mp hroot
    obtain rfl := hspares.only root beat hgiven (ha.trans hroot)
    exact hap hroot
  · exact hspares.reset (hstep.resets_of_derivesFrom hreset
      ((h.grown.derivesFrom_iff hlinked hpoint a).mpr ha))

/-- The values that a step leaves, if it gives `p` a beat. -/
theorem values_step (h : Rounds ps p t start events m rounds) (hstep : Step m event m')
    {requests : List (Request β)} (hgrown : m.clock.points.Grown m'.clock.points)
    (hsettles : Settles m.clock.points m'.clock.points event.Resets event.given? (event.addedTo ·)
      (event.attachedOf ·) requests) (hspares : event.Spares ps p t) {beat : Float}
    (hgiven : event.given? = some (p, beat)) :
    ps.Values p beat t.point m'.clock.points.beat? where
  root := by
    rw [(hsettles.within p beat hgiven p .refl).1, Points.valueFrom_root, Option.filter_some,
      if_pos (hsettles.finite p beat hgiven)]
  apart := fun a ha hap => h.kept_step hlinked hpoint hstep hsettles hspares ha hap
  derived := by
    intro a node d ha hap hne hnode hd
    have hhas := hlinked.has_of_derivesFrom hpoint ha
    obtain ⟨node', hnode', hgrows⟩ := (h.grown.trans hgrown) a node hnode
    rw [(hsettles.within p beat hgiven a ((h.grown.derivesFrom_iff hlinked hhas p).mpr hap)).1,
      Points.valueFrom_of_derivation hne beat hnode' (hgrows.derivation.trans hd),
      Points.amount_eq_value]

omit hlinked in
/-- The books are kept by a step with the rounds that it adds. -/
theorem extend (h : Rounds ps p t start events m rounds) (hspares : event.Spares ps p t)
    {requests : List (Request β)} (heffect : Effect m event m' requests)
    (hsettles : Settles m.clock.points m'.clock.points event.Resets event.given? (event.addedTo ·)
      (event.attachedOf ·) requests)
    (hkept : ∀ a, ps.DerivesFrom t.point a → ¬ ps.DerivesFrom a p →
      m'.clock.points.beat? a = ps.beat? a) (extra : List (Round β))
    (hbeats : extra.map (·.beat) = (event.beatFor? p).toList)
    (hfits : ∀ r ∈ extra, r.Fits ps p t.point events)
    (hasked : asked (Task.deedOf? t.point) requests =
      extra.flatMap Round.dues ++ event.attachedOf t.point) :
    Rounds ps p t start (events ++ [event]) m' (rounds ++ extra) := by
  obtain ⟨node, hnode, hgen⟩ := Points.isLive_iff.mp h.live
  obtain ⟨node', hnode', -, -, hsame⟩ := heffect.points.node hnode
  have hlive := Points.isLive_iff.mpr ⟨node', hnode', (hsame hspares.reset).trans hgen⟩
  refine ⟨hlive, h.grown.trans heffect.points.grown, hkept, ?_, ?_, ?_, ?_⟩
  · rw [List.map_append, List.filterMap_append, h.beats, hbeats]
    cases hbeat : event.beatFor? p <;> simp [hbeat]
  · intro r hr
    rcases List.mem_append.mp hr with hr | hr
    · exact (h.fits r hr).mono [event]
    · exact (hfits r hr).mono [event]
  · rw [hsettles.actions t.point (h.grown.has hpoint), h.actions, List.flatMap_append,
      List.flatMap_singleton, List.append_assoc]
  · have hall := heffect.gather_started_perm (gather_eq_nil (about_deed? t) hspares.dropped) events
    rw [asked_deed?_eq hlive heffect.backed, hasked] at hall
    refine hall.trans ((h.deeds.append_right _).trans ?_)
    rw [List.flatMap_append, List.flatMap_append, List.flatMap_singleton]
    -- The new round comes before what was attached earlier.
    simp only [List.append_assoc]
    refine List.Perm.append_left _ (List.Perm.append_left _ ?_)
    rw [← List.append_assoc, ← List.append_assoc]
    exact List.perm_append_comm.append_right _

/-- The books are kept by a step that gives `p` no beat. -/
theorem stay (h : Rounds ps p t start events m rounds) (hs : Sound m) (hstep : Step m event m')
    (hspares : event.Spares ps p t) (hnone : event.beatFor? p = none) :
    Rounds ps p t start (events ++ [event]) m' rounds := by
  obtain ⟨requests, heffect, hsettles⟩ := hstep.settles hs
  have hkept (a : PointId) := h.kept_step hlinked hpoint hstep hsettles hspares (a := a)
  have hapart : m.clock.points.Apart event.given? t.point := by
    intro root beat hgiven hroot
    have hroot := (h.grown.derivesFrom_iff hlinked hpoint root).mp hroot
    obtain rfl := hspares.only root beat hgiven hroot
    simp [Event.beatFor?, hgiven] at hnone
  have hasked := (hsettles.beyond t.point (h.grown.has hpoint) hapart hspares.reset).2
  have hextended := h.extend hpoint hspares heffect hsettles hkept [] (by simp [hnone]) (by simp)
    hasked
  rwa [List.append_nil] at hextended

/-- The books are kept by a step that gives `p` a beat, with one more round. -/
theorem round (h : Rounds ps p t start events m rounds) (hs : Sound m) (hstep : Step m event m')
    (hspares : event.Spares ps p t) (hderives : ps.DerivesFrom t.point p) {beat : Float}
    (hbeat : event.beatFor? p = some beat) :
    ∃ r, Rounds ps p t start (events ++ [event]) m' (rounds ++ [r]) := by
  obtain ⟨requests, heffect, hsettles⟩ := hstep.settles hs
  have hgiven : event.given? = some (p, beat) := by
    obtain ⟨⟨root, beat'⟩, hgiven, hroot⟩ := Option.bind_eq_some_iff.mp hbeat
    split_ifs at hroot with heq
    rw [hgiven, ← heq, ← Option.some.inj hroot]
  have hkept (a : PointId) := h.kept_step hlinked hpoint hstep hsettles hspares (a := a)
  have hvalues := h.values_step hlinked hpoint hstep heffect.points.grown hsettles hspares hgiven
  have hasked := (hsettles.within p beat hgiven t.point
    ((h.grown.derivesFrom_iff hlinked hpoint p).mpr hderives)).2
  refine ⟨⟨beat, m'.clock.points.beat? t.point, m.clock.points.actionsOf t.point⟩,
    h.extend hpoint hspares heffect hsettles hkept _ (by simp [hbeat]) ?_ ?_⟩
  · intro r hr
    obtain rfl := List.mem_singleton.mp hr
    exact ⟨⟨_, hvalues, rfl⟩, events, List.prefix_refl _, h.actions⟩
  · rw [hasked, Event.attachedOf_of_given? hgiven, List.flatMap_singleton, List.append_nil]
    rfl

/-- The books are kept by every step that spares them. -/
theorem step (h : Rounds ps p t start events m rounds) (hs : Sound m) (hstep : Step m event m')
    (hspares : event.Spares ps p t) (hderives : ps.DerivesFrom t.point p) :
    ∃ extra, Rounds ps p t start (events ++ [event]) m' (rounds ++ extra) := by
  cases hbeat : event.beatFor? p with
  | none => exact ⟨[], by simpa using h.stay hlinked hpoint hs hstep hspares hbeat⟩
  | some beat =>
    obtain ⟨r, hround⟩ := h.round hlinked hpoint hs hstep hspares hderives hbeat
    exact ⟨[r], hround⟩

/-- The books are kept by every run that spares them. -/
theorem run (h : Rounds ps p t start events m rounds) (hs : Sound m) {later : List (Event σ β)}
    (hrun : Run m later m') (hspares : ∀ event ∈ later, event.Spares ps p t)
    (hderives : ps.DerivesFrom t.point p) :
    ∃ extra, Rounds ps p t start (events ++ later) m' (rounds ++ extra) := by
  induction hrun with
  | nil => exact ⟨[], by simpa using h⟩
  | @snoc later event m₁ m₂ hrun hstep ih =>
    rw [List.forall_mem_append] at hspares
    obtain ⟨extra, hbefore⟩ := ih hspares.1
    obtain ⟨extra', hafter⟩ := hbefore.step hlinked hpoint (hrun.sound hs) hstep
      (hspares.2 event (.head _)) hderives
    rw [List.append_assoc, List.append_assoc] at hafter
    exact ⟨extra ++ extra', hafter⟩

end Rounds

section Started

variable [Transport σ] {ps : Points (Action β)} {p : PointId} {t : Token}
  {start : List (Float × Action β)} {before events later : List (Event σ β)} {m m' : Moment σ β}
  {rounds : List (Round β)} {c : Conductor σ β} {reading : Float} {e : Entry (Task β)}

/-- While its books are kept, what is started with the token carries its action out. -/
theorem Rounds.runTask_of_started (hs : Sound m) (hrun : Run m events m')
    (hpoint : m.clock.points.Has t.point) (hderives : m.clock.points.DerivesFrom t.point p)
    (hlive : m.clock.points.isLive t = true)
    (hspares : ∀ event ∈ events, event.Spares m.clock.points p t)
    (hstarted : Event.started reading e c ∈ events) {action : Action β}
    (htask : e.task = .actFor t action) {ω : Type} (perform : Performer σ β ω) (w : ω) :
    Conductor.runTask perform e.task (c, w) = perform action.body (c, w) := by
  -- The books up to the start say that the token is alive then.
  obtain ⟨earlier, later, rfl⟩ := List.append_of_mem hstarted
  obtain ⟨rest, u, hearlier⟩ := hrun.before_started
  obtain ⟨_, hrounds⟩ := (Rounds.opened p hlive).run hs.linked hpoint hs hearlier
    (fun event hevent => hspares event (List.mem_append_left _ hevent)) hderives
  rw [htask, Conductor.runTask, if_pos hrounds.live]

/-! ## Dues that were reached -/

omit [Transport σ] in
/-- What is gathered of a task for a token is due when the task is. -/
theorem Task.fst_of_deed? {task : Task β} {beat : Float} {due : Float × Action β}
    (h : task.deed? t beat = some due) : due.1 = beat := by
  cases task with
  | actFor token action =>
    simp only [Task.deed?] at h
    split_ifs at h
    cases h
    rfl
  | _ => cases h

omit [Transport σ] in
/-- What distinct entries say, any list says that has those of them that matter. -/
theorem gather_subperm {γ : Type} {f : Task β → Float → Option γ} {es es' : List (Entry (Task β))}
    (hnodup : es.Nodup) (matters : γ → Bool)
    (h : ∀ e ∈ es, ∀ x, f e.task e.dueBeat = some x → matters x = true → e ∈ es') :
    ((gather f es).filter matters).Subperm (gather f es') := by
  have hsub : (es.filter fun e => (f e.task e.dueBeat).any matters).Subperm es' := by
    refine (hnodup.filter _).subperm fun e he => ?_
    obtain ⟨hmem, hany⟩ := List.mem_filter.mp he
    obtain ⟨x, hx, hmatters⟩ := (Option.any_eq_true _ _).mp hany
    exact h e hmem x hx hmatters
  have hsame : gather f (es.filter fun e => (f e.task e.dueBeat).any matters) =
      (gather f es).filter matters := by
    unfold gather
    rw [List.filterMap_filter, List.filter_filterMap]
    refine List.filterMap_congr fun e _ => ?_
    cases f e.task e.dueBeat with
    | none => rfl
    | some x => simp [Option.filter]
  obtain ⟨l, hperm, hsublist⟩ := hsub
  rw [← hsame]
  exact ⟨gather f l, hperm.filterMap _, hsublist.filterMap _⟩

/-- Once no pass is under way any more, everything in the books has been started that was due when a pass
measured the beat. -/
theorem Rounds.reached (h : Rounds ps p t start events m rounds) (hhistory : History before m)
    (hrun : Run m (.measured c :: later) m') (hidle : m'.underway = []) :
    ((start ++ rounds.flatMap Round.dues ++ events.flatMap (Event.attachedOf t.point)).filter
        fun due => decide (due.1 ≤ c.now)).Subperm
      (gather (Task.deed? t) (startedEntries (events ++ .measured c :: later))) := by
  -- Entries are told apart by their names, so each is started for itself.
  have hpending : ((gather (Task.deed? t) m.pending).filter fun due => decide (due.1 ≤ c.now)).Subperm
      (gather (Task.deed? t) (startedEntries later)) := by
    refine gather_subperm hhistory.nodup_pending _ fun e he due hdue hreached => ?_
    rw [decide_eq_true_iff, Task.fst_of_deed? hdue] at hreached
    exact hrun.mem_started_of_measured hhistory.sound hidle he hreached
  refine ((h.deeds.symm.filter _).subperm).trans ?_
  rw [gather_append, List.filter_append, startedEntries_append, gather_append]
  exact List.filter_sublist.subperm.append hpending

/-- If that beat was past everything in the books, and nothing has come to them since, nothing of it is
pending any more. -/
theorem Rounds.gather_pending_eq_nil {extra : List (Round β)}
    (h : Rounds ps p t start events m rounds)
    (h' : Rounds ps p t start (events ++ .measured c :: later) m' (rounds ++ extra))
    (hhistory : History before m) (hrun : Run m (.measured c :: later) m') (hidle : m'.underway = [])
    (hquiet : ∀ event ∈ later, event.beatFor? p = none ∧ event.attachedOf t.point = [])
    (hpast : ∀ due ∈ gather (Task.deed? t) (startedEntries (events ++ .measured c :: later) ++ m'.pending),
      due.1 ≤ c.now) : gather (Task.deed? t) m'.pending = [] := by
  have hextra : extra = [] := by
    have hbeats := h'.beats
    have hnone : (Event.measured c :: later).filterMap (Event.beatFor? p) = [] :=
      List.filterMap_eq_nil_iff.mpr
        (List.forall_mem_cons.mpr ⟨rfl, fun event hevent => (hquiet event hevent).1⟩)
    rw [List.map_append, List.filterMap_append, h.beats, hnone, List.append_cancel_left_eq] at hbeats
    exact List.map_eq_nil_iff.mp hbeats
  have hattached : (Event.measured c :: later).flatMap (Event.attachedOf t.point) = [] :=
    List.flatMap_eq_nil_iff.mpr
      (List.forall_mem_cons.mpr ⟨rfl, fun event hevent => (hquiet event hevent).2⟩)
  have hbooks := h'.deeds
  rw [hextra, List.append_nil, List.flatMap_append, hattached, List.append_nil] at hbooks
  -- The books of before are among what was started, and what is pending would come on top of them.
  have hstarted := h.reached hhistory hrun hidle
  rw [List.filter_eq_self.mpr fun due hdue =>
    decide_eq_true (hpast due (hbooks.mem_iff.mpr hdue))] at hstarted
  have hlength := hstarted.length_le
  rw [← hbooks.length_eq, gather_append, List.length_append] at hlength
  exact List.length_eq_zero_iff.mp (by omega)

end Started

end Cadence
