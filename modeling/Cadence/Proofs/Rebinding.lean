import Mathlib
import Cadence.Proofs.Run.Program
import Cadence.Proofs.Run.Rounds

/-!
# Rebinding persistent points

A persistent point takes every finite beat that it is bound to, and what derives from it is computed again
each time. The entries of earlier bindings stay queued, with tokens that stay alive.

- `History.dormant`: before a point takes its first beat, nothing is queued for what derives from it;
- `Run.filterMap_beatFor?`: a persistent point takes the finite beats that it is bound to, and no others;
- `Run.calm_of_persistent`: binding it disturbs no entries of what derives from it;
- `persistent_rebinding` puts this together for a persistent point and one that derives from it.
-/

namespace Cadence

variable {σ β γ : Type}

/-! ## Points that wait for a beat -/

/-- Each of these points waits for another one of them if it is computed at all, and none recurs. -/
def Points.Awaits {α : Type} (ps : Points α) (B : Set PointId) : Prop :=
  ∀ a ∈ B, ∀ node, ps.node? a = some node → (∀ period, node.kind ≠ .recurring period) ∧
    ∀ d, node.derivation = some d → ∃ operand ∈ d.points, operand ∈ B

namespace Points

variable {α : Type} {ps ps' : Points α} {B : Set PointId}

theorem Awaits.of_grown (h : ps'.Awaits B) (hgrown : ps.Grown ps') : ps.Awaits B := by
  intro a ha node hnode
  obtain ⟨node', hnode', hgrows⟩ := hgrown a node hnode
  obtain ⟨hkind, hoperand⟩ := h a ha node' hnode'
  exact ⟨fun period hrecurs => hkind period (hgrows.kind.trans hrecurs),
    fun d hd => hoperand d (hgrows.derivation.trans hd)⟩

/-- The points between a persistent point and one that derives from it wait for each other. -/
theorem awaits_between (hlinked : ps.Linked) {p : PointId} {pnode : PointNode α}
    (hp : ps.node? p = some pnode) (hkind : pnode.kind = .persistent) (q : PointId) :
    ps.Awaits {a | ps.DerivesFrom q a ∧ ps.DerivesFrom a p} := by
  rintro a ⟨hqa, hap⟩ node hnode
  rcases hap.cases_head with rfl | ⟨operand, hnames, hoperand⟩
  · obtain rfl := Option.some.inj (hp.symm.trans hnode)
    refine ⟨by simp [hkind], fun d hd => ?_⟩
    cases hkind.symm.trans (hlinked.rebindable_iff_operand hnode hd).1
  · obtain ⟨node', d, hnode', hd, hmem⟩ := id hnames
    obtain rfl := Option.some.inj (hnode'.symm.trans hnode)
    refine ⟨by simp [(hlinked.rebindable_iff_operand hnode hd).1], fun d' hd' => ?_⟩
    obtain rfl := Option.some.inj (hd.symm.trans hd')
    exact ⟨operand, hmem, hqa.tail hnames, hoperand⟩

end Points

/-- Points that wait for a beat have none, and nothing is asked for them, unless one of them is given a
beat. -/
theorem Settles.dormant {ps ps' : Points (Action β)} {resets : PointId → Prop}
    {given : Option (PointId × Float)} {added : PointId → List (Action β)}
    {attached : PointId → List (Float × Action β)} {requests : List (Request β)}
    (h : Settles ps ps' resets given added attached requests) (hlinked : ps'.Linked)
    {B : Set PointId} (hB : ps'.Awaits B) (hgrown : ps.Grown ps')
    (hnone : ∀ a ∈ B, ps.beat? a = none) (hgiven : ∀ root beat, given = some (root, beat) → root ∉ B)
    (hattached : ∀ a ∈ B, attached a = []) (hbacked : ∀ r ∈ requests, r.Backed ps') {a : PointId}
    (ha : a ∈ B) : ps'.beat? a = none ∧ asked (Task.deedOf? a) requests = [] := by
  -- By induction on the name, since operands are earlier.
  induction hindex : a.index using Nat.strong_induction_on generalizing a with
  | _ index ih =>
    subst hindex
    have hamount (node : PointNode (Action β)) (hnode : ps'.node? a = some node) (d : Derivation)
        (hd : node.derivation = some d) : ps'.amount d = none := by
      obtain ⟨operand, hoperand, hin⟩ := (hB a ha node hnode).2 d hd
      have hbeat := (ih operand.index (hlinked.earlier ⟨node, d, hnode, hd, hoperand⟩) hin rfl).1
      refine Option.not_isSome_iff_eq_none.mp fun hsome => ?_
      have hsupplied := Points.supplies_of_amount hsome operand hoperand
      rw [hbeat] at hsupplied
      cases hsupplied
    by_cases hhas : ps.Has a
    swap
    · cases hnode : ps'.node? a with
      | none =>
        refine ⟨by rw [Points.beat?, hnode]; rfl, asked_deedOf?_eq_nil fun r hr token htoken heq => ?_⟩
        -- What is asked for is asked for points that are there.
        obtain ⟨node, hnode', -⟩ := Points.isLive_iff.mp ((hbacked r hr).token token htoken).1
        rw [heq, hnode] at hnode'
        cases hnode'
      | some node =>
        obtain ⟨hbeat, hasked⟩ := h.created a node hhas hnode (hB a ha node hnode).1
        refine ⟨?_, hasked⟩
        rw [Points.beat?, hnode, Option.bind_some, hbeat]
        cases hd : node.derivation with
        | none => rfl
        | some d => exact hamount node hnode d hd
    by_cases hapart : ps.Apart given a
    · by_cases hreset : resets a
      · exact h.swept a hhas hapart hreset
      · obtain ⟨hbeat, hasked⟩ := h.beyond a hhas hapart hreset
        exact ⟨hbeat.trans (hnone a ha), hasked.trans (hattached a ha)⟩
    · -- The point derives from one that is given a beat, which is another one.
      simp only [Points.Apart, not_forall, not_not] at hapart
      obtain ⟨root, beat, hroot, hderives⟩ := hapart
      have hne : a ≠ root := fun heq => hgiven root beat hroot (heq ▸ ha)
      obtain ⟨node, hnode⟩ := Points.exists_node? hhas
      obtain ⟨node', hnode', -⟩ := hgrown a node hnode
      have hvalue : ps'.valueFrom root beat a = none := by
        rw [Points.valueFrom, if_neg hne, hnode', Option.bind_some]
        cases hd : node'.derivation with
        | none => rfl
        | some d => exact hamount node' hnode' d hd
      obtain ⟨hbeat, hasked⟩ := h.within root beat hroot a hderives
      rw [hvalue, Option.filter_none] at hbeat
      exact ⟨hbeat, by rw [hasked, hbeat, duesAt_none]⟩

/-- Attaching an action to a point without a beat queues nothing. -/
theorem Step.attachedOf_of_beat? [Transport σ] {m m' : Moment σ β} {event : Event σ β}
    (hstep : Step m event m') {a : PointId} (h : m.clock.points.beat? a = none) :
    event.attachedOf a = [] := by
  cases hstep with
  | @call c u op permitted =>
    cases op with
    | addAction id action =>
      change asked (Task.deedOf? a) (c.attachRequests id action) = []
      by_cases heq : a = id
      · rw [Conductor.attachRequests_of_beat? action (heq ▸ h)]
        rfl
      · exact Conductor.asked_deedOf?_attachRequests_of_ne action heq
    | _ => rfl
  | _ => rfl

variable [Transport σ]

/-- Where nothing is asked for, nothing more is pending. -/
theorem Effect.gather_pending_eq_nil {m m' : Moment σ β} {event : Event σ β}
    {requests : List (Request β)} (h : Effect m event m' requests) {f : Task β → Float → Option γ}
    (hpending : gather f m.pending = []) (hasked : asked f requests = []) :
    gather f m'.pending = [] := by
  have hperm := h.pending.filterMap fun e => f e.task e.dueBeat
  change (gather f _).Perm (gather f _) at hperm
  rw [gather_append, gather_append, gather_append, gather_entries, hpending, hasked] at hperm
  exact (List.append_eq_nil_iff.mp hperm.eq_nil).1

/-- Before one of the points that wait for each other is given a beat, none has one, and nothing is queued
for them. -/
theorem History.dormant {events : List (Event σ β)} {m : Moment σ β} (h : History events m)
    {B : Set PointId} (hB : m.clock.points.Awaits B)
    (hgiven : ∀ event ∈ events, ∀ root beat, event.given? = some (root, beat) → root ∉ B)
    {a : PointId} (ha : a ∈ B) :
    m.clock.points.beat? a = none ∧ gather (Task.deedOf? a) m.pending = [] := by
  induction h using History.induction generalizing a with
  | created hcreate =>
    obtain ⟨-, hqueue, hpoints⟩ := sound_create hcreate
    refine ⟨by simp [hpoints, Points.beat?, Points.node?, Points.empty], ?_⟩
    simp [gather, Moment.pending, Moment.flying, hqueue, Queue.empty]
  | @stepped events m event m' h hstep ih =>
    rw [List.forall_mem_append] at hgiven
    obtain ⟨requests, heffect, hsettles⟩ := hstep.settles h.sound
    have hgrown := heffect.points.grown
    have hbefore {a : PointId} (ha : a ∈ B) := ih (hB.of_grown hgrown) hgiven.1 ha
    obtain ⟨hbeat, hasked⟩ := hsettles.dormant (hstep.sound h.sound).linked hB hgrown
      (fun a ha => (hbefore ha).1) (hgiven.2 event (.head _))
      (fun a ha => hstep.attachedOf_of_beat? (hbefore ha).1) heffect.backed ha
    exact ⟨hbeat, heffect.gather_pending_eq_nil (hbefore ha).2 hasked⟩

/-! ## Binding persistent points -/

/-- The finite beat that an event binds the point to. -/
def Event.bound? (p : PointId) : Event σ β → Option Float
  | .called (.bind id beat) _ => if id = p ∧ beat.isFinite then some beat else none
  | _ => none

/-- The event clears the point, jumps on the timeline, or cancels entries of the point. -/
def Event.Discards (event : Event σ β) (q : PointId) : Prop :=
  match event with
  | .called (.bind _ _) _ => False
  | _ => event.Disturbs q

section Persistent

variable {m m' : Moment σ β} {p q : PointId} {node : PointNode (Action β)}

omit [Transport σ] in
/-- A persistent point takes every finite beat that it is bound to. -/
theorem Conductor.accepts_of_persistent {c : Conductor σ β} (hlinked : c.points.Linked)
    (hnode : c.points.node? p = some node) (hkind : node.kind = .persistent) (beat : Float) :
    c.accepts p beat = beat.isFinite := by
  have hd : node.derivation = none := Option.eq_none_iff_forall_not_mem.mpr fun d hd =>
    nomatch hkind.symm.trans (hlinked.rebindable_iff_operand hnode hd).1
  have hre := (hlinked.rebindable_iff hnode hd).mpr (by simp [hkind])
  rw [Bool.eq_iff_iff, Conductor.accepts_iff hnode]
  simp [hre]

/-- It takes no other beat. -/
theorem Step.beatFor?_eq (hs : Sound m) {event : Event σ β} (hstep : Step m event m')
    (hnode : m.clock.points.node? p = some node) (hkind : node.kind = .persistent) :
    event.beatFor? p = event.bound? p := by
  cases hstep with
  | @call c u op permitted =>
    cases op with
    | bind id beat =>
      simp only [Event.beatFor?, Event.given?, Operation.given?, Event.bound?]
      by_cases hid : id = p
      · subst hid
        rw [Conductor.accepts_of_persistent hs.linked hnode hkind]
        cases beat.isFinite <;> simp
      · cases c.accepts id beat <;> simp [hid]
    | _ => rfl
  | @start c u reading e rest =>
    -- Only a recurring point moves on.
    have hmem := Moment.mem_pending_next c reading e rest u
    change (e.task.given? c).bind _ = none
    cases htask : e.task with
    | rearm token beat =>
      obtain ⟨-, period, node', hnode', hkind'⟩ := hs.rearm e hmem token beat htask
      have hne : token.point ≠ p := by
        rintro rfl
        obtain rfl := Option.some.inj (hnode.symm.trans hnode')
        cases hkind.symm.trans hkind'
      simp only [Task.given?]
      split_ifs <;> simp [hne]
    | _ => rfl
  | _ => rfl

/-- So over a run it takes the finite beats that it is bound to. -/
theorem Run.filterMap_beatFor? (hs : Sound m) {events : List (Event σ β)} (hrun : Run m events m')
    (hnode : m.clock.points.node? p = some node) (hkind : node.kind = .persistent) :
    (∃ node', m'.clock.points.node? p = some node' ∧ node'.kind = .persistent) ∧
      events.filterMap (Event.beatFor? p) = events.filterMap (Event.bound? p) := by
  induction hrun with
  | nil => exact ⟨⟨node, hnode, hkind⟩, rfl⟩
  | @snoc events event m₁ m₂ hrun hstep ih =>
    obtain ⟨⟨node₁, hnode₁, hkind₁⟩, hbeats⟩ := ih
    have hs₁ := hrun.sound hs
    obtain ⟨_, heffect, -⟩ := hstep.effect hs₁
    obtain ⟨node₂, hnode₂, hgrows, -⟩ := heffect.points.node hnode₁
    refine ⟨⟨node₂, hnode₂, hgrows.kind.trans hkind₁⟩, ?_⟩
    rw [List.filterMap_append, List.filterMap_append, hbeats]
    congr 1
    exact List.filterMap_congr fun event' hevent => by
      rw [List.mem_singleton.mp hevent, hstep.beatFor?_eq hs₁ hnode₁ hkind₁]

/-- Where no other point takes a beat, no binding disturbs a point. -/
theorem Step.calm_of_persistent (hs : Sound m) {event : Event σ β} (hstep : Step m event m')
    (hnode : m.clock.points.node? p = some node) (hkind : node.kind = .persistent)
    (hcalm : ¬ event.Discards q)
    (honly : ∀ a beat, event.given? = some (a, beat) → m.clock.points.DerivesFrom q a → a = p) :
    ¬ event.Disturbs q := by
  cases hstep with
  | @call c u op permitted =>
    cases op with
    | bind id beat =>
      rintro (hreset | hwithdraws)
      · -- A bind that resets is one of a recurring point, which takes the beat.
        have haccepts : c.accepts id beat = true :=
          Conductor.accepts_of_bindResets hs.linked hreset
        obtain rfl := honly id beat (by simp [Event.given?, Operation.given?, haccepts]) hreset.2.2
        obtain ⟨period, node', hnode', hkind'⟩ := hreset.2.1
        obtain rfl := Option.some.inj (hnode.symm.trans hnode')
        cases hkind.symm.trans hkind'
      · exact hwithdraws
    | _ => exact hcalm
  | _ => exact hcalm

/-- So it is over a run. -/
theorem Run.calm_of_persistent (hs : Sound m) {events : List (Event σ β)} (hrun : Run m events m')
    (hnode : m.clock.points.node? p = some node) (hkind : node.kind = .persistent)
    (hq : m.clock.points.Has q) (hcalm : ∀ event ∈ events, ¬ event.Discards q)
    (honly : ∀ event ∈ events, ∀ a beat, event.given? = some (a, beat) →
      m.clock.points.DerivesFrom q a → a = p) :
    ∀ event ∈ events, ¬ event.Disturbs q := by
  intro event hevent
  obtain ⟨earlier, later, rfl⟩ := List.append_of_mem hevent
  obtain ⟨m₁, hearlier, hrest⟩ := hrun.split
  obtain ⟨_, hstep, -⟩ := hrest.head
  obtain ⟨⟨node₁, hnode₁, hkind₁⟩, -⟩ := hearlier.filterMap_beatFor? hs hnode hkind
  refine hstep.calm_of_persistent (hearlier.sound hs) hnode₁ hkind₁ (hcalm event hevent) ?_
  intro a beat hgiven hderives
  exact honly event hevent a beat hgiven
    (((hearlier.grown hs).derivesFrom_iff hs.linked hq a).mp hderives)

end Persistent

/-! ## Rebinding -/

omit [Transport σ] in
/-- Where nothing is queued for a point, nothing is queued for a token of it. -/
theorem gather_deed?_eq_nil {t : Token} {es : List (Entry (Task β))}
    (h : gather (Task.deedOf? t.point) es = []) : gather (Task.deed? t) es = [] := by
  refine List.filterMap_eq_nil_iff.mpr fun e he => ?_
  have hnone := List.filterMap_eq_nil_iff.mp h e he
  cases htask : e.task with
  | actFor token action =>
    simp only [htask, Task.deedOf?] at hnone
    refine if_neg fun heq => ?_
    rw [if_pos (congrArg _ heq)] at hnone
    cases hnone
  | _ => rfl

section Rebinding

variable {before after : List (Event σ β)} {m₀ m : Moment σ β} {p q : PointId}
  {node : PointNode (Action β)}

/-- A persistent point accepts every finite beat. -/
theorem Run.bind_persistent (hs : Sound m₀) (hrun : Run m₀ after m)
    (hp : m₀.clock.points.node? p = some node) (hkind : node.kind = .persistent) {beat : Float}
    {c : Conductor σ β} (hcall : Event.called (.bind p beat) c ∈ after)
    (hbeat : beat.isFinite = true) : (c.bind p beat).1 = .ok () := by
  obtain ⟨earlier, later, rfl⟩ := List.append_of_mem hcall
  obtain ⟨m₁, hearlier, hrest⟩ := hrun.split
  obtain ⟨_, hstep, -⟩ := hrest.head
  obtain ⟨⟨node₁, hnode₁, hkind₁⟩, -⟩ := hearlier.filterMap_beatFor? hs hp hkind
  rw [hstep.clock_of_called] at hnode₁
  have hlinked := (hearlier.sound hs).linked
  rw [hstep.clock_of_called] at hlinked
  have haccepts := Conductor.accepts_of_persistent hlinked hnode₁ hkind₁ beat
  rw [hbeat, Conductor.accepts, Bool.and_eq_true] at haccepts
  cases hanswer : (c.bind p beat).1 with
  | error fault =>
    rw [hanswer] at haccepts
    cases haccepts.1
  | ok answer => rfl

/-- A persistent point accepts every finite beat. A point that derives from it, or the point itself, goes
through one round for each of these beats, in their order, from the first one on, as long as nothing else
that it is computed from takes a beat and nobody clears it, jumps on the timeline or cancels its entries: in
each round the actions that are attached by then are queued at the value that the point is computed to, if
that is finite. Nothing else is queued for it but an action at once when it is attached, every entry carries
its action out when it is started, and once a pass has measured a beat that none of them is behind and no
pass is under way any more, each has been started. -/
theorem persistent_rebinding {pnode : PointNode (Action β)} (h : History before m₀)
    (hrun : Run m₀ after m) (hp : m₀.clock.points.node? p = some pnode)
    (hkind : pnode.kind = .persistent) (hq : m₀.clock.points.node? q = some node)
    (hderives : m₀.clock.points.DerivesFrom q p)
    (hfirst : ∀ event ∈ before, ∀ a beat, event.given? = some (a, beat) →
      ¬ (m₀.clock.points.DerivesFrom q a ∧ m₀.clock.points.DerivesFrom a p))
    (honly : ∀ event ∈ after, ∀ a beat, event.given? = some (a, beat) →
      m₀.clock.points.DerivesFrom q a → a = p)
    (hcalm : ∀ event ∈ after, ¬ event.Discards q) :
    (∀ beat c, Event.called (.bind p beat) c ∈ after → beat.isFinite = true →
      (c.bind p beat).1 = .ok ()) ∧
    (∀ reading e c action, Event.started reading e c ∈ after →
      e.task = .actFor ⟨q, node.generation⟩ action → ∀ {ω : Type} (perform : Performer σ β ω) (w : ω),
        Conductor.runTask perform e.task (c, w) = perform action.body (c, w)) ∧
    ∃ (rounds : List (Round β)) (dues : List (Float × Action β)),
      rounds.map (·.beat) = after.filterMap (Event.bound? p) ∧
      (∀ r ∈ rounds, r.Fits m₀.clock.points p q after) ∧
      dues = rounds.flatMap Round.dues ++ after.flatMap (Event.attachedOf q) ∧
      (gather (Task.deed? ⟨q, node.generation⟩) (startedEntries after ++ m.pending)).Perm dues ∧
      ∀ earlier c later, after = earlier ++ .measured c :: later → m.underway = [] →
        (∀ event ∈ later, event.bound? p = none ∧ event.attachedOf q = []) →
        (∀ due ∈ dues, due.1 ≤ c.now) →
        (gather (Task.deed? ⟨q, node.generation⟩) (startedEntries after)).Perm dues := by
  have hs := h.sound
  have hhas := Points.has_of_node? hq
  have hlive : m₀.clock.points.isLive ⟨q, node.generation⟩ = true :=
    Points.isLive_iff.mpr ⟨node, hq, rfl⟩
  have hspares := hrun.spares h (t := ⟨q, node.generation⟩) hhas
    (hrun.calm_of_persistent hs hp hkind hhas hcalm honly) honly
  have hstart : gather (Task.deed? ⟨q, node.generation⟩) m₀.pending = [] := by
    refine gather_deed?_eq_nil (h.dormant (Points.awaits_between hs.linked hp hkind q) ?_ ?_).2
    · exact fun event hevent root beat hgiven => hfirst event hevent root beat hgiven
    · exact ⟨.refl, hderives⟩
  have hopened := Rounds.opened (σ := σ) p hlive
  rw [hstart] at hopened
  refine ⟨fun beat c hcall hbeat => hrun.bind_persistent hs hp hkind hcall hbeat,
    fun reading e c action hstarted htask ω perform w =>
      Rounds.runTask_of_started hs hrun hhas hderives hlive hspares hstarted htask perform w, ?_⟩
  obtain ⟨rounds, hrounds⟩ := hopened.run hs.linked hhas hs hrun hspares hderives
  refine ⟨rounds, _, hrounds.beats.trans (hrun.filterMap_beatFor? hs hp hkind).2, hrounds.fits, rfl,
    hrounds.deeds, ?_⟩
  rintro earlier c later rfl hidle hquiet hdues
  obtain ⟨m₁, hearlier, hlater⟩ := hrun.split
  rw [List.forall_mem_append] at hspares
  obtain ⟨rounds₁, h₁⟩ := hopened.run hs.linked hhas hs hearlier hspares.1 hderives
  obtain ⟨extra, h₂⟩ := h₁.run hs.linked hhas (hearlier.sound hs) hlater hspares.2 hderives
  -- The point took no beat since, for it was bound to none.
  have htaken : ∀ event ∈ later, event.beatFor? p = none := by
    obtain ⟨⟨node₁, hnode₁, hkind₁⟩, -⟩ := hearlier.filterMap_beatFor? hs hp hkind
    have hbeats := (hlater.filterMap_beatFor? (hearlier.sound hs) hnode₁ hkind₁).2
    rw [List.filterMap_eq_nil_iff.mpr
      (List.forall_mem_cons.mpr ⟨rfl, fun event hevent => (hquiet event hevent).1⟩)] at hbeats
    exact fun event hevent => List.filterMap_eq_nil_iff.mp hbeats event (.tail _ hevent)
  have hnone := h₁.gather_pending_eq_nil h₂ (h.append hearlier) hlater hidle
    (fun event hevent => ⟨htaken event hevent, (hquiet event hevent).2⟩)
    fun due hdue => hdues due (hrounds.deeds.mem_iff.mp hdue)
  have hall := hrounds.deeds
  rwa [gather_append, hnone, List.append_nil] at hall

end Rebinding

namespace Conductor

/-- A persistent point, and a point two beats after it that has an action. -/
def echoing : Conductor Offline Unit :=
  offline.applyAll [.createPoint .persistent, .derivePoint ⟨.add, .point ⟨0⟩, .scalar 2.0⟩,
    .addAction ⟨1⟩ ⟨"cue", ()⟩]

/-- The persistent point is bound twice, the later beat first, and both beats pass. -/
def reboundCalls : List (Operation Offline Unit) := [.bind ⟨0⟩ 8.0, .bind ⟨0⟩ 4.0, .advance 6000000]

/-- The clock after these calls. -/
def rebound : Conductor Offline Unit := echoing.applyAll reboundCalls

/-- What happens in the calls and in the passes of a tick after them. -/
def reboundEvents : List (Event Offline Unit) :=
  callEvents echoing reboundCalls ++ LawfulPerformer.still.dueEvents (rebound, ())

theorem history_echoing : History (callEvents offline [.createPoint .persistent,
    .derivePoint ⟨.add, .point ⟨0⟩, .scalar 2.0⟩, .addAction ⟨1⟩ ⟨"cue", ()⟩]) ⟨echoing, []⟩ :=
  history_offline_calls (by decide +kernel)

theorem run_rebound : Run ⟨echoing, []⟩ reboundEvents
    ⟨(runDue LawfulPerformer.still.perform (rebound, ())).2.1, []⟩ :=
  Run.append_dueEvents (run_calls (by decide +kernel)) history_echoing.sound

/-- The passes call no operation. -/
theorem isCall_dueEvents_rebound :
    ∀ event ∈ LawfulPerformer.still.dueEvents (rebound, ()), event.isCall = false := by
  decide +kernel

/-- Nothing is discarded. -/
theorem not_discards_rebound : ∀ event ∈ reboundEvents, ¬ event.Discards ⟨1⟩ := by
  intro event hevent
  rcases List.mem_append.mp hevent with hevent | hevent
  · simp only [reboundCalls, callEvents, List.mem_cons, List.not_mem_nil, or_false] at hevent
    rcases hevent with rfl | rfl | rfl
    · exact id
    · exact id
    · rintro (h | h) <;> exact h
  · have hcall := isCall_dueEvents_rebound event hevent
    cases event with
    | called op c => cases hcall
    | _ => exact id

end Conductor

/-- One tick starts the action of the other point for both bindings. -/
theorem rebound_echoes_twice :
    ∃ node, ∃ rounds : List (Round Unit), Conductor.echoing.points.node? ⟨1⟩ = some node ∧
      node.actions.length = 1 ∧ rounds.map (·.beat) = [8.0, 4.0] ∧
      (∀ r ∈ rounds, r.Fits Conductor.echoing.points ⟨0⟩ ⟨1⟩ Conductor.reboundEvents) ∧
      (gather (Task.deed? ⟨⟨1⟩, node.generation⟩)
        (startedEntries Conductor.reboundEvents)).Perm (rounds.flatMap Round.dues) := by
  obtain ⟨pnode, hp, hkind⟩ := Option.map_eq_some_iff.mp
    (show (Conductor.echoing.points.node? ⟨0⟩).map (·.kind) = some .persistent by decide +kernel)
  obtain ⟨node, hq, hfields⟩ := Option.map_eq_some_iff.mp
    (show (Conductor.echoing.points.node? ⟨1⟩).map
        (fun node => (node.generation, node.derivation, node.actions.length)) =
      some (0, some ⟨.add, .point ⟨0⟩, .scalar 2.0⟩, 1) by decide +kernel)
  simp only [Prod.mk.injEq] at hfields
  obtain ⟨hgen, hderivation, hlength⟩ := hfields
  -- No point takes a beat before the first bind, and the persistent one alone after it.
  have hfirst : ∀ event ∈ callEvents Conductor.offline [.createPoint .persistent,
      .derivePoint ⟨.add, .point ⟨0⟩, .scalar 2.0⟩, .addAction ⟨1⟩ ⟨"cue", ()⟩],
      event.given?.isNone = true := by decide +kernel
  have honly : ∀ event ∈ Conductor.reboundEvents,
      event.given?.all (fun given => given.1 = ⟨0⟩) = true := by decide +kernel
  obtain ⟨-, -, rounds, dues, hbeats, hfits, hdues, hqueued, hstarted⟩ :=
    persistent_rebinding Conductor.history_echoing Conductor.run_rebound hp hkind hq
      (.single ⟨node, _, hq, hderivation, .head _⟩)
      (fun event hevent a beat hgiven => by
        have hnone := hfirst event hevent
        rw [hgiven] at hnone
        cases hnone)
      (fun event hevent a beat hgiven _ => by simpa [hgiven] using honly event hevent)
      Conductor.not_discards_rebound
  have hattached : Conductor.reboundEvents.flatMap (Event.attachedOf ⟨1⟩) = [] :=
    List.isEmpty_iff.mp (by decide +kernel)
  rw [hattached, List.append_nil] at hdues
  subst hdues
  refine ⟨node, rounds, hq, hlength, hbeats.trans (by decide +kernel), hfits, ?_⟩
  -- The first pass of the tick comes after both beats.
  obtain ⟨rest, hrest⟩ := LawfulPerformer.firstPass_prefix_dueEvents
    (L := LawfulPerformer.still) (s := (Conductor.rebound, ()))
  refine hstarted _ Conductor.rebound _ (congrArg _ hrest.symm) rfl ?_ ?_
  · intro event hevent
    have hcall := Conductor.isCall_dueEvents_rebound event (hrest ▸ .tail _ hevent)
    cases event with
    | called op c => cases hcall
    | _ => exact ⟨rfl, rfl⟩
  · rw [hgen] at hqueued
    have hpast : ∀ due ∈ gather (Task.deed? ⟨⟨1⟩, 0⟩) (startedEntries Conductor.reboundEvents ++
        (⟨(Conductor.runDue LawfulPerformer.still.perform (Conductor.rebound, ())).2.1, []⟩ :
          Moment Offline Unit).pending), due.1 ≤ Conductor.rebound.now := by decide +kernel
    exact fun due hdue => hpast due (hqueued.mem_iff.mpr hdue)

end Cadence
