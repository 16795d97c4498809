import Mathlib
import Cadence.Proofs.Run.Pace
import Cadence.Proofs.Run.Program
import Cadence.Proofs.Run.Rounds

/-!
# Points at an offset from a recurring point

A point that is computed by adding a number to a recurring point is computed again whenever the recurring
point moves on. So its action for a cycle is queued when the recurring point takes the beat of that cycle,
which is in time if the number is not negative, and late if the action is due before that beat. This file
says when the action runs: in the first tick that has reached both beats.

- `Cycles.filterMap_beatFor?`: a recurring point that is not reset takes the beats that it moves on to;
- `Rounds.offset`: what is queued for the point at an offset, cycle by cycle;
- `Reached.started`: what a pass has started that found the recurring point up to date;
- `offset_keeps_pace` puts this together for ticks that are at most a period apart;
- `offset_runs_late`: a point one beat ahead of a recurring one, and one that was bound too late.
-/

namespace Cadence

variable {σ β ω : Type}

/-- The value of a point that is computed by adding a number to `p`. -/
theorem Points.Values.offset {ps : Points (Action β)} {p q : PointId} {beat x : Float}
    {v : PointId → Option Float} (h : ps.Values p beat q v) {node : PointNode (Action β)}
    (hnode : ps.node? q = some node) (hd : node.derivation = some ⟨.add, .point p, .scalar x⟩)
    (hne : q ≠ p) : v q = (some (beat + x)).filter (·.isFinite) := by
  have hnames : ps.Names q p := ⟨node, _, hnode, hd, .head _⟩
  rw [h.derived q node _ .refl (.single hnames) hne hnode hd, Derivation.value]
  simp only [Operand.value, h.root]
  rfl

variable [Transport σ]

/-- What an operation takes off the queue was pending. -/
theorem Step.mem_pending_of_dropped {m m' : Moment σ β} {event : Event σ β} (h : Step m event m')
    {e : Entry (Task β)} (he : e ∈ event.dropped) : e ∈ m.pending := by
  cases h with
  | call => exact List.mem_append_left _ (List.mem_filter.mp he).1
  | _ => cases he

/-- What is pending in the new generation of a point that a step resets is what the step asks for. -/
theorem Effect.gather_pending_of_reset {before : List (Event σ β)} {m m' : Moment σ β}
    {event : Event σ β} (h : History before m) (hstep : Step m event m') {q : PointId}
    {node : PointNode (Action β)} (hnode : m.clock.points.node? q = some node)
    (hreset : event.Resets q) {requests : List (Request β)} (heffect : Effect m event m' requests) :
    m'.clock.points.isLive (node.nextToken q) = true ∧
      (gather (Task.deed? (node.nextToken q)) m'.pending).Perm
        (asked (Task.deedOf? q) requests) := by
  obtain ⟨node', hnode', -, hgen, -⟩ := heffect.points.node hnode
  have hlive : m'.clock.points.isLive (node.nextToken q) = true :=
    Points.isLive_iff.mpr ⟨node', hnode', hgen hreset⟩
  refine ⟨hlive, ?_⟩
  -- The new generation begins with the step, so no entry carries its token yet.
  have hold (e : Entry (Task β)) (he : e ∈ m.pending) := h.token?_ne_nextToken hnode he
  have hperm := heffect.gather_perm <| gather_eq_nil (about_deed? (node.nextToken q)) fun e he =>
    hold e (hstep.mem_pending_of_dropped he)
  rw [gather_eq_nil (about_deed? _) hold, List.nil_append,
    asked_deed?_eq hlive heffect.backed] at hperm
  rw [gather_eq_nil (about_deed? _) fun e he => hold e (hstep.mem_pending_of_start
    (Option.mem_toList.mp he)), List.append_nil] at hperm
  exact hperm

/-- The beat that an event measures. -/
def Event.reading? : Event σ β → Option Float
  | .measured c => some c.now
  | _ => none

/-! ## The beats that a recurring point takes -/

section Moves

variable {t : Token} {period b : Float} {attached : ℕ → List (Action β)}
  {earlier events : List (Event σ β)} {event : Event σ β} {m m' : Moment σ β} {n : ℕ}

/-- A recurring point that is not reset takes a beat only when it moves on. -/
theorem Cycles.beatFor?_eq_move? (h : Cycles t period b attached earlier m n) (hs : Sound m)
    (hstep : Step m event m') (hkept : event.Keeps t) :
    event.beatFor? t.point = event.move? t := by
  obtain ⟨node, hnode, hkind, hgen, -⟩ := h.node
  cases hstep with
  | @call c u op permitted =>
    cases op with
    | bind id beat =>
      change (if c.accepts id beat then some (id, beat) else none).bind _ = none
      split_ifs with haccepts
      · -- A bind of the point itself would reset it.
        refine if_neg fun hid => hkept.1 ?_
        subst hid
        exact ⟨((Conductor.accepts_iff hnode).mp haccepts).1, ⟨period, node, hnode, hkind⟩, .refl⟩
      · rfl
    | _ => rfl
  | @start c u reading e rest =>
    change (e.task.given? c).bind _ = e.task.move? t e.dueBeat
    cases htask : e.task with
    | rearm token beat =>
      have hdue := (hs.rearm e (Moment.mem_pending_next c reading e rest u) token beat htask).1
      have honly : c.points.isLive token = true → (token.point = t.point ↔ token = t) :=
        fun hlive => ⟨Points.eq_of_isLive hlive h.isLive, congrArg _⟩
      rw [Task.given?, Task.move?, hdue]
      split_ifs with hlive heq heq
      · simp [heq]
      · exact if_neg (mt (honly hlive).mp heq)
      · exact absurd (heq ▸ h.isLive) hlive
      · rfl
    | _ => rfl
  | _ => rfl

/-- So it takes the beats that it moves on to. -/
theorem Cycles.filterMap_beatFor? (h : Cycles t period b attached [] m 0) (hs : Sound m)
    (hrun : Run m events m') (hkept : ∀ event ∈ events, event.Keeps t) :
    events.filterMap (Event.beatFor? t.point) = gather (Task.move? t) (startedEntries events) := by
  induction hrun with
  | nil => rfl
  | @snoc events event m₁ m₂ hrun hstep ih =>
    rw [List.forall_mem_append] at hkept
    obtain ⟨_, _, -, hcycles⟩ := h.run hs hrun hkept.1
    have hone := hcycles.beatFor?_eq_move? (hrun.sound hs) hstep (hkept.2 event (.head _))
    rw [List.filterMap_append, startedEntries_append, gather_append, ih hkept.1,
      startedEntries_singleton, gather_start?, ← hone]
    cases hbeat : event.beatFor? t.point <;> simp [hbeat]

end Moves

/-! ## The books of a point at an offset -/

/-- What is queued in a cycle for a point that is computed by adding `x` to a recurring one: the actions at
the sum, if that is finite. -/
def offsetDues (b period x : Float) (attached : ℕ → List (Action β)) (k : ℕ) :
    List (Float × Action β) :=
  duesAt (some (cycleBeat b period k + x)) (attached k)

/-- The actions of each cycle: those of the first one, and those of the rounds after it. -/
def cycleActions (first : List (Action β)) (rounds : List (Round β)) (k : ℕ) : List (Action β) :=
  (first :: rounds.map (·.actions))[k]?.getD []

omit [Transport σ] in
/-- Nothing is queued at a value that is not finite. -/
theorem duesAt_filter (value : Option Float) (actions : List (Action β)) :
    duesAt (value.filter (·.isFinite)) actions = duesAt value actions := by
  cases value with
  | none => rfl
  | some beat =>
    rw [Option.filter_some]
    split_ifs with hbeat
    · rfl
    · exact (if_neg hbeat).symm

omit [Transport σ] in
/-- More rounds leave the actions of the earlier cycles as they are. -/
theorem cycleActions_append {first : List (Action β)} {rounds : List (Round β)} {k : ℕ}
    (h : k ≤ rounds.length) (extra : List (Round β)) :
    cycleActions first (rounds ++ extra) k = cycleActions first rounds k := by
  rw [cycleActions, cycleActions, List.map_append, ← List.cons_append,
    List.getElem?_append_left (by simpa using Nat.lt_succ_of_le h)]

omit [Transport σ] in
/-- So what was queued in them stays the same. -/
theorem flatMap_offsetDues_append {b period x : Float} {first : List (Action β)}
    {rounds : List (Round β)} {k : ℕ} (h : k ≤ rounds.length) (extra : List (Round β)) :
    (List.range (k + 1)).flatMap (offsetDues b period x (cycleActions first (rounds ++ extra))) =
      (List.range (k + 1)).flatMap (offsetDues b period x (cycleActions first rounds)) := by
  refine List.flatMap_congr fun j hj => ?_
  rw [offsetDues, offsetDues, cycleActions_append]
  exact (Nat.lt_succ_iff.mp (List.mem_range.mp hj)).trans h

omit [Transport σ] in
/-- What was queued in the first cycles is part of what was queued in more. -/
theorem flatMap_range_sublist {γ : Type} (f : ℕ → List γ) {k n : ℕ} (h : k ≤ n) :
    ((List.range k).flatMap f).Sublist ((List.range n).flatMap f) := by
  obtain ⟨d, rfl⟩ := Nat.exists_eq_add_of_le h
  rw [List.range_add, List.flatMap_append]
  exact List.sublist_append_left _ _

omit [Transport σ] in
/-- What was queued in all cycles. -/
theorem flatMap_offsetDues {b period x : Float} {first : List (Action β)} {rounds : List (Round β)}
    {n : ℕ} (hbeats : rounds.map (·.beat) = (List.range n).map fun k => cycleBeat b period (k + 1))
    (hvalues : ∀ r ∈ rounds, r.value = (some (r.beat + x)).filter (·.isFinite)) :
    (List.range (n + 1)).flatMap (offsetDues b period x (cycleActions first rounds)) =
      duesAt (some (b + x)) first ++ rounds.flatMap Round.dues := by
  have hlength : rounds.length = n := by
    have := congrArg List.length hbeats
    rwa [List.length_map, List.length_map, List.length_range] at this
  rw [List.range_succ_eq_map, List.flatMap_cons, List.flatMap_map]
  congr 1
  rw [List.flatMap_def, List.flatMap_def]
  congr 1
  refine List.ext_getElem (by simp [hlength]) fun k h₁ h₂ => ?_
  have hk : k < rounds.length := by simpa using h₂
  have hbeat : rounds[k].beat = cycleBeat b period (k + 1) := by
    have := List.getElem_of_eq hbeats (by simpa using hk : k < (rounds.map (·.beat)).length)
    simpa using this
  simp only [List.getElem_map, List.getElem_range]
  rw [Round.dues, hvalues _ (List.getElem_mem hk), hbeat, offsetDues, duesAt_filter]
  congr 1
  simp [cycleActions, hk]

omit [Transport σ] in
/-- The rounds of a point at an offset are the cycles of the recurring point after the first one. -/
theorem Rounds.offset {ps : Points (Action β)} {p : PointId} {t' : Token} {period b x : Float}
    {start : List (Float × Action β)} {events : List (Event σ β)} {m : Moment σ β}
    {rounds : List (Round β)} {n : ℕ} (h : Rounds ps p t' start events m rounds)
    (hbeats : events.filterMap (Event.beatFor? p) =
      (List.range n).map fun k => cycleBeat b period (k + 1))
    {node : PointNode (Action β)} (hnode : ps.node? t'.point = some node)
    (hd : node.derivation = some ⟨.add, .point p, .scalar x⟩) (hne : t'.point ≠ p) :
    rounds.length = n ∧ (∀ k ≤ n, node.actions <+: cycleActions node.actions rounds k) ∧
      (List.range (n + 1)).flatMap (offsetDues b period x (cycleActions node.actions rounds)) =
        duesAt (some (b + x)) node.actions ++ rounds.flatMap Round.dues := by
  have hall := h.beats.trans hbeats
  have hlength : rounds.length = n := by
    have hlengths := congrArg List.length hall
    rwa [List.length_map, List.length_map, List.length_range] at hlengths
  refine ⟨hlength, fun k hk => ?_, flatMap_offsetDues hall fun r hr => ?_⟩
  · cases k with
    | zero => exact List.prefix_refl _
    | succ k =>
      have hk : k < rounds.length := hlength ▸ hk
      obtain ⟨-, sofar, -, hactions⟩ := h.fits _ (List.getElem_mem hk)
      have hcycle : cycleActions node.actions rounds (k + 1) = rounds[k].actions := by
        simp [cycleActions, hk]
      rw [hcycle, hactions, Points.actionsOf_of_node? hnode]
      exact List.prefix_append _ _
  · obtain ⟨⟨v, hvalues, hvalue⟩, -⟩ := h.fits r hr
    rw [hvalue, hvalues.offset hnode hd hne]

section Started

variable {before events : List (Event σ β)} {m₀ m : Moment σ β} {t t' : Token}
  {period b x r : Float} {attached : ℕ → List (Action β)} {start : List (Float × Action β)}
  {node : PointNode (Action β)}

/-- The recurring point has taken the beats of its cycles. -/
theorem Cycles.filterMap_beatFor?_eq (h : Cycles t period b attached [] m₀ 0) (hs : Sound m₀)
    (hrun : Run m₀ events m) (hkept : ∀ event ∈ events, event.Keeps t) :
    events.filterMap (Event.beatFor? t.point) =
      (List.range (moved t events)).map fun k => cycleBeat b period (k + 1) := by
  obtain ⟨_, n, -, hcycles⟩ := h.run hs hrun hkept
  rw [List.nil_append] at hcycles
  rw [hcycles.moved_eq, ← hcycles.moves]
  exact h.filterMap_beatFor? hs hrun hkept

/-- Once a pass that measured a beat from `r` on has found the point moved on to every beat up to `r`, what
was queued up to `r` in the cycles of these beats has been started. -/
theorem Reached.started (h : Reached t period b m₀ events r) (hhistory : History before m₀)
    (hrun : Run m₀ events m) (hopen : Cycles t period b attached [] m₀ 0) (hb : b.isFinite = true)
    (hperiod : period.isFinite = true) (hpos : 0.0 < period)
    (hrounds : Rounds m₀.clock.points t.point t' start [] m₀ [])
    (hstart : start.Perm (duesAt (some (b + x)) node.actions))
    (hnode : m₀.clock.points.node? t'.point = some node)
    (hd : node.derivation = some ⟨.add, .point t.point, .scalar x⟩)
    (hkept : ∀ event ∈ events, event.Keeps t)
    (hspares : ∀ event ∈ events, event.Spares m₀.clock.points t.point t') :
    ∃ rounds, Rounds m₀.clock.points t.point t' start events m rounds ∧
      ∀ k, k = 0 ∨ cycleBeat b period k ≤ r →
        (((List.range (k + 1)).flatMap
            (offsetDues b period x (cycleActions node.actions rounds))).filter
              fun due => decide (due.1 ≤ r)).Subperm
          (gather (Task.deed? t') (startedEntries events)) := by
  obtain ⟨earlier, c, later, rest, m₁, m₂, rfl, hfirst, hpass, hidle, hreading, hcaught⟩ := h
  have hs := hhistory.sound
  have hhas := Points.has_of_node? hnode
  have hnames : m₀.clock.points.Names t'.point t.point := ⟨node, _, hnode, hd, .head _⟩
  have hne : t'.point ≠ t.point := fun heq => (hs.linked.earlier hnames).ne (congrArg _ heq.symm)
  obtain ⟨_, hboth, hrest⟩ := hrun.split
  obtain rfl := hboth.unique (hfirst.append hpass)
  rw [List.append_assoc, List.forall_mem_append] at hkept hspares
  -- The books when the pass began, and those at the end.
  obtain ⟨rounds₁, h₁⟩ := hrounds.run hs.linked hhas hs hfirst hspares.1 (.single hnames)
  obtain ⟨extra, h₂⟩ := h₁.run hs.linked hhas (hfirst.sound hs) (hpass.append hrest) hspares.2
    (.single hnames)
  rw [List.nil_append, List.nil_append] at h₁ h₂
  obtain ⟨hlength, -, hcycles⟩ :=
    h₁.offset (hopen.filterMap_beatFor?_eq hs hfirst hkept.1) hnode hd hne
  refine ⟨rounds₁ ++ extra, by rwa [List.append_assoc], fun k hk => ?_⟩
  have hbegun : k ≤ moved t earlier := by
    rcases hk with rfl | hk
    · exact Nat.zero_le _
    · by_contra hlater
      exact Number.not_lt_of_le (Number.atMost_trans
        (cycleBeat_mono hb hperiod hpos (Nat.lt_of_not_le hlater)) hk) hcaught
  rw [flatMap_offsetDues_append (hlength ▸ hbegun)]
  -- The cycles up to this one are in the books of when the pass began, and what of these is due by
  -- its reading, it has started.
  have hpart := flatMap_range_sublist (offsetDues b period x (cycleActions node.actions rounds₁))
    (Nat.succ_le_succ hbegun)
  rw [hcycles] at hpart
  have hbooks : (duesAt (some (b + x)) node.actions ++ rounds₁.flatMap Round.dues).Subperm
      (start ++ rounds₁.flatMap Round.dues ++ earlier.flatMap (Event.attachedOf t'.point)) :=
    (hstart.symm.append_right _).subperm.trans (List.sublist_append_left _ _).subperm
  have hreached := List.monotone_filter_right
    (start ++ rounds₁.flatMap Round.dues ++ earlier.flatMap (Event.attachedOf t'.point))
    (p := fun due => decide (due.1 ≤ r)) (q := fun due => decide (due.1 ≤ c.now)) fun due hdue =>
      decide_eq_true (Number.atMost_trans (of_decide_eq_true hdue) hreading)
  have hstarted := h₁.reached (hhistory.append hfirst) hpass hidle
  rw [startedEntries_append (_ ++ _) rest, gather_append]
  have hdue := (((hpart.subperm.trans hbooks).filter _).trans hreached.subperm).trans hstarted
  exact hdue.trans (List.sublist_append_left _ _).subperm

end Started

/-! ## Points that were bound -/

section Bound

variable {before : List (Event σ β)} {c : Conductor σ β} {u : List (Pass β)} {p q : PointId}
  {pnode node : PointNode (Action β)} {period b x : Float}

omit [Transport σ] in
/-- A point that is computed by adding a number to a recurring one derives from nothing else. -/
theorem Points.derivesFrom_offset {ps : Points (Action β)} (hlinked : ps.Linked)
    (hrecurs : ps.Recurs p period) (hq : ps.node? q = some node)
    (hd : node.derivation = some ⟨.add, .point p, .scalar x⟩) {a : PointId}
    (h : ps.DerivesFrom q a) : a = q ∨ a = p := by
  rcases h.cases_head with rfl | ⟨operand, ⟨node', d, hnode', hd', hmem⟩, hrest⟩
  · exact .inl rfl
  · obtain rfl := Option.some.inj (hq.symm.trans hnode')
    obtain rfl := Option.some.inj (hd.symm.trans hd')
    obtain rfl := List.mem_singleton.mp hmem
    exact .inr (Points.eq_of_derivesFrom_of_recurs hlinked hrecurs hrest).symm

/-- Binding a recurring point opens new books of a point at an offset, with its actions at the sum. -/
theorem rounds_of_bind (h : History before ⟨c, u⟩) (hp : c.points.node? p = some pnode)
    (hkind : pnode.kind = .recurring period) (hb : b.isFinite = true)
    (hq : c.points.node? q = some node)
    (hd : node.derivation = some ⟨.add, .point p, .scalar x⟩) :
    ∃ start node', start.Perm (duesAt (some (b + x)) node.actions) ∧
      (c.bind p b).2.points.node? q = some node' ∧ node'.derivation = node.derivation ∧
      node'.actions = node.actions ∧
      Rounds (c.bind p b).2.points p (node.nextToken q) start [] ⟨(c.bind p b).2, u⟩ [] := by
  have hstep : Step ⟨c, u⟩ (.called (.bind p b) c) ⟨(c.bind p b).2, u⟩ := .call trivial
  have hnames : c.points.Names q p := ⟨node, _, hq, hd, .head _⟩
  have hreset : c.BindResets p b q := ⟨hb, ⟨period, pnode, hp, hkind⟩, .single hnames⟩
  have haccepts := Conductor.accepts_of_bindResets h.sound.linked hreset
  obtain ⟨requests, heffect, hsettles⟩ := hstep.settles h.sound
  obtain ⟨hlive, hpending⟩ := heffect.gather_pending_of_reset h hstep hq hreset
  obtain ⟨node', hnode', hgrows⟩ := heffect.points.grown q node hq
  have hactions := hsettles.actions q (Points.has_of_node? hq)
  rw [Points.actionsOf_of_node? hnode', Points.actionsOf_of_node? hq] at hactions
  refine ⟨_, node', hpending.trans (.of_eq ?_), hnode', hgrows.derivation,
    hactions.trans (List.append_nil _), Rounds.opened p hlive⟩
  -- What the bind asks for is what the value gives that the point is computed to.
  have hgiven : (Event.called (.bind p b) c : Event σ β).given? = some (p, b) := if_pos haccepts
  have hwithin := hsettles.within p b hgiven
  have hne : q ≠ p := fun heq => (h.sound.linked.earlier hnames).ne (congrArg _ heq.symm)
  have hbeat : (c.bind p b).2.points.beat? p = some b := (cycles_of_bind h hp hkind hb).1
  rw [(hwithin q (.single hnames)).2, (hwithin q (.single hnames)).1, Points.actionsOf_of_node? hq,
    Points.valueFrom_of_derivation hne b hnode' (hgrows.derivation.trans hd), duesAt_filter,
    Points.amount_eq_value, Derivation.value]
  simp only [Operand.value]
  rw [show (⟨(c.bind p b).2, u⟩ : Moment σ β).clock.points.beat? p = some b from hbeat]
  rfl

variable {L : LawfulPerformer σ β ω} {after : List (Event σ β)} {m : Moment σ β} {r r₀ : Float}
  {readings : List Float}

/-- A point that is computed by adding a number to a recurring one has its actions queued once for each
cycle, at the beat of the cycle plus the number, if that is finite, and nothing else but an action at once
when it is attached. No entry is started before its beat, and each carries its action out. As long as nobody
clears, rebinds or cancels one of the two points or jumps on the timeline, ticks that are at most a period
apart keep pace with the cycles: when a tick is over, every action has been started that is due by its
reading, of the first cycle and of all whose beat for the recurring point the reading has reached. At the
bind at most thirty cycles may have begun already, for a tick makes a limited number of passes, and the
readings may not get to where the period is lost to rounding. -/
theorem offset_keeps_pace (h : History before ⟨c, u⟩) (hp : c.points.node? p = some pnode)
    (hkind : pnode.kind = .recurring period) (hperiod : period.isFinite = true)
    (hpos : 0.0 < period) (hb : b.isFinite = true) (hq : c.points.node? q = some node)
    (hd : node.derivation = some ⟨.add, .point p, .scalar x⟩)
    (hlag : (c.bind p b).2.now < cycleBeat b period 30)
    (hticks : Ticking L period ⟨(c.bind p b).2, u⟩ after m (r :: r₀ :: readings))
    (hpast : ∀ r' ∈ r :: r₀ :: readings, ∃ k, r' < cycleBeat b period k)
    (hcalm : ∀ event ∈ after, ¬ event.Disturbs p ∧ ¬ event.Disturbs q)
    (hnever : ∀ event ∈ after, ∀ beat, event.given? ≠ some (q, beat)) :
    ∃ attached n, attached 0 = node.actions ∧ (∀ k ≤ n, node.actions <+: attached k) ∧
      r < cycleBeat b period (n + 1) ∧
      (gather (Task.deed? (node.nextToken q)) (startedEntries after ++ m.pending)).Perm
        ((List.range (n + 1)).flatMap (offsetDues b period x attached) ++
          after.flatMap (Event.attachedOf q)) ∧
      (∀ reading e c' action, Event.started reading e c' ∈ after →
        e.task = .actFor (node.nextToken q) action → ¬ reading < e.dueBeat ∧
          ∀ (perform : Performer σ β ω) (w : ω),
            Conductor.runTask perform e.task (c', w) = perform action.body (c', w)) ∧
      ∀ k, k = 0 ∨ cycleBeat b period k ≤ r →
        (((List.range (k + 1)).flatMap (offsetDues b period x attached)).filter
            fun due => decide (due.1 ≤ r)).Subperm
          (gather (Task.deed? (node.nextToken q)) (startedEntries after)) := by
  have hbound : History (before ++ [.called (.bind p b) c]) ⟨(c.bind p b).2, u⟩ :=
    h.append (.single (.call trivial))
  have hs := hbound.sound
  have hrun := hticks.run hs
  obtain ⟨-, hopen⟩ := cycles_of_bind h hp hkind hb
  obtain ⟨start, node', hstart, hq', hd', hactions, hrounds₀⟩ := rounds_of_bind h hp hkind hb hq hd
  rw [hd] at hd'
  obtain ⟨pnode', hp', hkind', -⟩ := hopen.node
  have hrecurs : (c.bind p b).2.points.Recurs p period := ⟨pnode', hp', hkind'⟩
  have hhas := Points.has_of_node? hq'
  have hnames : (c.bind p b).2.points.Names q p := ⟨node', _, hq', hd', .head _⟩
  have hderives : (c.bind p b).2.points.DerivesFrom q p := .single hnames
  have hne : q ≠ p := fun heq => (hs.linked.earlier hnames).ne (congrArg _ heq.symm)
  -- Nothing touches what is queued for the two points but the recurring one moving on.
  have hkept : ∀ event ∈ after, event.Keeps (pnode.nextToken p) := by
    have hspares := hrun.spares hbound (t := pnode.nextToken p) (Points.has_of_node? hp')
      (fun event hevent => (hcalm event hevent).1)
      fun event _ a beat _ hder => (Points.eq_of_derivesFrom_of_recurs hs.linked hrecurs hder).symm
    exact fun event hevent => ⟨(hspares event hevent).reset, (hspares event hevent).dropped⟩
  have hspares : ∀ event ∈ after, event.Spares (c.bind p b).2.points p (node.nextToken q) := by
    refine hrun.spares hbound hhas (fun event hevent => (hcalm event hevent).2) ?_
    rintro event hevent a beat hgiven hder
    rcases Points.derivesFrom_offset hs.linked hrecurs hq' hd' hder with rfl | heq
    · exact absurd hgiven (hnever event hevent beat)
    · exact heq
  obtain ⟨_, _, heq, -, hreached⟩ := hticks.reached hs hopen hb hperiod hpos hlag hkept hpast
  cases heq
  replace hreached := hreached (List.cons_ne_nil _ _)
  obtain ⟨rounds, hrounds, hstarted⟩ := hreached.started hbound hrun hopen hb hperiod hpos hrounds₀
    (hactions ▸ hstart) hq' hd' hkept hspares
  obtain ⟨-, hgrows, hcycles⟩ :=
    hrounds.offset (hopen.filterMap_beatFor?_eq hs hrun hkept) hq' hd' hne
  rw [hactions] at hgrows hcycles hstarted
  refine ⟨_, _, rfl, hgrows, ?_, ?_, fun reading e c' action hmem htask => ⟨?_, fun perform w => ?_⟩,
    hstarted⟩
  · obtain ⟨earlier, c', later, rest, m₁, m₂, rfl, -, -, -, -, hcaught⟩ := hreached
    refine Number.below_of_below_of_atMost hcaught (cycleBeat_mono hb hperiod hpos ?_)
    rw [moved_append, moved_append]
    omega
  · rw [hcycles]
    exact hrounds.deeds.trans ((hstart.append_right _).append_right _)
  · exact (hbound.append hrun).not_early.2 reading e c' (List.mem_append_right _ hmem)
  · exact Rounds.runTask_of_started hs hrun hhas hderives hrounds₀.live hspares hmem htask perform w

end Bound

namespace Conductor

/-- A point that recurs every four beats, and a point one beat ahead of it that has an action. -/
def leading : Conductor Offline Unit :=
  offline.applyAll [.createPoint (.recurring 4.0), .derivePoint ⟨.add, .point ⟨0⟩, .scalar (-1.0)⟩,
    .addAction ⟨1⟩ ⟨"cue", ()⟩]

/-- The recurring point is bound to beat four. -/
def led : Conductor Offline Unit := (leading.bind ⟨0⟩ 4.0).2

/-- What happens while time moves on by microseconds and then a tick is made. -/
def tickAfter (c : Conductor Offline Unit) (micros : UInt64) : List (Event Offline Unit) :=
  .called (.advance micros) c ::
    LawfulPerformer.still.tickEvents ((Operation.advance micros).apply c, ())

/-- The clock after that. -/
def tickedAfter (c : Conductor Offline Unit) (micros : UInt64) : Conductor Offline Unit :=
  (tick LawfulPerformer.still.perform ((Operation.advance micros).apply c, ())).2.1

/-- What happens in ticks at beat three and at beat seven. -/
def ledEvents : List (Event Offline Unit) :=
  led.tickAfter 1500000 ++ (led.tickedAfter 1500000).tickAfter 2000000

/-- The clock after them. -/
def ledOn : Conductor Offline Unit := (led.tickedAfter 1500000).tickedAfter 2000000

/-- A point that recurs every beat, bound to beat zero at beat 40.5, and a point a quarter of a beat after
it that has an action. -/
def trailing : Conductor Offline Unit :=
  ((offline.applyAll [.createPoint (.recurring 1.0), .derivePoint ⟨.add, .point ⟨0⟩, .scalar 0.25⟩,
    .addAction ⟨1⟩ ⟨"cue", ()⟩, .moveTo 20250000]).bind ⟨0⟩ 0.0).2

end Conductor

/-- The event is no call but one that moves time on or reconciles. -/
def Event.isPassing : Event σ β → Bool
  | .called (.advance _) _ => true
  | .called .reconcile _ => true
  | .called _ _ => false
  | _ => true

omit [Transport σ] in
theorem Event.not_disturbs_of_isPassing {event : Event σ β} (h : event.isPassing = true)
    (q : PointId) : ¬ event.Disturbs q := by
  cases event with
  | called op c =>
    cases op with
    | advance | reconcile => exact fun hdisturbs => hdisturbs.elim id id
    | _ => cases h
  | _ => exact id

/-- One more tick some time later. -/
theorem Ticking.tickAfter {period r s : Float} {m₀ : Moment Offline Unit}
    {events : List (Event Offline Unit)} {c : Conductor Offline Unit} {readings : List Float}
    (h : Ticking LawfulPerformer.still period m₀ events ⟨c, []⟩ (r :: readings)) (micros : UInt64)
    (hreport : (Conductor.tick LawfulPerformer.still.perform
      ((Operation.advance micros).apply c, ())).1.isSome = true)
    (hreadings : ∀ event ∈ c.tickAfter micros, ∀ reading ∈ event.reading?, s ≤ reading)
    (hapart : s ≤ r + period) :
    Ticking LawfulPerformer.still period m₀ (events ++ c.tickAfter micros)
      ⟨c.tickedAfter micros, []⟩ (s :: r :: readings) := by
  have hlater : Run ⟨c, []⟩ [.called (.advance micros) c]
      ⟨(Operation.advance micros).apply c, []⟩ := .single (.call trivial)
  have hticked := (h.between hlater).tick (w := ()) (fun _ hid => by cases hid) hreport
    (fun c' hc' => hreadings _ (.tail _ hc') _ rfl) hapart
  rwa [List.append_assoc] at hticked

/-- The two ticks are less than a period apart. -/
theorem Conductor.ticking_led : Ticking LawfulPerformer.still 4.0 ⟨Conductor.led, []⟩
    Conductor.ledEvents ⟨Conductor.ledOn, []⟩ [7.0, 3.0, Conductor.led.now] :=
  (Ticking.begin.tickAfter 1500000 (by decide +kernel) (by decide +kernel)
    (by decide +kernel)).tickAfter 2000000 (by decide +kernel) (by decide +kernel)
    (by decide +kernel)

/-- A third tick, at beat eight, has started the action of the point ahead for both beats so far. -/
theorem lead_keeps_pace :
    ∃ node attached n, Conductor.leading.points.node? ⟨1⟩ = some node ∧
      node.actions.length = 1 ∧ attached 0 = node.actions ∧
      (∀ k ≤ n, node.actions <+: attached k) ∧ (8.0 : Float) < cycleBeat 4.0 4.0 (n + 1) ∧
      (((List.range 2).flatMap (offsetDues 4.0 4.0 (-1.0) attached)).filter
          fun due => decide (due.1 ≤ 8.0)).Subperm
        (gather (Task.deed? (node.nextToken ⟨1⟩))
          (startedEntries (Conductor.ledEvents ++ Conductor.ledOn.tickAfter 500000))) := by
  have hbefore : History (callEvents Conductor.offline [.createPoint (.recurring 4.0),
      .derivePoint ⟨.add, .point ⟨0⟩, .scalar (-1.0)⟩, .addAction ⟨1⟩ ⟨"cue", ()⟩])
      ⟨Conductor.leading, []⟩ := Conductor.history_offline_calls (by decide +kernel)
  obtain ⟨pnode, hp, hkind⟩ := Option.map_eq_some_iff.mp
    (show (Conductor.leading.points.node? ⟨0⟩).map (·.kind) = some (.recurring 4.0) by
      decide +kernel)
  obtain ⟨node, hq, hfields⟩ := Option.map_eq_some_iff.mp
    (show (Conductor.leading.points.node? ⟨1⟩).map
        (fun node => (node.derivation, node.actions.length)) =
      some (some ⟨.add, .point ⟨0⟩, .scalar (-1.0)⟩, 1) by decide +kernel)
  simp only [Prod.mk.injEq] at hfields
  have hticks := Conductor.ticking_led.tickAfter (s := 8.0) 500000 (by decide +kernel)
    (by decide +kernel) (by decide +kernel)
  have hpassing : ∀ event ∈ Conductor.ledEvents ++ Conductor.ledOn.tickAfter 500000,
      event.isPassing = true ∧ event.given?.all (fun given => given.1 = ⟨0⟩) = true := by
    decide +kernel
  obtain ⟨attached, n, hfirst, hgrows, hbegun, -, -, hstarted⟩ :=
    offset_keeps_pace hbefore hp hkind (by decide +kernel) (by decide +kernel) (by decide +kernel)
      hq hfields.1 (by decide +kernel) hticks
      (by
        intro r hr
        refine ⟨2, ?_⟩
        simp only [List.mem_cons, List.not_mem_nil, or_false] at hr
        rcases hr with rfl | rfl | rfl | rfl <;> decide +kernel)
      (fun event hevent => ⟨Event.not_disturbs_of_isPassing (hpassing event hevent).1 _,
        Event.not_disturbs_of_isPassing (hpassing event hevent).1 _⟩)
      (by
        intro event hevent beat hgiven
        have hall := (hpassing event hevent).2
        rw [hgiven] at hall
        simp at hall)
  exact ⟨node, attached, n, hq, hfields.2, hfirst, hgrows, hbegun,
    hstarted 1 (.inr (by decide +kernel))⟩

/-- The tick at beat seven does not start the action of the point ahead for that beat, for it is queued only
when the recurring point takes beat eight. And the tick at beat 41.25 does not start the action of the other
point for that beat, for its passes do not suffice to move the recurring point on to beat 41. -/
theorem offset_runs_late :
    (Conductor.leading.points.node? ⟨0⟩).map (·.kind) = some (.recurring 4.0) ∧
      (Conductor.leading.points.node? ⟨1⟩).map (fun node => (node.derivation, node.actions.length)) =
        some (some ⟨.add, .point ⟨0⟩, .scalar (-1.0)⟩, 1) ∧
      Ticking LawfulPerformer.still 4.0 ⟨(Conductor.leading.bind ⟨0⟩ 4.0).2, []⟩
        Conductor.ledEvents ⟨Conductor.ledOn, []⟩ [7.0, 3.0, Conductor.led.now] ∧
      (∀ event ∈ Conductor.ledEvents, ¬ event.Disturbs ⟨0⟩ ∧ ¬ event.Disturbs ⟨1⟩) ∧
      Conductor.led.now < cycleBeat 4.0 4.0 1 + -1.0 ∧
      cycleBeat 4.0 4.0 1 + -1.0 = Conductor.ledOn.now ∧
      (gather (Task.deed? ⟨⟨1⟩, 1⟩) (startedEntries Conductor.ledEvents)).map (·.1) = [3.0] ∧
      (gather (Task.deed? ⟨⟨1⟩, 1⟩) (startedEntries
        (Conductor.ledEvents ++ Conductor.ledOn.tickAfter 500000))).map (·.1) = [3.0, 7.0] ∧
      Conductor.trailing.now < cycleBeat 0.0 1.0 41 + 0.25 ∧
      cycleBeat 0.0 1.0 41 + 0.25 = (Conductor.trailing.tickedAfter 375000).now ∧
      (gather (Task.deed? ⟨⟨1⟩, 1⟩) (startedEntries (Conductor.trailing.tickAfter 375000))).all
        (fun due => due.1 < cycleBeat 0.0 1.0 41 + 0.25) = true := by
  have hpassing : ∀ event ∈ Conductor.ledEvents, event.isPassing = true := by decide +kernel
  refine ⟨by decide +kernel, by decide +kernel, Conductor.ticking_led, fun event hevent => ?_,
    by decide +kernel, by decide +kernel, by decide +kernel, by decide +kernel, by decide +kernel,
    by decide +kernel, by decide +kernel⟩
  exact ⟨Event.not_disturbs_of_isPassing (hpassing event hevent) _,
    Event.not_disturbs_of_isPassing (hpassing event hevent) _⟩

end Cadence
