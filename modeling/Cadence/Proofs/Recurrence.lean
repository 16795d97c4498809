import Mathlib
import Cadence.Proofs.Silence

/-!
# Recurring points

A recurring point keeps one entry pending, which moves it on to its next beat. When that entry is
started, the point takes the beat, queues its actions there and requests the entry for the beat after.
This file keeps the books of one generation of a recurring point, from the bind that began it:

- `Cycles` says which beats the point has moved on to, which entry is pending for the next one, and
  which actions were queued for which beat;
- `Cycles.step` keeps it through every step that neither resets the point nor drops its entries,
  whatever else happens and whatever the actions answer;
- `recurrence` states what follows for every history after the bind, with every tick that comes next.
-/

namespace Cadence

variable {σ β γ ω : Type}

/-- The beats of a recurring point: each is the one before it, moved on by the period. -/
def cycleBeat (b period : Float) : ℕ → Float
  | 0 => b
  | k + 1 => cycleBeat b period k + period

/-- The beat of a task that moves the point of the token on. -/
def Task.move? (t : Token) (task : Task β) (due : Float) : Option Float :=
  match task with
  | .rearm token _ => if token = t then some due else none
  | _ => none

/-- The beat and the action of a task that runs an action for the token. -/
def Task.deed? (t : Token) (task : Task β) (due : Float) : Option (Float × Action β) :=
  match task with
  | .actFor token action => if token = t then some (due, action) else none
  | _ => none

/-- What is said is about tasks with the token. -/
def About (t : Token) (f : Task β → Float → Option γ) : Prop :=
  ∀ task due, task.token? ≠ some t → f task due = none

theorem about_move? (t : Token) : About t (Task.move? (β := β) t) := by
  intro task due h
  cases task with
  | rearm token beat =>
    refine if_neg ?_
    rintro rfl
    exact h rfl
  | _ => rfl

theorem about_deed? (t : Token) : About t (Task.deed? (β := β) t) := by
  intro task due h
  cases task with
  | actFor token action =>
    refine if_neg ?_
    rintro rfl
    exact h rfl
  | _ => rfl

/-- Entries without the token say nothing. -/
theorem gather_eq_nil {t : Token} {f : Task β → Float → Option γ} (hf : About t f)
    {es : List (Entry (Task β))} (h : ∀ e ∈ es, e.task.token? ≠ some t) : gather f es = [] := by
  refine List.filterMap_eq_nil_iff.mpr fun e he => ?_
  exact hf _ _ (h e he)

theorem asked_eq_nil {t : Token} {f : Task β → Float → Option γ} (hf : About t f)
    {rs : List (Request β)} (h : ∀ r ∈ rs, r.task.token? ≠ some t) : asked f rs = [] := by
  refine List.filterMap_eq_nil_iff.mpr fun r hr => ?_
  exact hf _ _ (h r hr)

/-! ## What a resolution says -/

/-- What the requests of a resolution of a recurring point say about the point: its actions at the beat,
and the next beat if that is finite. -/
theorem asked_resolutionRequests {ps : Points (Action β)} {t : Token}
    {node : PointNode (Action β)} {period beat : Float} (hnode : ps.node? t.point = some node)
    (hkind : node.kind = .recurring period) (hgen : node.generation = t.generation)
    (hbeat : beat.isFinite = true) {others : List (PointEntry (Action β))}
    (hothers : ∀ e ∈ others, e.token.point ≠ t.point)
    {f : Task β → Float → Option γ} (hf : About t f) :
    asked f (Conductor.resolutionRequests t.point
        ⟨ps.wants t.point beat ++ others, ps.rearmAfter t.point beat⟩) =
      node.actions.filterMap (fun action => f (.actFor t action) beat) ++
        if (beat + period).isFinite then (f (.rearm t (beat + period)) (beat + period)).toList
        else [] := by
  have htoken : (⟨t.point, node.generation⟩ : Token) = t := by rw [hgen]
  -- Everything that the point itself wants is at the beat, and is queued.
  have hown : Conductor.finiteOf ((ps.wants t.point beat).map fun e =>
      (e.beat, (.actFor e.token e.action : Task β), e.token.point)) =
      node.actions.map fun action => (beat, .actFor t action, t.point) := by
    unfold Points.wants Conductor.finiteOf
    rw [hnode]
    simp only [List.map_map, htoken]
    refine List.filter_eq_self.mpr fun b hb => ?_
    obtain ⟨action, -, rfl⟩ := List.mem_map.mp hb
    exact hbeat
  have hrest : (Conductor.finiteOf (others.map fun e =>
      (e.beat, (.actFor e.token e.action : Task β), e.token.point))).filterMap
        (fun b => f b.2.1 b.1) = [] := by
    refine List.filterMap_eq_nil_iff.mpr fun b hb => ?_
    obtain ⟨e, he, rfl⟩ := List.mem_map.mp (List.mem_filter.mp hb).1
    refine hf _ _ fun heq => hothers e he ?_
    rw [Option.some.inj heq]
  rw [Conductor.resolutionRequests, Conductor.asked_batchRequests, Conductor.batchOf,
    Points.rearmAfter_of_recurs hnode hkind, htoken]
  simp only [List.map_append, Conductor.finiteOf, List.filter_append, List.filterMap_append]
  simp only [Conductor.finiteOf] at hown hrest
  rw [hown, hrest, List.append_nil, List.filterMap_map]
  congr 1
  cases hnext : (beat + period).isFinite with
  | true =>
    cases hvalue : f (.rearm t (beat + period)) (beat + period) <;> simp [hnext, hvalue]
  | false => simp [hnext]

/-! ## What a step asks for a recurring point -/

/-- The beat that an event moves the point of the token on to. -/
def Event.move? (t : Token) : Event σ β → Option Float
  | .started _ e _ => e.task.move? t e.dueBeat
  | _ => none

/-- What an event queues at once for an action that it attaches to the point of the token. -/
def Event.attached (t : Token) : Event σ β → List (Float × Action β)
  | .called (.addAction id action) c => asked (Task.deed? t) (c.attachRequests id action)
  | _ => []

theorem gather_start? (t : Token) (event : Event σ β) :
    gather (Task.move? t) event.start?.toList = (event.move? t).toList := by
  cases event with
  | started reading e c =>
    cases h : e.task.move? t e.dueBeat <;> simp [gather, Event.start?, Event.move?, h]
  | _ => rfl

/-- Attaching an action moves nothing on. -/
theorem asked_attachRequests (c : Conductor σ β) (id : PointId) (action : Action β) (t : Token) :
    asked (Task.move? t) (c.attachRequests id action) = [] := by
  refine List.filterMap_eq_nil_iff.mpr fun r hr => ?_
  obtain ⟨_, -, rfl⟩ := Conductor.mem_attachRequests hr
  rfl

/-- Starting a task requests nothing with the live token of a recurring point, unless it is the task that
moves this point on. -/
theorem token?_ne_of_carryRequests {c : Conductor σ β} (hlinked : c.points.Linked) {t : Token}
    {period : Float} {task : Task β}
    (hfinite : ∀ token beat, task = .rearm token beat → beat.isFinite = true)
    (hrecurs : c.points.Recurs t.point period) (hlive : c.points.isLive t = true)
    (hother : ∀ beat, task ≠ .rearm t beat) {requests : List (Request β)}
    (hrequests : CarryRequests c task requests) : ∀ r ∈ requests, r.task.token? ≠ some t := by
  intro r hr htoken
  unfold CarryRequests at hrequests
  cases task with
  | rearm token beat =>
    dsimp only at hrequests
    split_ifs at hrequests with hlive'
    · -- Another point moves on, and a recurring point derives from no other.
      obtain ⟨others, henqueues, rfl⟩ := hrequests
      obtain ⟨_, htoken', hderives, -⟩ := Conductor.derivesFrom_of_mem_resolutionRequests
        (hfinite token beat rfl) henqueues.resolves hr
      rw [htoken] at htoken'
      cases htoken'
      have hpoint := Points.eq_of_derivesFrom_of_recurs hlinked hrecurs hderives
      exact hother beat (congrArg (Task.rearm · beat) (Points.eq_of_isLive hlive' hlive hpoint.symm))
    · rw [hrequests] at hr
      cases hr
  | _ =>
    rw [show requests = [] from hrequests] at hr
    cases hr

/-- An event is the call of an operation. -/
def Event.isCall : Event σ β → Bool
  | .called _ _ => true
  | _ => false

/-! ## The books of a recurring point -/

/-- The books of a recurring point in the generation of a token, since it was bound at a beat: it has
moved on `n` times. -/
structure Cycles (t : Token) (period b : Float) (attached : ℕ → List (Action β))
    (events : List (Event σ β)) (m : Moment σ β) (n : ℕ) : Prop where
  /-- The point is still in that generation. -/
  node : ∃ node, m.clock.points.node? t.point = some node ∧ node.kind = .recurring period ∧
    node.generation = t.generation ∧ attached n <+: node.actions
  /-- Actions that were attached in one cycle are still attached in the next one. -/
  grows : ∀ k < n, attached k <+: attached (k + 1)
  /-- The beats so far are finite. -/
  finite : ∀ k ≤ n, (cycleBeat b period k).isFinite = true
  /-- The point has moved on to one beat after another. -/
  moves : gather (Task.move? t) (startedEntries events) =
    (List.range n).map fun k => cycleBeat b period (k + 1)
  /-- One entry is pending for the next beat, unless that is not finite. -/
  next : gather (Task.move? t) m.pending =
    if (cycleBeat b period (n + 1)).isFinite then [cycleBeat b period (n + 1)] else []
  /-- The actions that were started or are pending are those of every cycle at its beat, and those that
  were queued at once when they were attached. -/
  deeds : (gather (Task.deed? t) (startedEntries events ++ m.pending)).Perm
    (((List.range (n + 1)).flatMap fun k => (attached k).map (cycleBeat b period k, ·)) ++
      events.flatMap (Event.attached t))

/-- The task moves a point on, and its token is alive. -/
def Task.movesLive (task : Task β) (ps : Points (Action β)) (p : PointId) : Bool :=
  match task with
  | .rearm token _ => token.point = p && ps.isLive token
  | _ => false

namespace Cycles

variable {t : Token} {period b : Float} {attached : ℕ → List (Action β)}
  {events : List (Event σ β)} {event : Event σ β} {m m' : Moment σ β} {n : ℕ}

theorem isLive (h : Cycles t period b attached events m n) :
    m.clock.points.isLive t = true := by
  obtain ⟨node, hnode, -, hgen, -⟩ := h.node
  exact Points.isLive_iff.mpr ⟨node, hnode, hgen⟩

/-- No other token of the point is alive, so the entries that move it on are those of the books. -/
theorem dueBeats_movesLive (h : Cycles t period b attached events m n)
    (es : List (Entry (Task β))) :
    (es.filter (·.task.movesLive m.clock.points t.point)).map (·.dueBeat) =
      gather (Task.move? t) es := by
  have honly (token : Token) :
      (token.point = t.point && m.clock.points.isLive token) = decide (token = t) := by
    rw [Bool.eq_iff_iff, Bool.and_eq_true, decide_eq_true_iff, decide_eq_true_iff]
    constructor
    · rintro ⟨hpoint, hlive⟩
      exact Points.eq_of_isLive hlive h.isLive hpoint
    · rintro rfl
      exact ⟨rfl, h.isLive⟩
  have hmove (e : Entry (Task β)) : e.task.move? t e.dueBeat =
      if e.task.movesLive m.clock.points t.point then some e.dueBeat else none := by
    unfold Task.move? Task.movesLive
    cases e.task with
    | rearm token beat =>
      simp only [honly, decide_eq_true_iff]
    | _ => rfl
  unfold gather
  induction es with
  | nil => rfl
  | cons e rest ih =>
    rw [List.filterMap_cons, List.filter_cons, hmove]
    cases e.task.movesLive m.clock.points t.point with
    | true => exact congrArg _ ih
    | false => exact ih

/-- The next beat is not asked for twice. -/
theorem next_eq_of_perm {beat : Float} {xs : List Float}
    (h : xs.Perm (if beat.isFinite then [beat] else [])) :
    xs = if beat.isFinite then [beat] else [] := by
  split_ifs at h ⊢
  · exact List.perm_singleton.mp h
  · exact List.perm_nil.mp h

end Cycles

/-! ## What a step does to the books -/

variable [Transport σ]

/-- What pending and started entries say grows by what is requested, unless entries that say something are
dropped. -/
theorem Effect.gather_perm {m m' : Moment σ β} {event : Event σ β} {requests : List (Request β)}
    (h : Effect m event m' requests) {f : Task β → Float → Option γ}
    (hdropped : gather f event.dropped = []) :
    (gather f m'.pending ++ gather f event.start?.toList).Perm
      (gather f m.pending ++ asked f requests) := by
  have hperm := h.pending.filterMap fun e => f e.task e.dueBeat
  change (gather f _).Perm (gather f _) at hperm
  rw [gather_append, gather_append, gather_append, hdropped, List.append_nil, gather_entries] at hperm
  exact hperm

/-- So does what all entries say that were started so far or are pending. -/
theorem Effect.gather_started_perm {m m' : Moment σ β} {event : Event σ β}
    {requests : List (Request β)} (h : Effect m event m' requests) {f : Task β → Float → Option γ}
    (hdropped : gather f event.dropped = []) (events : List (Event σ β)) :
    (gather f (startedEntries (events ++ [event]) ++ m'.pending)).Perm
      (gather f (startedEntries events ++ m.pending) ++ asked f requests) := by
  have hstep := h.gather_perm hdropped
  rw [startedEntries_append, startedEntries_singleton]
  simp only [gather_append, List.append_assoc]
  exact (List.perm_append_comm.trans hstep).append_left _

/-- What starts moves from the pending entries. -/
theorem Step.mem_pending_of_start {m m' : Moment σ β} {event : Event σ β} (h : Step m event m')
    {e : Entry (Task β)} (hstart : event.start? = some e) : e ∈ m.pending := by
  cases h with
  | start =>
    cases hstart
    simp [Moment.pending, Moment.flying]
  | _ => cases hstart

section Step

variable {m m' : Moment σ β} {event : Event σ β} {t : Token} {node : PointNode (Action β)}
  {period : Float}

/-- What a step that moves a recurring point on asks for it: the beat after, and its actions. -/
theorem asked_of_move (hs : Sound m) (hstep : Step m event m')
    (hnode : m.clock.points.node? t.point = some node) (hkind : node.kind = .recurring period)
    (hgen : node.generation = t.generation) {requests : List (Request β)}
    (hrequests : event.Requests requests) {beat : Float} (hmove : event.move? t = some beat) :
    beat.isFinite = true ∧
      asked (Task.move? t) requests =
        (if (beat + period).isFinite then [beat + period] else []) ∧
      asked (Task.deed? t) requests = node.actions.map (beat, ·) := by
  cases hstep with
  | @start c u reading e rest =>
    have hmem := Moment.mem_pending_next c reading e rest u
    unfold Event.Requests CarryRequests at hrequests
    cases htask : e.task with
    | rearm token next =>
      have hdue := (hs.rearm e hmem token next htask).1
      simp only [Event.move?, htask, Task.move?] at hmove
      split_ifs at hmove with htoken
      obtain rfl := Option.some.inj hmove
      subst htoken
      -- The token is alive, so starting the task resolves the point.
      have hlive := Points.isLive_iff.mpr ⟨node, hnode, hgen⟩
      have hbeat := hs.finite_pending hmem
      simp only [htask, if_pos hlive, ← hdue] at hrequests
      obtain ⟨others, henqueues, rfl⟩ := hrequests
      have hothers (o : PointEntry (Action β)) (ho : o ∈ others) :
          o.token.point ≠ token.point := (henqueues.resolves.others o ho).2.1
      rw [asked_resolutionRequests hnode hkind hgen hbeat hothers (about_move? token),
        asked_resolutionRequests hnode hkind hgen hbeat hothers (about_deed? token)]
      refine ⟨hbeat, ?_, ?_⟩
      · simp [Task.move?]
      · simp [Task.deed?]
    | _ => simp [Event.move?, htask, Task.move?] at hmove
  | _ => cases hmove

/-- What any other step asks for it, if the point is not reset: an action that is attached. -/
theorem asked_of_stay (hs : Sound m) (hstep : Step m event m')
    (hnode : m.clock.points.node? t.point = some node) (hkind : node.kind = .recurring period)
    (hgen : node.generation = t.generation) (hkept : ¬ event.Resets t.point)
    {requests : List (Request β)} (hrequests : event.Requests requests)
    (hmove : event.move? t = none) :
    asked (Task.move? t) requests = [] ∧
      asked (Task.deed? t) requests = event.attached t := by
  have hnone (h : ∀ r ∈ requests, r.task.token? ≠ some t) (hattached : event.attached t = []) :
      asked (Task.move? t) requests = [] ∧ asked (Task.deed? t) requests = event.attached t :=
    ⟨asked_eq_nil (about_move? t) h, by rw [hattached, asked_eq_nil (about_deed? t) h]⟩
  cases hstep with
  | @call c u op permitted =>
    obtain ⟨hquiet, hattach⟩ := hrequests
    by_cases hadd : ∃ id action, op = .addAction id action
    · obtain ⟨id, action, rfl⟩ := hadd
      rw [hattach id action rfl]
      exact ⟨asked_attachRequests c id action t, rfl⟩
    · -- Only an operation that resets a recurring point requests an entry for it.
      have hnot (id : PointId) (action : Action β) : op ≠ .addAction id action :=
        fun heq => hadd ⟨id, action, heq⟩
      refine hnone (fun r hr htoken => ?_) ?_
      · exact hkept (hquiet hnot r hr t node period htoken hnode hkind)
      · unfold Event.attached
        split
        · rename_i heq
          cases heq
          exact absurd rfl (hnot _ _)
        · rfl
  | @start c u reading e rest =>
    have hother (beat : Float) : e.task ≠ .rearm t beat := by
      intro htask
      simp [Event.move?, htask, Task.move?] at hmove
    exact hnone (token?_ne_of_carryRequests hs.linked
      (fun token beat htask => hs.finite_rearm (Moment.mem_pending_next c reading e rest u) htask)
      ⟨node, hnode, hkind⟩ (Points.isLive_iff.mpr ⟨node, hnode, hgen⟩) hother hrequests) rfl
  | _ =>
    rw [show requests = [] from hrequests]
    exact ⟨rfl, rfl⟩

end Step

/-! ## Keeping the books -/

namespace Cycles

variable {t : Token} {period b : Float} {attached : ℕ → List (Action β)}
  {events : List (Event σ β)} {event : Event σ β} {m m' : Moment σ β} {n : ℕ}

/-- The books are kept by a step that does not move the point on. -/
theorem stay (hs : Sound m) (h : Cycles t period b attached events m n)
    (hstep : Step m event m') (hkept : ¬ event.Resets t.point)
    (hdropped : ∀ e ∈ event.dropped, e.task.token? ≠ some t) (hmove : event.move? t = none) :
    Cycles t period b attached (events ++ [event]) m' n := by
  obtain ⟨requests, heffect, hrequests⟩ := hstep.effect hs
  obtain ⟨node, hnode, hkind, hgen, hattached⟩ := h.node
  obtain ⟨node', hnode', hgrows, -, hsame⟩ := heffect.points.node hnode
  obtain ⟨hnomove, hdeeds⟩ := asked_of_stay hs hstep hnode hkind hgen hkept hrequests hmove
  -- Nothing is asked that moves the point on, so the entry for the next beat stays.
  have hmoves := heffect.gather_perm (gather_eq_nil (about_move? t) hdropped)
  rw [gather_start?, hmove, hnomove, h.next, Option.toList_none, List.append_nil,
    List.append_nil] at hmoves
  refine ⟨⟨node', hnode', hgrows.kind.trans hkind, (hsame hkept).trans hgen,
    hattached.trans hgrows.actions⟩, h.grows, h.finite, ?_, next_eq_of_perm hmoves, ?_⟩
  · rw [startedEntries_append, startedEntries_singleton, gather_append, gather_start?, hmove,
      h.moves]
    simp
  · have hall := heffect.gather_started_perm (gather_eq_nil (about_deed? t) hdropped) events
    rw [hdeeds] at hall
    rw [List.flatMap_append, List.flatMap_singleton, ← List.append_assoc]
    exact hall.trans (h.deeds.append_right _)

/-- A point moves on with the entry that is pending for the next beat. -/
theorem next_of_move (h : Cycles t period b attached events m n) (hstep : Step m event m')
    {beat : Float} (hmove : event.move? t = some beat) :
    (cycleBeat b period (n + 1)).isFinite = true ∧ beat = cycleBeat b period (n + 1) := by
  have hpending : beat ∈ gather (Task.move? t) m.pending := by
    cases event with
    | started reading e c => exact List.mem_filterMap.mpr ⟨e, hstep.mem_pending_of_start rfl, hmove⟩
    | _ => cases hmove
  rw [h.next] at hpending
  split_ifs at hpending with hfinite
  · exact ⟨hfinite, List.mem_singleton.mp hpending⟩
  · cases hpending

/-- What is queued over one more cycle. -/
theorem flatMap_update (period b : Float) (attached : ℕ → List (Action β))
    (actions : List (Action β)) (n : ℕ) :
    ((List.range (n + 1 + 1)).flatMap fun k =>
        (Function.update attached (n + 1) actions k).map (cycleBeat b period k, ·)) =
      ((List.range (n + 1)).flatMap fun k => (attached k).map (cycleBeat b period k, ·)) ++
        actions.map (cycleBeat b period (n + 1), ·) := by
  rw [List.range_succ, List.flatMap_append, List.flatMap_singleton, Function.update_self]
  congr 1
  refine List.flatMap_congr fun k hk => ?_
  rw [Function.update_of_ne (List.mem_range.mp hk).ne]

/-- The books are kept by a step that moves the point on, with one more cycle. -/
theorem move (hs : Sound m) (h : Cycles t period b attached events m n)
    (hstep : Step m event m') (hkept : ¬ event.Resets t.point)
    (hdropped : ∀ e ∈ event.dropped, e.task.token? ≠ some t) {beat : Float}
    (hmove : event.move? t = some beat) :
    ∃ actions, Cycles t period b (Function.update attached (n + 1) actions) (events ++ [event]) m'
      (n + 1) := by
  obtain ⟨requests, heffect, hrequests⟩ := hstep.effect hs
  obtain ⟨node, hnode, hkind, hgen, hattached⟩ := h.node
  obtain ⟨node', hnode', hgrows, -, hsame⟩ := heffect.points.node hnode
  obtain ⟨hbeat, hmoved, hdeeds⟩ := asked_of_move hs hstep hnode hkind hgen hrequests hmove
  obtain ⟨hfinite, rfl⟩ := h.next_of_move hstep hmove
  -- The entry for this beat is started, and the one for the beat after takes its place.
  have hmoves := heffect.gather_perm (gather_eq_nil (about_move? t) hdropped)
  rw [gather_start?, hmove, hmoved, h.next, if_pos hfinite, Option.toList_some] at hmoves
  have hafter := (List.perm_cons _).mp ((List.perm_append_singleton _ _).symm.trans hmoves)
  have hall := heffect.gather_started_perm (gather_eq_nil (about_deed? t) hdropped) events
  rw [hdeeds] at hall
  have hold (k : ℕ) (hk : k ≤ n) : Function.update attached (n + 1) node.actions k = attached k :=
    Function.update_of_ne (by omega) _ _
  refine ⟨node.actions, ⟨node', hnode', hgrows.kind.trans hkind, (hsame hkept).trans hgen, ?_⟩,
    fun k hk => ?_, fun k hk => ?_, ?_, next_eq_of_perm hafter, ?_⟩
  · rw [Function.update_self]
    exact hgrows.actions
  · rw [hold k (by omega)]
    rcases Nat.lt_succ_iff_lt_or_eq.mp hk with hk | rfl
    · rw [hold (k + 1) hk]
      exact h.grows k hk
    · rw [Function.update_self]
      exact hattached
  · rcases Nat.le_succ_iff.mp hk with hk | rfl
    · exact h.finite k hk
    · exact hfinite
  · rw [startedEntries_append, startedEntries_singleton, gather_append, gather_start?, hmove,
      h.moves, List.range_succ, List.map_append]
    rfl
  · -- A step that moves a point on is no call, so it attaches nothing.
    have hnone : event.attached t = [] := by
      cases event with
      | started reading e c => rfl
      | _ => cases hmove
    rw [flatMap_update, List.flatMap_append, List.flatMap_singleton, hnone, List.append_nil]
    refine hall.trans ((h.deeds.append_right _).trans ?_)
    rw [List.append_assoc, List.append_assoc]
    exact List.perm_append_comm.append_left _

/-- The books are kept by every step that neither resets the point nor drops its entries. -/
theorem step (hs : Sound m) (h : Cycles t period b attached events m n)
    (hstep : Step m event m') (hkept : ¬ event.Resets t.point)
    (hdropped : ∀ e ∈ event.dropped, e.task.token? ≠ some t) :
    ∃ attached' n', attached' 0 = attached 0 ∧
      Cycles t period b attached' (events ++ [event]) m' n' := by
  cases hmove : event.move? t with
  | none => exact ⟨attached, n, rfl, h.stay hs hstep hkept hdropped hmove⟩
  | some beat =>
    obtain ⟨actions, hmoved⟩ := h.move hs hstep hkept hdropped hmove
    exact ⟨_, _, Function.update_of_ne (by omega) _ _, hmoved⟩

/-- The books are kept by every run that neither resets the point nor drops its entries. -/
theorem run {later : List (Event σ β)} (hs : Sound m) (h : Cycles t period b attached events m n)
    (hrun : Run m later m')
    (hkept : ∀ event ∈ later, ¬ event.Resets t.point ∧
      ∀ e ∈ event.dropped, e.task.token? ≠ some t) :
    ∃ attached' n', attached' 0 = attached 0 ∧
      Cycles t period b attached' (events ++ later) m' n' := by
  induction hrun with
  | nil => exact ⟨attached, n, rfl, by rwa [List.append_nil]⟩
  | @snoc later event m₁ m₂ hrun hstep ih =>
    obtain ⟨attached₁, n₁, hfirst₁, h₁⟩ :=
      ih fun event hevent => hkept event (List.mem_append_left _ hevent)
    obtain ⟨hreset, hdropped⟩ := hkept event (List.mem_append_right _ (.head _))
    obtain ⟨attached₂, n₂, hfirst₂, h₂⟩ := h₁.step (hrun.sound hs) hstep hreset hdropped
    exact ⟨attached₂, n₂, hfirst₂.trans hfirst₁, by rwa [← List.append_assoc]⟩

end Cycles

/-- The token of the generation that a reset of a point begins. -/
def PointNode.nextToken (node : PointNode (Action β)) (p : PointId) : Token :=
  ⟨p, node.generation + 1⟩

/-- The entries that are pending before a reset carry tokens of earlier generations. -/
theorem History.token?_ne_nextToken {events : List (Event σ β)} {m : Moment σ β}
    (h : History events m) {p : PointId} {node : PointNode (Action β)}
    (hnode : m.clock.points.node? p = some node) {e : Entry (Task β)} (he : e ∈ m.pending) :
    e.task.token? ≠ some (node.nextToken p) := by
  intro htoken
  obtain ⟨-, node', hnode', hle, -⟩ := h.generation_le he htoken
  cases hnode.symm.trans hnode'
  exact absurd hle (Nat.not_succ_le_self _)

/-- What is pending in the new generation of a recurring point that was bound: its actions at the beat, and
the next beat if that is finite. -/
theorem gather_pending_bind {before : List (Event σ β)} {c : Conductor σ β} {u : List (Pass β)}
    (h : History before ⟨c, u⟩) {p : PointId} {node : PointNode (Action β)} {period b : Float}
    (hnode : c.points.node? p = some node) (hkind : node.kind = .recurring period)
    (hb : b.isFinite = true) {others : List (PointEntry (Action β))}
    (henqueues : (c.restart p node.kind).Enqueues (c.bind p b).2 p b others)
    (hreset : (c.restart p node.kind).points.node? p = some node.reset)
    {f : Task β → Float → Option γ} (hf : About (node.nextToken p) f) :
    (gather f (⟨(c.bind p b).2, u⟩ : Moment σ β).pending).Perm
      (node.actions.filterMap (fun action => f (.actFor (node.nextToken p) action) b) ++
        if (b + period).isFinite then
          (f (.rearm (node.nextToken p) (b + period)) (b + period)).toList
        else []) := by
  obtain ⟨dropped, hq⟩ := (c.change_restart h.sound.linked hnode).queue
  have hperm := henqueues.queue.perm
  simp only [Bool.not_false, List.filter_true] at hperm
  have hgather := hperm.filterMap fun e => f e.task e.dueBeat
  change (gather f _).Perm (gather f _) at hgather
  -- The entries from before, queued or under way, say nothing.
  have hold : gather f (c.restart p node.kind).queue.entries = [] := by
    refine gather_eq_nil hf fun e he => h.token?_ne_nextToken hnode (List.mem_append_left _ ?_)
    rcases hq.mem_iff.mp he with ⟨he, -⟩ | he
    · exact he
    · cases he
  have hflying : gather f (⟨(c.bind p b).2, u⟩ : Moment σ β).flying = [] :=
    gather_eq_nil hf fun e he => h.token?_ne_nextToken hnode (List.mem_append_right _ he)
  rw [gather_append, hold, List.nil_append, gather_entries] at hgather
  rw [Moment.pending, gather_append, hflying, List.append_nil]
  refine hgather.trans (.of_eq ?_)
  exact asked_resolutionRequests (t := (node.nextToken p)) hreset hkind rfl hb
    (fun e he => (henqueues.resolves.others e he).2.1) hf

/-- Binding a recurring point to a finite beat gives it the beat and opens new books. -/
theorem cycles_of_bind {before : List (Event σ β)} {c : Conductor σ β} {u : List (Pass β)}
    (h : History before ⟨c, u⟩) {p : PointId} {node : PointNode (Action β)} {period b : Float}
    (hnode : c.points.node? p = some node) (hkind : node.kind = .recurring period)
    (hb : b.isFinite = true) :
    (c.bind p b).2.points.beat? p = some b ∧
      Cycles (node.nextToken p) period b (fun _ => node.actions) []
        ⟨(c.bind p b).2, u⟩ 0 := by
  have hlinked := h.sound.linked
  rcases c.bind_cases hlinked p b with ⟨-, hnot⟩ | ⟨node', others, hnode', -, henqueues, -⟩
  · exact absurd ⟨hb, period, node, hnode, hkind⟩ hnot
  rw [hnode] at hnode'
  cases hnode'
  have hreset : (c.restart p node.kind).points.node? p = some node.reset := by
    rw [hkind, Conductor.restart_recurring c (Points.has_of_node? hnode)]
    exact c.node?_clearPoint hlinked hnode
  have hpending {γ : Type} {f : Task β → Float → Option γ} (hf : About (node.nextToken p) f) :=
    gather_pending_bind h hnode hkind hb henqueues hreset hf
  -- After the reset only beats come and go.
  obtain ⟨node', hnode', hview⟩ := henqueues.resolves.keeps.node? hreset
  refine ⟨henqueues.points ▸ henqueues.resolves.beat, ⟨node', henqueues.points ▸ hnode', ?_, ?_, ?_⟩,
    by simp, ?_, rfl, Cycles.next_eq_of_perm ?_, ?_⟩
  · exact (PointNode.grows_of_still hview).kind.trans hkind
  · exact PointNode.generation_of_still hview
  · rw [PointNode.actions_of_still hview]
    exact List.prefix_refl _
  · intro k hk
    rw [Nat.le_zero.mp hk]
    exact hb
  · refine (hpending (about_move? _)).trans (.of_eq ?_)
    cases hnext : (b + period).isFinite <;> simp [Task.move?, cycleBeat, hnext]
  · refine (hpending (about_deed? _)).trans (.of_eq ?_)
    simp [Task.deed?, cycleBeat]

/-- A point that moves on takes the beat at which its entry is due. -/
theorem beat?_carry {c : Conductor σ β} {reading : Float} {e : Entry (Task β)}
    {rest : List (Entry (Task β))} {u : List (Pass β)}
    (hs : Sound ⟨c, ⟨reading, e :: rest⟩ :: u⟩) {t : Token} (hlive : c.points.isLive t = true)
    {beat : Float} (htask : e.task = .rearm t beat) :
    (e.task.carry c).points.beat? t.point = some e.dueBeat := by
  have hmem := Moment.mem_pending_next c reading e rest u
  have hdue := (hs.rearm e hmem t beat htask).1
  have hbeat := hs.finite_pending hmem
  rw [hdue] at hbeat ⊢
  obtain ⟨others, henqueues⟩ := c.enqueues_rearm hs.linked hlive hbeat
  rw [htask, Task.carry, if_pos hlive, henqueues.points]
  exact henqueues.resolves.beat

/-! ## Recurrence -/

/-- A recurring point that was bound to a beat takes that beat, and goes through its cycles as long as
it is neither reset nor loses entries: whatever else happens, whenever ticks come and whatever the
actions answer, it has moved on to one beat after another, its actions were queued once for each, and one
entry moves it on to the next. Every one of its entries does its work when it is started, and each that
is due when a tick first reads the beat is started in the first pass of the tick. -/
theorem recurrence {before after : List (Event σ β)} {c : Conductor σ β} {p : PointId}
    {node : PointNode (Action β)} {period b : Float} {m : Moment σ β}
    (h : History (before ++ .called (.bind p b) c :: after) m)
    (hnode : c.points.node? p = some node) (hkind : node.kind = .recurring period)
    (hb : b.isFinite = true)
    (hkept : ∀ event ∈ after, ¬ event.Resets p ∧
      ∀ e ∈ event.dropped, e.task.token? ≠ some (node.nextToken p)) :
    (c.bind p b).2.points.beat? p = some b ∧
      (∃ attached n, attached 0 = node.actions ∧
        Cycles (node.nextToken p) period b attached after m n ∧
        (m.pending.filter (·.task.movesLive m.clock.points p)).map (·.dueBeat) =
          if (cycleBeat b period (n + 1)).isFinite then [cycleBeat b period (n + 1)] else []) ∧
      (∀ reading e c', Event.started reading e c' ∈ after →
        e.task.token? = some (node.nextToken p) →
        c'.points.isLive (node.nextToken p) = true ∧
          ∀ beat, e.task = .rearm (node.nextToken p) beat →
            (e.task.carry c').points.beat? p = some e.dueBeat) ∧
      ∀ (L : LawfulPerformer σ β ω) (w : ω), ∀ e ∈ m.clock.queue.entries,
        e.task.token? = some (node.nextToken p) → e.dueBeat ≤ m.clock.now →
        ∃ c', Event.started m.clock.now e c' ∈ L.firstPass (m.clock, w) := by
  obtain ⟨m₀, hbefore, hrun⟩ := h.split
  obtain ⟨m₁, hstep, hafter⟩ := hrun.head
  cases hstep with
  | @call _ u _ permitted =>
    obtain ⟨hbeat, hopen⟩ := cycles_of_bind hbefore hnode hkind hb
    have hbound := hbefore.append (.single (.call permitted))
    refine ⟨hbeat, ?_, ?_, ?_⟩
    · obtain ⟨attached, n, hfirst, hcycles⟩ := hopen.run hbound.sound hafter hkept
      exact ⟨attached, n, hfirst, hcycles, (hcycles.dueBeats_movesLive m.pending).trans hcycles.next⟩
    · intro reading e c' hmem htoken
      obtain ⟨now, later, rfl⟩ := List.append_of_mem hmem
      obtain ⟨m₂, hnow, hlater⟩ := hafter.split
      obtain ⟨_, _, -, hcycles⟩ := hopen.run hbound.sound hnow fun event hevent =>
        hkept event (List.mem_append_left _ hevent)
      obtain ⟨m₃, hstart, -⟩ := hlater.head
      have hs := hnow.sound hbound.sound
      cases hstart
      exact ⟨hcycles.isLive, fun beat htask => beat?_carry hs hcycles.isLive htask⟩
    · intro L w e he _ hdue
      exact LawfulPerformer.started_mem_firstPass (L := L) (s := (m.clock, w))
        (Queue.mem_drainDue_of_le h.sound.valid he hdue)

/-- Events that are no calls reset nothing and drop nothing. -/
theorem Event.silent_of_not_isCall {event : Event σ β} (h : event.isCall = false) (p : PointId) :
    ¬ event.Resets p ∧ event.dropped = [] := by
  cases event with
  | called op c => cases h
  | _ => exact ⟨id, rfl⟩

namespace Conductor

/-- A clock with a point that recurs every beat and has an action. -/
def looped : Conductor Offline Unit :=
  offline.applyAll [.createPoint (.recurring 1.0), .addAction ⟨0⟩ ⟨"cue", ()⟩]

/-- The clock three beats after the point was bound. -/
def late : Conductor Offline Unit := looped.applyAll [.bind ⟨0⟩ 0.0, .advance 1500000]

end Conductor

/-- A tick that comes three beats late moves the point on three times. -/
theorem late_catches_up :
    ∃ node attached, Conductor.looped.points.node? ⟨0⟩ = some node ∧ node.actions.length = 1 ∧
      attached 0 = node.actions ∧
      Cycles (node.nextToken ⟨0⟩) 1.0 0.0 attached
        (callEvents (Conductor.looped.bind ⟨0⟩ 0.0).2 [.advance 1500000] ++
          LawfulPerformer.still.dueEvents (Conductor.late, ()))
        ⟨(Conductor.runDue LawfulPerformer.still.perform (Conductor.late, ())).2.1, []⟩ 3 := by
  have hview : (Conductor.looped.points.node? ⟨0⟩).map
      (fun node => (node.kind, node.generation, node.actions.length)) =
        some (.recurring 1.0, 0, 1) := by decide +kernel
  obtain ⟨node, hnode, hfields⟩ := Option.map_eq_some_iff.mp hview
  simp only [Prod.mk.injEq] at hfields
  obtain ⟨hkind, hgen, hlength⟩ := hfields
  have htoken : node.nextToken ⟨0⟩ = ⟨⟨0⟩, 1⟩ := by rw [PointNode.nextToken, hgen]
  have hbefore : History (callEvents Conductor.offline [.createPoint (.recurring 1.0),
      .addAction ⟨0⟩ ⟨"cue", ()⟩, .bind ⟨0⟩ 0.0, .advance 1500000]) ⟨Conductor.late, []⟩ :=
    Conductor.history_offline (by simp [Operation.Permitted])
  have hhistory : History (callEvents Conductor.offline [.createPoint (.recurring 1.0),
      .addAction ⟨0⟩ ⟨"cue", ()⟩] ++ .called (.bind ⟨0⟩ 0.0) Conductor.looped ::
        (.called (.advance 1500000) (Conductor.looped.bind ⟨0⟩ 0.0).2 ::
          LawfulPerformer.still.dueEvents (Conductor.late, ())))
      ⟨(Conductor.runDue LawfulPerformer.still.perform (Conductor.late, ())).2.1, []⟩ :=
    hbefore.append (LawfulPerformer.run_due (L := LawfulPerformer.still)
      (s := (Conductor.late, ())) hbefore.sound (fun _ h => by cases h)).1
  have hsilent : ∀ event ∈ LawfulPerformer.still.dueEvents (Conductor.late, ()),
      event.isCall = false := by decide +kernel
  have hadvance : ∀ e ∈ Event.dropped (.called (.advance 1500000) (Conductor.looped.bind ⟨0⟩ 0.0).2),
      e.task.token? ≠ some ⟨⟨0⟩, 1⟩ := by decide +kernel
  obtain ⟨-, ⟨attached, n, hfirst, hcycles, -⟩, -⟩ :=
    recurrence (ω := Unit) hhistory hnode hkind (by decide +kernel) (by
        intro event hevent
        rcases List.mem_cons.mp hevent with rfl | hevent
        · rw [htoken]
          exact ⟨id, hadvance⟩
        · obtain ⟨hreset, hdropped⟩ := Event.silent_of_not_isCall (hsilent event hevent) ⟨0⟩
          exact ⟨hreset, by simp [hdropped]⟩)
  have hn : n = 3 := by
    have hmoves := congrArg List.length hcycles.moves
    rw [List.length_map, List.length_range, htoken] at hmoves
    rw [← hmoves]
    decide +kernel
  subst hn
  exact ⟨node, attached, hnode, hlength, hfirst, hcycles⟩

end Cadence
