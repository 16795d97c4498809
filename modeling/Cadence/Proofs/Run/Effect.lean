import Mathlib
import Cadence.Proofs.Run.Step

/-!
# What a step does

A step moves entries between three places: it requests them, drops them from the queue, or starts them.
This file proves `Step.effect`, which says for every step which entries are pending afterwards, which
points were reset, and that what was requested can run. A moment that was reached by steps is sound:
its points are linked, its queue is in order, and the entries under way are as the queue had them.
-/

namespace Cadence

variable {σ β : Type}

/-- In a valid queue the entries that are not there afterwards are those that were dropped. -/
theorem Queue.Evolves.filter_dropped {α : Type} {q q' : Queue α} {dropped : Entry α → Bool}
    {added : List (Entry α)} (h : q.Evolves q' dropped added) (hq : q.Valid) :
    q.entries.filter (·.id ∉ q'.entries.map (·.id)) = q.entries.filter dropped := by
  refine List.filter_congr fun e he => ?_
  rw [Bool.eq_iff_iff, decide_eq_true_iff]
  constructor
  · intro hnot
    by_contra hkept
    rw [Bool.not_eq_true] at hkept
    exact hnot (List.mem_map_of_mem (h.mem_iff.mpr (.inl ⟨he, hkept⟩)))
  · intro hdropped hin
    obtain ⟨e', he', hid⟩ := List.mem_map.mp hin
    rcases h.mem_iff.mp he' with ⟨hold, hkept⟩ | hnew
    · -- Names are distinct, so this would be the dropped entry itself.
      have heq : e' = e := List.inj_on_of_nodup_map hq.distinct hold he hid
      rw [heq, hdropped] at hkept
      cases hkept
    · have hge := (h.submitted_le hnew).1
      rw [hid] at hge
      exact absurd (hq.issued e he) (not_lt.mpr hge)

/-! ## Sound moments -/

/-- The next entry of the innermost pass is pending. -/
theorem Moment.mem_pending_next (c : Conductor σ β) (reading : Float) (e : Entry (Task β))
    (rest : List (Entry (Task β))) (u : List (Pass β)) :
    e ∈ (⟨c, ⟨reading, e :: rest⟩ :: u⟩ : Moment σ β).pending :=
  List.mem_append_right _ (.head _)

/-- A moment that makes sense. -/
structure Sound (m : Moment σ β) : Prop where
  /-- The points are linked. -/
  linked : m.clock.points.Linked
  /-- The queue is in order. -/
  valid : m.clock.queue.Valid
  /-- The beats of the entries under way are finite. -/
  finite : ∀ e ∈ m.flying, e.dueBeat.isFinite = true
  /-- A recurring point moves on to the beat at which its entry is due. -/
  rearm : ∀ e ∈ m.pending, ∀ token beat, e.task = .rearm token beat →
    e.dueBeat = beat ∧ ∃ period, m.clock.points.Recurs token.point period

/-- The passes under way can be left out. -/
theorem Sound.idle {m : Moment σ β} (h : Sound m) : Sound ⟨m.clock, []⟩ where
  linked := h.linked
  valid := h.valid
  finite := by simp [Moment.flying]
  rearm := fun e he => h.rearm e <| by
    simp only [Moment.pending, Moment.flying, List.flatMap_nil, List.append_nil] at he
    exact List.mem_append_left _ he

theorem Sound.finite_pending {m : Moment σ β} (h : Sound m) {e : Entry (Task β)}
    (he : e ∈ m.pending) : e.dueBeat.isFinite = true := by
  rcases List.mem_append.mp he with he | he
  · exact h.valid.finite e he
  · exact h.finite e he

/-- A recurring point moves on to a finite beat. -/
theorem Sound.finite_rearm {m : Moment σ β} (h : Sound m) {e : Entry (Task β)} (he : e ∈ m.pending)
    {token : Token} {beat : Float} (htask : e.task = .rearm token beat) : beat.isFinite = true := by
  rw [← (h.rearm e he token beat htask).1]
  exact h.finite_pending he

/-- A clock that was just created is sound. -/
theorem sound_create {config : Config} {time : WallTime} {session : σ} {c : Conductor σ β}
    (h : Conductor.create config time session = .ok c) :
    Sound ⟨c, []⟩ ∧ c.queue = .empty ∧ c.points = .empty := by
  have hempty : c.queue = .empty ∧ c.points = .empty := by
    unfold Conductor.create at h
    cases hplayhead : Playhead.start time config.clock.tempo config.clock.meter
        config.clock.startBeat with
    | error fault =>
      simp only [hplayhead] at h
      cases h
    | ok playhead =>
      simp only [hplayhead] at h
      cases h
      exact ⟨rfl, rfl⟩
  refine ⟨⟨?_, ?_, ?_, ?_⟩, hempty⟩
  · rw [hempty.2]
    exact Points.linked_empty
  · rw [hempty.1]
    exact Queue.valid_empty
  · simp [Moment.flying]
  · simp [Moment.pending, Moment.flying, hempty.1, Queue.empty]

variable [Transport σ]

/-! ## What the clock does by itself -/

/-- What the clock requests when it starts a task: what the resolution of a recurring point asks for,
if the task moves one on with a live token. -/
def CarryRequests (c : Conductor σ β) (task : Task β) (requests : List (Request β)) : Prop :=
  match task with
  | .rearm token beat =>
    if c.points.isLive token then
      ∃ others, c.Enqueues (c.rearm token beat) token.point beat others ∧
        requests = Conductor.resolutionRequests token.point
          ⟨c.points.wants token.point beat ++ others, c.points.rearmAfter token.point beat⟩
    else requests = []
  | _ => requests = []

/-- Starting a task drops nothing and resets nothing. -/
theorem carry_spec {c : Conductor σ β} (hlinked : c.points.Linked) (task : Task β)
    (hfinite : ∀ token beat, task = .rearm token beat → beat.isFinite = true) :
    ∃ requests,
      c.queue.Evolves (task.carry c).queue (fun _ => false)
        (Request.entries c.queue.submitted requests) ∧
      c.points.Advances (task.carry c).points (fun _ => False) ∧
      (∀ r ∈ requests, r.Backed (task.carry c).points) ∧ CarryRequests c task requests := by
  cases task with
  | act action => exact ⟨[], .refl _, .refl _, by simp, rfl⟩
  | actFor token action => exact ⟨[], .refl _, .refl _, by simp, rfl⟩
  | tempo beat bpm =>
    obtain ⟨hq, hp⟩ := c.changeTempoAt_queue_points beat bpm
    simp only [Task.carry]
    rw [hq, hp]
    exact ⟨[], .refl _, .refl _, by simp, rfl⟩
  | rearm token beat =>
    unfold CarryRequests Task.carry
    simp only
    split_ifs with hlive
    · have hbeat := hfinite token beat rfl
      obtain ⟨others, henqueues⟩ := c.enqueues_rearm hlinked hlive hbeat
      have hchange := henqueues.change hbeat
      exact ⟨_, henqueues.queue, hchange.points, hchange.backed, others, henqueues, rfl⟩
    · exact ⟨[], .refl _, .refl _, by simp, rfl⟩

/-! ## The effect of a step -/

/-- What is known of the requests of an event. -/
def Event.Requests (event : Event σ β) (requests : List (Request β)) : Prop :=
  match event with
  | .called op c =>
    op.QuietUnlessAttaching c requests ∧
      ∀ id action, op = .addAction id action → requests = c.attachRequests id action
  | .started _ e c => CarryRequests c e.task requests
  | _ => requests = []

/-- The effect of a step on entries and points. -/
structure Effect (m : Moment σ β) (event : Event σ β) (m' : Moment σ β)
    (requests : List (Request β)) : Prop where
  /-- What was pending or is requested is pending afterwards, was started or was dropped. -/
  pending : (m'.pending ++ (event.start?.toList ++ event.dropped)).Perm
    (m.pending ++ Request.entries m.clock.queue.submitted requests)
  /-- A valid queue stays valid. -/
  valid : m.clock.queue.Valid → m'.clock.queue.Valid
  /-- Requested entries count as submitted. -/
  submitted : m'.clock.queue.submitted = m.clock.queue.submitted + requests.length
  /-- The points afterwards. -/
  points : m.clock.points.Advances m'.clock.points event.Resets
  /-- What was requested can run. -/
  backed : ∀ r ∈ requests, r.Backed m'.clock.points

/-- The effect of a change of the clock that starts nothing. -/
theorem effect_of_change {c c' : Conductor σ β} {u : List (Pass β)} {event : Event σ β}
    {requests : List (Request β)} (hvalid : c.queue.Valid)
    (hchange : Change c c' event.Resets requests) (hstart : event.start? = none)
    (hdropped : event.dropped = c.queue.entries.filter (·.id ∉ c'.queue.entries.map (·.id))) :
    Effect ⟨c, u⟩ event ⟨c', u⟩ requests := by
  obtain ⟨dropped, hq⟩ := hchange.queue
  refine ⟨?_, hq.valid, ?_, hchange.points, hchange.backed⟩
  · rw [hstart, hdropped, hq.filter_dropped hvalid]
    -- Dropped and kept entries together are those that were queued.
    have hall := List.filter_append_perm dropped c.queue.entries
    have hperm := hq.perm
    simp only [Moment.pending, Moment.flying, Option.toList_none, List.nil_append]
    rw [← Multiset.coe_eq_coe] at hall hperm ⊢
    simp only [← Multiset.coe_add] at hall hperm ⊢
    rw [hperm, ← hall]
    abel
  · rw [hq.submitted, Request.length_entries]

/-- Measuring the beat takes entries from the queue to the pass that begins. -/
theorem effect_measured (c : Conductor σ β) (u : List (Pass β)) :
    Effect ⟨c, u⟩ (.measured c) ⟨c.drain.2, ⟨c.now, c.drain.1⟩ :: u⟩ [] := by
  refine ⟨?_, fun hvalid => hvalid.drainDue _, rfl, .refl _, by simp⟩
  have hsplit := c.queue.drainDue_append c.now
  simp only [Moment.pending, Moment.flying, Event.start?, Event.dropped, Option.toList_none,
    Request.entries, List.append_nil, List.flatMap_cons]
  rw [← Multiset.coe_eq_coe, ← hsplit]
  simp only [← Multiset.coe_add, Conductor.drain]
  abel

/-- Starting an entry takes it from the pass, and queues what the clock requests for it. -/
theorem effect_started {c : Conductor σ β} {u : List (Pass β)} {reading : Float}
    {e : Entry (Task β)} {rest : List (Entry (Task β))}
    (hs : Sound ⟨c, ⟨reading, e :: rest⟩ :: u⟩) :
    ∃ requests, Effect ⟨c, ⟨reading, e :: rest⟩ :: u⟩ (.started reading e c)
        ⟨e.task.carry c, ⟨reading, rest⟩ :: u⟩ requests ∧ CarryRequests c e.task requests := by
  obtain ⟨requests, hq, hp, hbacked, hcarry⟩ := carry_spec hs.linked e.task
    fun token beat htask => hs.finite_rearm (Moment.mem_pending_next c reading e rest u) htask
  refine ⟨requests, ⟨?_, hq.valid, ?_, hp, hbacked⟩, hcarry⟩
  · -- The requested entries join the queue, and the started one leaves its pass.
    have hperm := hq.perm
    simp only [Bool.not_false, List.filter_true] at hperm
    simp only [Moment.pending, Moment.flying, Event.start?, Event.dropped, Option.toList_some,
      List.append_nil, List.flatMap_cons]
    rw [← Multiset.coe_eq_coe] at hperm ⊢
    simp only [← Multiset.coe_add, ← Multiset.cons_coe, List.cons_append] at hperm ⊢
    rw [hperm]
    simp only [← Multiset.singleton_add, ← Multiset.coe_singleton]
    abel
  · rw [hq.submitted, Request.length_entries]

/-- What a step does to entries and points. -/
theorem Step.effect {m m' : Moment σ β} {event : Event σ β} (hs : Sound m)
    (h : Step m event m') :
    ∃ requests, Effect m event m' requests ∧ event.Requests requests := by
  cases h with
  | @call c u op permitted =>
    obtain ⟨requests, hchange, hquiet⟩ := op.change hs.linked permitted
    by_cases hattach : ∃ id action, op = .addAction id action
    · obtain ⟨id, action, rfl⟩ := hattach
      refine ⟨_, effect_of_change hs.valid (c.change_addAction id action) rfl rfl, ?_, ?_⟩
      · exact fun hnot => absurd rfl (hnot id action)
      · rintro id' action' heq
        cases heq
        rfl
    · refine ⟨requests, effect_of_change hs.valid hchange rfl rfl, hquiet, ?_⟩
      exact fun id action heq => absurd ⟨id, action, heq⟩ hattach
  | measure => exact ⟨[], effect_measured _ _, rfl⟩
  | start => exact effect_started hs
  | fail =>
    refine ⟨[], ⟨?_, id, rfl, .refl _, by simp⟩, rfl⟩
    simp [Moment.pending, Moment.flying, Event.start?, Event.dropped, Request.entries,
      Conductor.reportFailure]
  | pass =>
    refine ⟨[], ⟨?_, id, rfl, .refl _, by simp⟩, rfl⟩
    simp [Moment.pending, Moment.flying, Event.start?, Event.dropped, Request.entries]

/-- What is pending after a step was pending before it or is requested. -/
theorem Effect.mem_pending {m m' : Moment σ β} {event : Event σ β} {requests : List (Request β)}
    (h : Effect m event m' requests) {e : Entry (Task β)} (he : e ∈ m'.pending) :
    e ∈ m.pending ∨ e ∈ Request.entries m.clock.queue.submitted requests :=
  List.mem_append.mp (h.pending.mem_iff.mp (List.mem_append_left _ he))

/-- What is under way after a step was pending before it. -/
theorem Step.mem_pending_of_mem_flying {m m' : Moment σ β} {event : Event σ β}
    (h : Step m event m') {e : Entry (Task β)} (he : e ∈ m'.flying) : e ∈ m.pending := by
  cases h with
  | call permitted => exact List.mem_append_right _ he
  | @measure c u =>
    rcases List.mem_append.mp he with he | he
    · refine List.mem_append_left _ ?_
      rw [← c.queue.drainDue_append c.now]
      exact List.mem_append_left _ he
    · exact List.mem_append_right _ he
  | start =>
    refine List.mem_append_right _ ?_
    rcases List.mem_append.mp he with he | he
    · exact List.mem_append_left _ (.tail _ he)
    · exact List.mem_append_right _ he
  | fail => exact List.mem_append_right _ he
  | pass => exact List.mem_append_right _ he

/-- A step leads from a sound moment to a sound one. -/
theorem Step.sound {m m' : Moment σ β} {event : Event σ β} (hs : Sound m) (h : Step m event m') :
    Sound m' := by
  obtain ⟨requests, heffect, -⟩ := h.effect hs
  refine ⟨heffect.points.linked hs.linked, heffect.valid hs.valid, ?_, ?_⟩
  · exact fun e he => hs.finite_pending (h.mem_pending_of_mem_flying he)
  · intro e he token beat htask
    rcases heffect.mem_pending he with he | he
    · obtain ⟨hdue, period, hrecurs⟩ := hs.rearm e he token beat htask
      exact ⟨hdue, period, heffect.points.recurs hrecurs⟩
    · obtain ⟨r, hr, heq⟩ := Request.mem_entries he
      rw [heq] at htask ⊢
      rw [Request.dueBeat_entry]
      exact (heffect.backed r hr).rearm token beat htask

theorem Run.sound {m m' : Moment σ β} {events : List (Event σ β)} (hs : Sound m)
    (h : Run m events m') : Sound m' := by
  induction h with
  | nil => exact hs
  | snoc _ hstep ih => exact hstep.sound ih

/-- An entry that is started in a run is the next one of the innermost pass. -/
theorem Run.before_started {m m' : Moment σ β} {before after : List (Event σ β)} {reading : Float}
    {e : Entry (Task β)} {c : Conductor σ β}
    (h : Run m (before ++ .started reading e c :: after) m') :
    ∃ rest u, Run m before ⟨c, ⟨reading, e :: rest⟩ :: u⟩ := by
  obtain ⟨m₁, hbefore, hrun⟩ := h.split
  obtain ⟨_, hstep, -⟩ := hrun.head
  cases hstep
  exact ⟨_, _, hbefore⟩

/-- No point is lost in a run. -/
theorem Run.has {m m' : Moment σ β} {events : List (Event σ β)} (hs : Sound m)
    (h : Run m events m') {id : PointId} (hid : m.clock.points.Has id) :
    m'.clock.points.Has id := by
  induction h with
  | nil => exact hid
  | snoc hrun hstep ih =>
    obtain ⟨_, heffect, -⟩ := hstep.effect (hrun.sound hs)
    exact heffect.points.has ih

namespace History

variable {events later : List (Event σ β)} {m m' : Moment σ β}

theorem create {config : Config} {time : WallTime} {session : σ} {c : Conductor σ β}
    (h : Conductor.create config time session = .ok c) : History [] ⟨c, []⟩ :=
  ⟨config, time, session, c, h, .nil⟩

theorem append (h : History events m) (h' : Run m later m') : History (events ++ later) m' := by
  obtain ⟨config, time, session, c, hcreate, hrun⟩ := h
  exact ⟨config, time, session, c, hcreate, hrun.append h'⟩

theorem split (h : History (events ++ later) m') : ∃ m, History events m ∧ Run m later m' := by
  obtain ⟨config, time, session, c, hcreate, hrun⟩ := h
  obtain ⟨m, hbefore, hafter⟩ := hrun.split
  exact ⟨m, ⟨config, time, session, c, hcreate, hbefore⟩, hafter⟩

/-- An entry that is started is the next one of the innermost pass. -/
theorem before_started {e : Entry (Task β)} {reading : Float} {c : Conductor σ β}
    (h : History (events ++ .started reading e c :: later) m') :
    ∃ rest u, History events ⟨c, ⟨reading, e :: rest⟩ :: u⟩ := by
  obtain ⟨config, time, session, c₀, hcreate, hrun⟩ := h
  obtain ⟨rest, u, hbefore⟩ := hrun.before_started
  exact ⟨rest, u, config, time, session, c₀, hcreate, hbefore⟩

theorem sound (h : History events m) : Sound m := by
  obtain ⟨config, time, session, c, hcreate, hrun⟩ := h
  exact hrun.sound (sound_create hcreate).1

/-- What holds of every clock that was just created, and is kept by every step of a history, holds of
every history. -/
@[elab_as_elim]
theorem induction {motive : ∀ (events : List (Event σ β)) (m : Moment σ β), History events m → Prop}
    (created : ∀ {config time session} {c : Conductor σ β}
      (h : Conductor.create config time session = .ok c), motive [] ⟨c, []⟩ (create h))
    (stepped : ∀ {events m event m'} (h : History events m) (step : Step m event m'),
      motive events m h → motive (events ++ [event]) m' (h.append (.single step)))
    (h : History events m) : motive events m h := by
  obtain ⟨config, time, session, c, hcreate, hrun⟩ := h
  induction hrun with
  | nil => exact created hcreate
  | snoc hbefore hstep ih => exact stepped ⟨config, time, session, c, hcreate, hbefore⟩ hstep ih

end History

end Cadence
