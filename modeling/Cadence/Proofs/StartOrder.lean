import Mathlib
import Cadence.Proofs.Accounting

/-!
# The order in which entries are started

A pass takes everything that is due off the queue at once and then starts it entry by entry. What is
submitted meanwhile waits for the next pass, also if it is due before the entries that the pass still
has to start. So the order of the queue holds within the batch of a pass and towards what the pass
left behind:

- `Run.taken`: whatever happens while a pass is under way, the entries that it still has to start end
  the batch that it took, and the queue holds what it left or what was submitted later;
- `starts_in_order`: every entry that is pending when a tick starts another one comes after that one,
  unless it was submitted after the batch was taken or belongs to a pass further out;
- `late_loop_overtaken`, `inner_tick_overtakes`: histories in which these two exceptions arise.
-/

namespace Cadence

variable {σ β ω : Type}

/-! ## The batch of a pass -/

/-- A pass under way on a clock, which took its batch from the queue of an earlier clock. -/
structure Pass.Takes (pass : Pass β) (taken c : Conductor σ β) : Prop where
  /-- The beat was read off the earlier clock. -/
  reading : pass.reading = taken.now
  /-- What is still to be started ends the batch. -/
  rest : pass.rest <:+ taken.drain.1
  /-- The queue was in order. -/
  ordered : taken.queue.Ordered
  /-- No name was taken back. -/
  submitted : taken.queue.submitted ≤ c.queue.submitted
  /-- What is queued was left by the pass, or was submitted later. -/
  left : ∀ d ∈ c.queue.entries,
    d ∈ taken.drain.2.queue.entries ∨ taken.queue.submitted ≤ d.id.index

/-- What a pass starts next comes before the rest of its batch and before all that it left. -/
theorem Pass.Takes.before_of_mem {taken c : Conductor σ β} {reading : Float} {e : Entry (Task β)}
    {rest : List (Entry (Task β))} (h : Pass.Takes ⟨reading, e :: rest⟩ taken c)
    {d : Entry (Task β)} (hd : d ∈ c.queue.entries ++ rest) :
    e.before d = true ∨ taken.queue.submitted ≤ d.id.index := by
  -- The batch and what it left made up the queue when the beat was read.
  have hsorted := h.ordered.sorted
  rw [← taken.queue.drainDue_append taken.now, List.pairwise_append] at hsorted
  obtain ⟨hbatch, -, hacross⟩ := hsorted
  have he : e ∈ taken.drain.1 := h.rest.subset (.head _)
  rcases List.mem_append.mp hd with hqueued | hrest
  · rcases h.left d hqueued with hleft | hlater
    · exact .inl (hacross e he d hleft)
    · exact .inr hlater
  · have hpairwise := hbatch.sublist h.rest.sublist
    exact .inl ((List.pairwise_cons.mp hpairwise).1 d hrest)

variable [Transport σ]

/-- A step leaves queued what was queued, or adds entries under new names. -/
theorem Step.mem_queue {m m' : Moment σ β} {event : Event σ β} (hs : Sound m)
    (h : Step m event m') :
    m.clock.queue.submitted ≤ m'.clock.queue.submitted ∧
      ∀ d ∈ m'.clock.queue.entries,
        d ∈ m.clock.queue.entries ∨ m.clock.queue.submitted ≤ d.id.index := by
  cases h with
  | @call c u op permitted =>
    obtain ⟨_, hchange, -⟩ := op.change hs.linked permitted
    obtain ⟨_, hq⟩ := hchange.queue
    exact hq.mem_or_le
  | @measure c u =>
    exact ⟨le_rfl, fun d hd => .inl ((List.dropWhile_sublist _).subset hd)⟩
  | @start c u reading e rest =>
    obtain ⟨_, hq, -⟩ := carry_spec hs.linked e.task fun token beat htask =>
      hs.finite_rearm (Moment.mem_pending_next c reading e rest u) htask
    exact hq.mem_or_le
  | fail => exact ⟨le_rfl, fun d hd => .inl hd⟩
  | pass => exact ⟨le_rfl, fun d hd => .inl hd⟩

/-- A step keeps what a pass took, also if it starts the next entry of the pass. -/
theorem Pass.Takes.step {pass : Pass β} {taken : Conductor σ β} {m m' : Moment σ β}
    {event : Event σ β} (h : pass.Takes taken m.clock) (hs : Sound m) (hstep : Step m event m')
    {rest : List (Entry (Task β))} (hrest : rest <:+ pass.rest) :
    Pass.Takes ⟨pass.reading, rest⟩ taken m'.clock := by
  obtain ⟨hsubmitted, hqueue⟩ := hstep.mem_queue hs
  refine ⟨h.reading, hrest.trans h.rest, h.ordered, h.submitted.trans hsubmitted, fun d hd => ?_⟩
  rcases hqueue d hd with hold | hnew
  · exact h.left d hold
  · exact .inr (h.submitted.trans hnew)

/-- Every pass that was begun in a run took its batch in the run. -/
theorem Run.taken {c₀ : Conductor σ β} {events : List (Event σ β)} {m : Moment σ β}
    (hs : Sound ⟨c₀, []⟩) (h : Run ⟨c₀, []⟩ events m) :
    ∀ pass ∈ m.underway, ∃ taken, .measured taken ∈ events ∧ pass.Takes taken m.clock := by
  induction h with
  | nil => simp
  | @snoc events event m m' hrun hstep ih =>
    have hsound := hrun.sound hs
    -- A pass that was under way before the step is under way after it, perhaps one entry further.
    have hkept {pass : Pass β} (hpass : pass ∈ m.underway) {rest : List (Entry (Task β))}
        (hrest : rest <:+ pass.rest) : ∃ taken, .measured taken ∈ events ++ [event] ∧
          Pass.Takes ⟨pass.reading, rest⟩ taken m'.clock := by
      obtain ⟨taken, hmem, htakes⟩ := ih pass hpass
      exact ⟨taken, List.mem_append_left _ hmem, htakes.step hsound hstep hrest⟩
    intro pass hpass
    cases hstep with
    | call => exact hkept hpass (List.suffix_refl _)
    | @measure c u =>
      rcases List.mem_cons.mp hpass with rfl | hpass
      · refine ⟨c, List.mem_append_right _ (.head _), ⟨rfl, List.suffix_refl _, ?_, le_rfl, ?_⟩⟩
        · exact hsound.valid.toOrdered
        · exact fun d hd => .inl hd
      · exact hkept hpass (List.suffix_refl _)
    | @start c u reading e rest =>
      rcases List.mem_cons.mp hpass with rfl | hpass
      · exact hkept (.head _) (List.suffix_cons e rest)
      · exact hkept (.tail _ hpass) (List.suffix_refl _)
    | fail => exact hkept hpass (List.suffix_refl _)
    | pass => exact hkept (.tail _ hpass) (List.suffix_refl _)

/-! ## Ticks -/

/-- Whenever a tick starts an entry, it does so in a pass of its own, and every other entry that is
accepted and neither run nor dropped comes after it in the order of the queue, was submitted after the
pass took its batch, or belongs to the batch of a pass further out: one of a tick within whose actions
this one runs. -/
theorem starts_in_order (L : LawfulPerformer σ β ω) {events : List (Event σ β)}
    {u : List (Pass β)} {s : Conductor σ β × ω} (h : History events ⟨s.1, u⟩)
    (hheld : ∀ id ∈ L.handles s.2, s.1.points.Has id) {before after : List (Event σ β)}
    {reading : Float} {e : Entry (Task β)} {c : Conductor σ β}
    (hstart : L.tickEvents s = before ++ .started reading e c :: after) :
    ∃ rest outer taken,
      History (events ++ before) ⟨c, ⟨reading, e :: rest⟩ :: (outer ++ u)⟩ ∧
      .measured taken ∈ before ∧ reading = taken.now ∧ e ∈ taken.drain.1 ∧
      ∀ d ∈ (⟨c, ⟨reading, e :: rest⟩ :: (outer ++ u)⟩ : Moment σ β).pending, d ≠ e →
        e.before d = true ∨ taken.queue.submitted ≤ d.id.index ∨
          d ∈ (outer ++ u).flatMap (·.rest) := by
  have hs : Sound ⟨s.1, []⟩ := h.sound.idle
  have hrun := (LawfulPerformer.run_tick (L := L) (u := []) hs hheld).1
  rw [hstart] at hrun
  obtain ⟨rest, outer, hbefore⟩ := hrun.before_started
  obtain ⟨taken, hmeasured, htakes⟩ := hbefore.taken hs _ (.head _)
  refine ⟨rest, outer, taken, h.append (hbefore.frame u), hmeasured, htakes.reading,
    htakes.rest.subset (.head _), fun d hd hne => ?_⟩
  -- A pending entry is queued, in the batch at hand, or in a pass further out.
  rcases List.mem_append.mp hd with hqueued | hflying
  · rcases htakes.before_of_mem (List.mem_append_left rest hqueued) with hafter | hlater
    · exact .inl hafter
    · exact .inr (.inl hlater)
  · rcases List.mem_append.mp hflying with hbatch | houter
    · have hrest : d ∈ rest := (List.mem_cons.mp hbatch).resolve_left hne
      rcases htakes.before_of_mem (List.mem_append_right c.queue.entries hrest) with hafter | hlater
      · exact .inl hafter
      · exact .inr (.inl hlater)
    · exact .inr (.inr houter)

namespace Conductor

/-- A later and an earlier action are queued, and both become due. -/
def twoCues : List (Operation Offline Unit) :=
  [.scheduleAt 2.0 ⟨"later", ()⟩, .scheduleAt 1.0 ⟨"earlier", ()⟩, .advance 1500000]

end Conductor

/-- A tick starts the earlier of two actions while the other one is pending. -/
theorem earlier_cue_comes_first :
    ∃ before reading e c after,
      LawfulPerformer.still.tickEvents (Conductor.offline.applyAll Conductor.twoCues, ()) =
        before ++ .started reading e c :: after ∧ e.task.label = "earlier" ∧
      ∃ rest outer taken,
        History (callEvents Conductor.offline Conductor.twoCues ++ before)
          ⟨c, ⟨reading, e :: rest⟩ :: (outer ++ [])⟩ ∧
        .measured taken ∈ before ∧ reading = taken.now ∧ e ∈ taken.drain.1 ∧
        ∀ d ∈ (⟨c, ⟨reading, e :: rest⟩ :: (outer ++ [])⟩ : Moment Offline Unit).pending, d ≠ e →
          e.before d = true ∨ taken.queue.submitted ≤ d.id.index ∨
            d ∈ (outer ++ []).flatMap (·.rest) := by
  obtain ⟨before, reading, e, c, after, hstart, hlabel⟩ :=
    exists_started (LawfulPerformer.still.tickEvents
      (Conductor.offline.applyAll Conductor.twoCues, ())) (·.task.label = "earlier")
      (by decide +kernel)
  refine ⟨before, reading, e, c, after, hstart, of_decide_eq_true hlabel, ?_⟩
  exact starts_in_order LawfulPerformer.still
    (Conductor.history_offline (by simp [Conductor.twoCues, Operation.Permitted]))
    (fun _ h => by cases h) hstart

/-! ## Entries that are overtaken -/

/-- An entry is started before another one that was accepted by then and comes before it in the order
of the queue. The other one is started later, so it is still pending. -/
def Overtaking (events : List (Event σ β)) : Prop :=
  ∃ before reading e c after, events = before ++ .started reading e c :: after ∧
    ∃ d ∈ startedEntries after, d.id.index < c.queue.submitted ∧ d.before e = true

/-- The events tell of an overtaking. -/
def overtakes : List (Event σ β) → Bool
  | [] => false
  | event :: later =>
    (match event with
      | .started _ e c =>
        (startedEntries later).any fun d => d.id.index < c.queue.submitted && d.before e
      | _ => false) || overtakes later

omit [Transport σ] in
theorem overtaking_of_overtakes {events : List (Event σ β)} (h : overtakes events = true) :
    Overtaking events := by
  induction events with
  | nil => cases h
  | cons event later ih =>
    rcases (Bool.or_eq_true _ _).mp h with hhere | hlater
    · cases event with
      | started reading e c =>
        obtain ⟨d, hd, hbefore⟩ := List.any_eq_true.mp hhere
        obtain ⟨haccepted, hbefore⟩ := (Bool.and_eq_true _ _).mp hbefore
        exact ⟨[], reading, e, c, later, rfl, d, hd, of_decide_eq_true haccepted, hbefore⟩
      | _ => cases hhere
    · obtain ⟨before, reading, e, c, after, rfl, hovertaken⟩ := ih hlater
      exact ⟨event :: before, reading, e, c, after, rfl, hovertaken⟩

/-- A point that recurs every beat is bound to the first beat, an action is queued for beat 2.5, and a
tick comes three beats late. -/
def Conductor.lateLoop : List (Operation Offline Unit) :=
  [.createPoint (.recurring 1.0), .addAction ⟨0⟩ ⟨"loop", ()⟩, .bind ⟨0⟩ 0.0,
    .scheduleAt 2.5 ⟨"cue", ()⟩, .advance 1500000]

/-- The tick starts the action in its first pass, ahead of the loop at beat 1, which was queued in that
same pass. -/
theorem late_loop_overtaken :
    History (callEvents Conductor.offline Conductor.lateLoop)
        ⟨Conductor.offline.applyAll Conductor.lateLoop, []⟩ ∧
      Overtaking (LawfulPerformer.still.tickEvents
        (Conductor.offline.applyAll Conductor.lateLoop, ())) :=
  ⟨Conductor.history_offline (by simp [Conductor.lateLoop, Operation.Permitted]),
    overtaking_of_overtakes (by decide +kernel)⟩

/-- Bodies that call operations and then tick. -/
def LawfulPerformer.ticking (program : β → List (Operation σ β))
    (h : ∀ body, ∀ op ∈ program body, ∀ c, op.Permitted c) : LawfulPerformer σ β Unit where
  perform body s :=
    (.ok (), (Conductor.tick still.perform (s.1.applyAll (program body), ())).2)
  handles _ := []
  trace body s :=
    callEvents s.1 (program body) ++ still.tickEvents (s.1.applyAll (program body), ())
  run {body s} hready := by
    have hcalls := run_applyAll (c := s.1) (u := []) (h body)
    exact hcalls.append (run_tick (L := still) (s := (s.1.applyAll (program body), ()))
      (hcalls.sound hready.sound) (fun _ h => by cases h)).1
  held _ := by simp

/-- Two actions are queued, and both become due. -/
def Conductor.twoHeld : List (Operation Offline Unit) :=
  [.scheduleAt 0.0 ⟨"outer", ()⟩, .scheduleAt 1.0 ⟨"held", ()⟩, .advance 1500000]

/-- An action that queues another one and ticks: the tick within starts what the action queued, ahead of
what the pass around it still has to start. -/
theorem inner_tick_overtakes :
    History (callEvents Conductor.offline Conductor.twoHeld)
        ⟨Conductor.offline.applyAll Conductor.twoHeld, []⟩ ∧
      Overtaking ((LawfulPerformer.ticking (fun _ => [.scheduleAt 2.5 ⟨"inner", ()⟩])
        (by simp [Operation.Permitted])).tickEvents
        (Conductor.offline.applyAll Conductor.twoHeld, ())) :=
  ⟨Conductor.history_offline (by simp [Conductor.twoHeld, Operation.Permitted]),
    overtaking_of_overtakes (by decide +kernel)⟩

end Cadence
