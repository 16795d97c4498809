import Mathlib
import Cadence.Proofs.Run.Program

/-!
# What becomes of entries

Every entry that a clock accepts gets the next name. Over any history, whatever the actions do, the
names that were handed out are accounted for: each is pending, was started, or was dropped, and it is
so once.

- `History.accounted` states this as a permutation of the names;
- `History.not_early`: no entry is started in a pass that measured a beat before its own;
- `entries_run_once` puts this together for a history that goes on with a tick: an entry that is due
  when the tick first reads the beat is started in its first pass, and never again.
-/

namespace Cadence

variable {σ β ω : Type}

/-- The names of requested entries are the next ones. -/
theorem Request.map_index_entries (index : ℕ) (rs : List (Request β)) :
    (Request.entries index rs).map (·.id.index) = List.range' index rs.length := by
  induction rs generalizing index with
  | nil => rfl
  | cons r rest ih =>
    rw [Request.entries, List.map_cons, ih, List.length_cons, List.range'_succ]
    rfl

theorem Request.le_index_of_mem_entries {index : ℕ} {rs : List (Request β)} {e : Entry (Task β)}
    (he : e ∈ Request.entries index rs) : index ≤ e.id.index := by
  have hmem : e.id.index ∈ (Request.entries index rs).map (·.id.index) := List.mem_map_of_mem he
  rw [Request.map_index_entries, List.mem_range'_1] at hmem
  exact hmem.1

@[simp]
theorem startedEntries_append (events events' : List (Event σ β)) :
    startedEntries (events ++ events') = startedEntries events ++ startedEntries events' :=
  List.filterMap_append

theorem startedEntries_singleton (event : Event σ β) :
    startedEntries [event] = event.start?.toList := by
  unfold startedEntries
  cases h : event.start? <;> simp [h]

/-- What was started is told by an event. -/
theorem mem_startedEntries_iff {events : List (Event σ β)} {e : Entry (Task β)} :
    e ∈ startedEntries events ↔ ∃ reading c, Event.started reading e c ∈ events := by
  unfold startedEntries
  rw [List.mem_filterMap]
  constructor
  · rintro ⟨event, hmem, hstart⟩
    cases event with
    | started reading e' c =>
      cases hstart
      exact ⟨reading, c, hmem⟩
    | _ => cases hstart
  · rintro ⟨reading, c, hmem⟩
    exact ⟨_, hmem, rfl⟩

/-- Where an entry of some kind was started, events can be split. -/
theorem exists_started (events : List (Event σ β)) (p : Entry (Task β) → Bool)
    (h : (startedEntries events).any p = true) :
    ∃ before reading e c after, events = before ++ .started reading e c :: after ∧ p e = true := by
  obtain ⟨e, he, hp⟩ := List.any_eq_true.mp h
  obtain ⟨reading, c, hmem⟩ := mem_startedEntries_iff.mp he
  obtain ⟨before, after, hevents⟩ := List.append_of_mem hmem
  exact ⟨before, reading, e, c, after, hevents, hp⟩

variable [Transport σ]

@[simp]
theorem droppedEntries_append (events events' : List (Event σ β)) :
    droppedEntries (events ++ events') = droppedEntries events ++ droppedEntries events' :=
  List.flatMap_append

theorem droppedEntries_singleton (event : Event σ β) : droppedEntries [event] = event.dropped :=
  List.flatMap_singleton ..

/-- What was accepted after a step was accepted before it or is requested. -/
theorem Effect.accepted_perm {m m' : Moment σ β} {event : Event σ β} {requests : List (Request β)}
    (h : Effect m event m' requests) (events : List (Event σ β)) :
    (m'.pending ++ startedEntries (events ++ [event]) ++ droppedEntries (events ++ [event])).Perm
      (m.pending ++ startedEntries events ++ droppedEntries events ++
        Request.entries m.clock.queue.submitted requests) := by
  have hpending := h.pending
  rw [startedEntries_append, droppedEntries_append, startedEntries_singleton,
    droppedEntries_singleton]
  rw [← Multiset.coe_eq_coe] at hpending ⊢
  simp only [← Multiset.coe_add] at hpending ⊢
  calc (m'.pending : Multiset (Entry (Task β))) +
        (↑(startedEntries events) + ↑event.start?.toList) +
        (↑(droppedEntries events) + ↑event.dropped)
      = ↑m'.pending + (↑event.start?.toList + ↑event.dropped) +
        (↑(startedEntries events) + ↑(droppedEntries events)) := by abel
    _ = _ := by
      rw [hpending]
      abel

namespace History

variable {events : List (Event σ β)} {m : Moment σ β}

/-- Every name that was handed out is pending, was started or was dropped, and it is so once. -/
theorem accounted (h : History events m) :
    ((m.pending ++ startedEntries events ++ droppedEntries events).map (·.id.index)).Perm
      (List.range m.clock.queue.submitted) := by
  induction h using History.induction with
  | created hcreate =>
    obtain ⟨-, hqueue, -⟩ := sound_create hcreate
    simp [Moment.pending, Moment.flying, hqueue, Queue.empty, startedEntries, droppedEntries]
  | @stepped events m event m' h hstep ih =>
    obtain ⟨requests, heffect, -⟩ := hstep.effect h.sound
    refine ((heffect.accepted_perm events).map _).trans ?_
    rw [List.map_append, Request.map_index_entries, heffect.submitted, List.range_eq_range',
      ← List.range'_append_1, Nat.zero_add, ← List.range_eq_range']
    exact ih.append_right _

theorem nodup_id (h : History events m) :
    ((m.pending ++ startedEntries events ++ droppedEntries events).map (·.id)).Nodup := by
  have hindex := h.accounted.nodup_iff.mpr List.nodup_range
  refine List.Nodup.of_map EntryId.index ?_
  rw [List.map_map]
  exact hindex

theorem nodup_pending (h : History events m) : m.pending.Nodup := by
  have hids := h.nodup_id
  rw [List.append_assoc, List.map_append] at hids
  exact (List.nodup_append.mp hids).1.of_map _

theorem nodup_startedEntries (h : History events m) :
    ((startedEntries events).map (·.id)).Nodup := by
  refine h.nodup_id.sublist (List.Sublist.map _ ?_)
  rw [List.append_assoc]
  exact (List.sublist_append_left _ _).trans (List.sublist_append_right _ _)

/-- No entry is under way, or was started, in a pass that measured a beat before its own. -/
theorem not_early (h : History events m) :
    (∀ pass ∈ m.underway, ∀ e ∈ pass.rest, ¬ pass.reading < e.dueBeat) ∧
      ∀ reading e c, Event.started reading e c ∈ events → ¬ reading < e.dueBeat := by
  induction h using History.induction with
  | created => simp
  | @stepped events m event m' _ hstep ih =>
    obtain ⟨hunderway, hstarted⟩ := ih
    -- A step that starts nothing leaves only what was started before.
    have hold (hnone : event.start? = none) (reading : Float) (e : Entry (Task β))
        (c : Conductor σ β) (hmem : Event.started reading e c ∈ events ++ [event]) :
        ¬ reading < e.dueBeat := by
      rcases List.mem_append.mp hmem with hmem | hmem
      · exact hstarted reading e c hmem
      · rw [← List.mem_singleton.mp hmem] at hnone
        cases hnone
    cases hstep with
    | call permitted => exact ⟨hunderway, hold rfl⟩
    | @measure c u =>
      refine ⟨?_, hold rfl⟩
      intro pass hpass e he
      rcases List.mem_cons.mp hpass with rfl | hpass
      · exact Queue.not_lt_of_mem_drainDue he
      · exact hunderway pass hpass e he
    | @start c u reading e rest =>
      have hfirst := hunderway _ (.head _)
      refine ⟨?_, ?_⟩
      · intro pass hpass e' he'
        rcases List.mem_cons.mp hpass with rfl | hpass
        · exact hfirst e' (.tail _ he')
        · exact hunderway pass (.tail _ hpass) e' he'
      · intro reading' e' c' hmem
        rcases List.mem_append.mp hmem with hmem | hmem
        · exact hstarted reading' e' c' hmem
        · cases List.mem_singleton.mp hmem
          exact hfirst e (.head _)
    | fail => exact ⟨hunderway, hold rfl⟩
    | pass => exact ⟨fun pass hpass => hunderway pass (.tail _ hpass), hold rfl⟩

/-- An entry that was started is the only one of its name that was. -/
theorem filter_startedEntries (h : History events m) {e : Entry (Task β)}
    (he : e ∈ startedEntries events) : (startedEntries events).filter (·.id = e.id) = [e] := by
  have hnodup := h.nodup_startedEntries
  have hsingle (d : Entry (Task β)) (hd : d ∈ (startedEntries events).filter (·.id = e.id)) :
      d = e := by
    obtain ⟨hd, hid⟩ := List.mem_filter.mp hd
    exact List.inj_on_of_nodup_map hnodup hd he (of_decide_eq_true hid)
  have hmem : e ∈ (startedEntries events).filter (·.id = e.id) :=
    List.mem_filter.mpr ⟨he, decide_eq_true rfl⟩
  have hlength : ((startedEntries events).filter (·.id = e.id)).Nodup := (hnodup.of_map _).filter _
  rw [List.eq_replicate_of_mem hsingle] at hlength hmem ⊢
  have hle := List.nodup_replicate.mp hlength
  have hne : ((startedEntries events).filter (·.id = e.id)).length ≠ 0 := by
    intro hzero
    rw [hzero] at hmem
    cases hmem
  rw [show ((startedEntries events).filter (·.id = e.id)).length = 1 by omega]
  rfl

end History

/-! ## Entries that a pass has taken -/

section Passes

variable {m m' : Moment σ β} {events : List (Event σ β)} {c : Conductor σ β} {e : Entry (Task β)}

/-- What is under way is started, or still under way. -/
theorem Run.mem_flying_or_started (h : Run m events m') (he : e ∈ m.flying) :
    e ∈ m'.flying ∨ e ∈ startedEntries events := by
  induction h with
  | nil => exact .inl he
  | @snoc events event m₁ m₂ hrun hstep ih =>
    rw [startedEntries_append, startedEntries_singleton, List.mem_append]
    rcases ih with hflying | hstarted
    swap
    · exact .inr (.inl hstarted)
    cases hstep with
    | @start c u reading e' rest =>
      rcases List.mem_cons.mp (show e ∈ e' :: (rest ++ u.flatMap (·.rest)) from hflying) with
        rfl | hrest
      · exact .inr (.inr (List.mem_singleton_self _))
      · exact .inl hrest
    | measure => exact .inl (List.mem_append_right _ hflying)
    | _ => exact .inl hflying

/-- Once no pass is under way any more, everything has been started that was pending when a pass measured
the beat, and was due by then. -/
theorem Run.mem_started_of_measured (hs : Sound m) (h : Run m (.measured c :: events) m')
    (hidle : m'.underway = []) (he : e ∈ m.pending) (hdue : e.dueBeat ≤ c.now) :
    e ∈ startedEntries events := by
  obtain ⟨m₁, hstep, hrun⟩ := h.head
  have hflying : e ∈ m₁.flying := by
    cases hstep with
    | @measure c u =>
      rcases List.mem_append.mp he with hqueued | hflying
      · exact List.mem_append_left _ (Queue.mem_drainDue_of_le hs.valid hqueued hdue)
      · exact List.mem_append_right _ hflying
  rcases hrun.mem_flying_or_started hflying with hleft | hstarted
  · rw [Moment.flying, hidle] at hleft
    cases hleft
  · exact hstarted

end Passes

/-! ## Ticks -/

/-- What a history says about the entries that were accepted in it. -/
structure Accounts (events : List (Event σ β)) (m : Moment σ β) : Prop where
  /-- Every name that was handed out belongs to one entry, which is pending, was started or was
  dropped. -/
  names : ((m.pending ++ startedEntries events ++ droppedEntries events).map (·.id.index)).Perm
    (List.range m.clock.queue.submitted)
  /-- No entry was started twice. -/
  once : ((startedEntries events).map (·.id)).Nodup
  /-- No entry was started in a pass that measured a beat before its own. -/
  punctual : ∀ reading e c, Event.started reading e c ∈ events → ¬ reading < e.dueBeat

/-- Every entry that a clock accepts is started at most once and in no pass that measured a beat before
its own, also if actions queue and drop entries or tick themselves. An entry that is queued for a beat
reached when a tick first reads it is started in the first pass of that tick, and has been started once
when the tick is over. -/
theorem entries_run_once (L : LawfulPerformer σ β ω) {events : List (Event σ β)}
    {u : List (Pass β)} {s : Conductor σ β × ω} (h : History events ⟨s.1, u⟩)
    (hheld : ∀ id ∈ L.handles s.2, s.1.points.Has id) :
    History (events ++ L.dueEvents s) ⟨(Conductor.runDue L.perform s).2.1, u⟩ ∧
      Accounts (events ++ L.dueEvents s) ⟨(Conductor.runDue L.perform s).2.1, u⟩ ∧
      ∀ e ∈ s.1.queue.entries, e.dueBeat ≤ s.1.now →
        e ∈ s.1.drain.1 ∧ L.firstPass s <+: L.dueEvents s ∧
        (∃ c, Event.started s.1.now e c ∈ L.firstPass s) ∧
        (startedEntries (events ++ L.dueEvents s)).filter (·.id = e.id) = [e] := by
  have hafter : History (events ++ L.dueEvents s) ⟨(Conductor.runDue L.perform s).2.1, u⟩ :=
    h.append (LawfulPerformer.run_due h.sound hheld).1
  refine ⟨hafter, ⟨hafter.accounted, hafter.nodup_startedEntries, hafter.not_early.2⟩, ?_⟩
  intro e he hdue
  have hdrained : e ∈ s.1.drain.1 := Queue.mem_drainDue_of_le h.sound.valid he hdue
  obtain ⟨c, hc⟩ := LawfulPerformer.started_mem_firstPass (L := L) hdrained
  refine ⟨hdrained, LawfulPerformer.firstPass_prefix_dueEvents, ⟨c, hc⟩, ?_⟩
  refine hafter.filter_startedEntries (mem_startedEntries_iff.mpr ⟨s.1.now, c, ?_⟩)
  exact List.mem_append_right _ (LawfulPerformer.firstPass_prefix_dueEvents.subset hc)

/-- Bodies that queue an echo at the next beat and call the second entry off. -/
def LawfulPerformer.echoing : LawfulPerformer Offline Unit Unit :=
  ofOperations (fun _ => [.schedule .atNextBeat ⟨"echo", ()⟩, .cancelEntry ⟨1⟩]) (fun _ => .ok ())
    (by simp [Operation.Permitted])

/-- One action is queued at the first beat and one for later. -/
def Conductor.cues : List (Operation Offline Unit) :=
  [.scheduleAt 0.0 ⟨"cue", ()⟩, .scheduleAt 8.0 ⟨"late", ()⟩]

/-- A tick starts the action that is due, once. The other one is dropped, and the echo is pending. -/
theorem cued_runs_once :
    let cued := Conductor.offline.applyAll Conductor.cues
    let events := callEvents Conductor.offline Conductor.cues ++ LawfulPerformer.echoing.dueEvents (cued, ())
    let later := (Conductor.runDue LawfulPerformer.echoing.perform (cued, ())).2.1
    (∀ e ∈ cued.queue.entries, e.dueBeat ≤ cued.now → (startedEntries events).filter (·.id = e.id) = [e]) ∧
      (startedEntries events).map (·.id.index) = [0] ∧ (droppedEntries events).map (·.id.index) = [1] ∧
        later.queue.entries.map (·.id.index) = [2] := by
  intro cued events later
  have hall := (entries_run_once LawfulPerformer.echoing (s := (cued, ()))
    (Conductor.history_offline (by simp [Conductor.cues, Operation.Permitted])) (fun _ h => by cases h)).2.2
  exact ⟨fun e he hdue => (hall e he hdue).2.2.2, by decide +kernel, by decide +kernel, by decide +kernel⟩

end Cadence
