import Mathlib
import Cadence.Proofs.Accounting
import Cadence.Proofs.Run.Playhead
import Cadence.Proofs.Timeline

/-!
# When entries are started

A pass measures the beat once and then starts the entries that are due by then, one after another. What
these do can change the timeline, so the beat that an entry reads may differ from the one that was
measured. This file tells when it can be earlier:

- `started_at_or_after_due`: an entry never reads a beat before its own, as long as time goes forward
  and the timeline is changed only by changes of the tempo, none of which is carried out as of a bar line
  before the beat of the entry, or before the date of that bar line;
- `slower_bar_reads_early`: a tempo change that was queued for a bar line is carried out as of that
  line, so what the same pass starts afterwards can read a beat before its own;
- `coarse_bar_reads_early`: so can an entry of the bar line itself, where beats are so large that they
  are rounded to the bar line before its date.
-/

namespace Cadence

open Number

variable {σ β : Type}

/-- A beat that was reached stays reached when the playhead stays where it is. -/
theorem le_now_of_playhead {c c' : Conductor σ β} {r : Float} (h : r ≤ c.now)
    (heq : c'.playhead = c.playhead) : r ≤ c'.now := by
  unfold Conductor.now at *
  rwa [heq]

variable [Transport σ]

/-- An event that cannot take the beat back behind `r`: time does not go back, and the timeline is
changed at most by a change of the tempo at that time, or by one that is carried out as of a bar line not
before `r` whose date is reached. -/
def Event.Steady (r : Float) : Event σ β → Prop
  | .called op c =>
    c.playhead.time.micros ≤ (op.apply c).playhead.time.micros ∧
      ((∃ bpm, op = .setBpm bpm) ∨ (op.apply c).playhead.timeline = c.playhead.timeline)
  | .started _ e c => ∀ beat bpm, e.task = .tempo beat bpm →
    r ≤ beat ∧ c.playhead.dateAtBeat beat ≤ c.playhead.time.micros
  | _ => True

/-- Calling an operation that leaves the playhead alone is such an event. -/
theorem Event.steady_of_not_movesPlayhead {op : Operation σ β} (c : Conductor σ β)
    (h : op.movesPlayhead = false) (r : Float) : (Event.called op c).Steady r := by
  have heq := op.playhead_apply c h
  refine ⟨?_, .inr (by rw [heq])⟩
  rw [heq]
  exact UInt64.le_refl _

/-- Changing the tempo does not take the beat back. -/
theorem le_now_of_setBpm {c : Conductor σ β} {r : Float} (h : r ≤ c.now) (bpm : Float) :
    r ≤ (c.setBpm bpm).2.now := by
  unfold Conductor.setBpm
  cases hset : c.playhead.setBpm bpm with
  | error fault => exact h
  | ok answer =>
    obtain ⟨beat, playhead⟩ := answer
    obtain ⟨hbpm, heq⟩ := Playhead.setBpm_ok hset
    have hle : c.playhead.now ≤ playhead.now :=
      Playhead.now_le_now_of_changeTempo hbpm (by rw [heq]) (by rw [heq]) (le_iff.mp h).2.1
    refine le_now_of_playhead (c := { c with playhead }) ?_
      (Conductor.publishTempo_playhead _ _ _)
    exact atMost_trans h hle

/-- Carrying a tempo change out does not take the beat back behind the beat that it is for. -/
theorem le_now_of_changeTempoAt {c : Conductor σ β} {r beat : Float} (h : r ≤ c.now)
    (hbeat : r ≤ beat) (hdate : c.playhead.dateAtBeat beat ≤ c.playhead.time.micros) (bpm : Float) :
    r ≤ (c.changeTempoAt beat bpm).2.now := by
  unfold Conductor.changeTempoAt
  cases hset : c.playhead.setBpmAt beat bpm with
  | error fault => exact h
  | ok playhead =>
    refine le_now_of_playhead (c := { c with playhead }) ?_
      (Conductor.publishTempo_playhead _ _ _)
    exact atMost_trans hbeat (Playhead.le_now_of_setBpmAt hset hdate)

/-- A steady step does not take the beat back. -/
theorem Step.le_now {m m' : Moment σ β} {event : Event σ β} (hstep : Step m event m')
    (hbpm : isPositive m.clock.bpm = true) {r : Float} (hsteady : event.Steady r)
    (hbot : place r ≠ ⊥) (h : r ≤ m.clock.now) : r ≤ m'.clock.now := by
  cases hstep with
  | @call c u op permitted =>
    obtain ⟨htime, ⟨bpm, rfl⟩ | htimeline⟩ := hsteady
    · exact le_now_of_setBpm h bpm
    · obtain ⟨-, hnan, hplace⟩ := le_iff.mp h
      have hbot' : place c.playhead.now ≠ ⊥ := fun heq => hbot (le_bot_iff.mp (heq ▸ hplace))
      exact atMost_trans h (Playhead.now_le_now_of_later htime htimeline hbpm hnan hbot')
  | measure => exact h
  | @start c u reading e rest =>
    unfold Task.carry
    split
    · exact h
    · exact h
    · split_ifs
      · exact le_now_of_playhead h (c.rearm_untouched _ _).playhead
      · exact h
    · rename_i beat bpm htask
      obtain ⟨hbeat, hdate⟩ := hsteady beat bpm htask
      exact le_now_of_changeTempoAt h hbeat hdate bpm
  | fail => exact h
  | pass => exact h

/-- Every pass under way measured the beat at some time, and the beat has not gone back since behind a
beat that was reached then, as long as all that happened was steady. -/
theorem History.pass_measured {events : List (Event σ β)} {m : Moment σ β} (h : History events m) :
    ∀ pass ∈ m.underway, ∃ before c during,
      events = before ++ .measured c :: during ∧ pass.reading = c.now ∧
      ∀ r, r ≤ pass.reading → place r ≠ ⊥ → (∀ event ∈ during, event.Steady r) →
        r ≤ m.clock.now := by
  induction h using History.induction with
  | created => simp
  | @stepped events m event m' h hstep ih =>
    -- A pass that goes on was measured at the same time, with one more event since.
    have hold (reading : Float) (hpass : ∃ before c during,
        events = before ++ .measured c :: during ∧ reading = c.now ∧
        ∀ r, r ≤ reading → place r ≠ ⊥ → (∀ event ∈ during, event.Steady r) →
          r ≤ m.clock.now) :
        ∃ before c during, events ++ [event] = before ++ .measured c :: during ∧
          reading = c.now ∧ ∀ r, r ≤ reading → place r ≠ ⊥ →
            (∀ event ∈ during, event.Steady r) → r ≤ m'.clock.now := by
      obtain ⟨before, c, during, rfl, hreading, hle⟩ := hpass
      refine ⟨before, c, during ++ [event], by simp, hreading, fun r hr hbot hsteady => ?_⟩
      refine hstep.le_now h.isPositive_bpm (hsteady event (by simp)) hbot (hle r hr hbot ?_)
      exact fun event' hevent => hsteady event' (List.mem_append_left _ hevent)
    intro pass hpass
    cases hstep with
    | call permitted => exact hold pass.reading (ih pass hpass)
    | @measure c u =>
      rcases List.mem_cons.mp hpass with rfl | hpass
      · exact ⟨events, c, [], rfl, rfl, fun r hr _ _ => hr⟩
      · exact hold pass.reading (ih pass hpass)
    | @start c u reading e rest =>
      rcases List.mem_cons.mp hpass with rfl | hpass
      · exact hold reading (ih ⟨reading, e :: rest⟩ (.head _))
      · exact hold pass.reading (ih pass (.tail _ hpass))
    | fail => exact hold pass.reading (ih pass hpass)
    | pass => exact hold pass.reading (ih pass (.tail _ hpass))

/-- An entry is started in a pass that measured a beat not before its own. If that is a number, and
nothing has happened since that could take the beat back behind that of the entry, then the entry reads a
beat not before its own. -/
theorem started_at_or_after_due {events later : List (Event σ β)} {m : Moment σ β}
    {reading : Float} {e : Entry (Task β)} {c : Conductor σ β}
    (h : History (events ++ .started reading e c :: later) m) :
    ∃ before measuring during, events = before ++ .measured measuring :: during ∧
      reading = measuring.now ∧ ¬ reading < e.dueBeat ∧
      (reading.isNaN = false → (∀ event ∈ during, event.Steady e.dueBeat) →
        e.dueBeat ≤ c.now) := by
  obtain ⟨rest, u, hbefore⟩ := h.before_started
  obtain ⟨before, measuring, during, hevents, hreading, hle⟩ :=
    hbefore.pass_measured _ (.head _)
  have hdue := hbefore.not_early.1 _ (.head _) e (.head _)
  refine ⟨before, measuring, during, hevents, hreading, hdue, fun hnan hsteady => ?_⟩
  have hfinite : e.dueBeat.isFinite = true :=
    hbefore.sound.finite_pending (by simp [Moment.pending, Moment.flying])
  have hbot : place e.dueBeat ≠ ⊥ := by
    rw [place_eq_value hfinite]
    exact EReal.coe_ne_bot _
  exact hle e.dueBeat (le_of_not_lt hnan (isNaN_of_isFinite hfinite) hdue) hbot hsteady

/-- The clock with one action queued at its first beat. -/
def Conductor.cued : Conductor Offline Unit := offline.applyAll [.scheduleAt 0.0 ⟨"cue", ()⟩]

/-- The tempo may change between the measurement and the start of the entry. -/
theorem cued_started_at_or_after_due :
    ∃ e, Conductor.cued.drain.1 = [e] ∧
      e.dueBeat ≤ (Conductor.cued.drain.2.setBpm 60.0).2.now := by
  obtain ⟨e, he⟩ := List.length_eq_one_iff.mp
    (show Conductor.cued.drain.1.length = 1 by decide +kernel)
  have hmeasured := Run.single (Step.measure (c := Conductor.cued) (u := []))
  rw [he] at hmeasured
  have hpermitted : (Operation.setBpm 60.0).Permitted Conductor.cued.drain.2 := trivial
  have hrun := (hmeasured.snoc (.call hpermitted)).snoc .start
  have hhistory := (Conductor.history_offline (by simp [Operation.Permitted])).append hrun
  rw [← List.append_assoc] at hhistory
  obtain ⟨before, measuring, during, hevents, -, -, hle⟩ := started_at_or_after_due hhistory
  refine ⟨e, he, hle (by decide +kernel) fun event hevent => ?_⟩
  have hmem : event ∈ before ++ .measured measuring :: during :=
    List.mem_append_right _ (.tail _ hevent)
  rw [← hevents] at hmem
  simp only [callEvents, List.cons_append, List.nil_append, List.mem_cons, List.not_mem_nil,
    or_false] at hmem
  rcases hmem with rfl | rfl | rfl
  · exact Event.steady_of_not_movesPlayhead _ rfl _
  · trivial
  · exact ⟨by decide +kernel, .inl ⟨60.0, rfl⟩⟩

/-! ## Entries that read an earlier beat -/

/-- A history of calls, followed by a tick that starts some entry while the clock reads a beat before that
of the entry. -/
theorem early_of_any (ops : List (Operation Offline Unit)) (p : Entry (Task Unit) → Bool)
    (h : ∀ op ∈ ops, ∀ c, op.Permitted c)
    (hany : (LawfulPerformer.still.dueEvents (Conductor.offline.applyAll ops, ())).any (fun event =>
      match event with
      | .started _ e c => p e && c.now < e.dueBeat
      | _ => false) = true) :
    History (callEvents Conductor.offline ops ++
        LawfulPerformer.still.dueEvents (Conductor.offline.applyAll ops, ()))
      ⟨(Conductor.runDue LawfulPerformer.still.perform (Conductor.offline.applyAll ops, ())).2.1, []⟩ ∧
      ∃ reading e c, Event.started reading e c ∈
        LawfulPerformer.still.dueEvents (Conductor.offline.applyAll ops, ()) ∧
        p e = true ∧ c.now < e.dueBeat := by
  have hbefore := Conductor.history_offline h
  refine ⟨hbefore.append (run_dueEvents hbefore.sound), ?_⟩
  obtain ⟨event, hmem, hearly⟩ := List.any_eq_true.mp hany
  cases event with
  | started reading e c =>
    obtain ⟨hp, hnow⟩ := (Bool.and_eq_true _ _).mp hearly
    exact ⟨reading, e, c, hmem, hp, of_decide_eq_true hnow⟩
  | _ => cases hearly

/-- Half the tempo is queued for a bar line, an action for a beat shortly after it, and a clock gets to
beat 4.5 before it ticks. -/
def Conductor.slowing : List (Operation Offline Unit) :=
  [.setBpmAtNextBar 60.0, .scheduleAt 4.4 ⟨"probe", ()⟩, .moveTo 2250000]

/-- The only timeline change of this history is a tempo change at a bar line, and its tick starts an
action that reads a beat before its own. -/
theorem slower_bar_reads_early :
    History (callEvents Conductor.offline Conductor.slowing ++
        LawfulPerformer.still.dueEvents (Conductor.offline.applyAll Conductor.slowing, ()))
      ⟨(Conductor.runDue LawfulPerformer.still.perform
        (Conductor.offline.applyAll Conductor.slowing, ())).2.1, []⟩ ∧
      ∃ reading e c, Event.started reading e c ∈
        LawfulPerformer.still.dueEvents (Conductor.offline.applyAll Conductor.slowing, ()) ∧
        c.now < e.dueBeat := by
  obtain ⟨hhistory, reading, e, c, hmem, -, hearly⟩ :=
    early_of_any Conductor.slowing (fun _ => true)
      (by simp [Conductor.slowing, Operation.Permitted]) (by decide +kernel)
  exact ⟨hhistory, reading, e, c, hmem, hearly⟩

/-- A clock gets to beats so large that they are told apart only in quarters. There a faster tempo and an
action are queued for the same bar line. -/
def Conductor.coarsening : List (Operation Offline Unit) :=
  [.setBpm 67553994410557440.0, .moveTo 1000000, .setBpm 60.0, .setBpmAtNextBar 600.0,
    .scheduleAt 1125899906842628.0 ⟨"probe", ()⟩, .moveTo 4900000]

/-- The bar line of a tempo change can be read before its date is reached. Then an action that is due at
that very bar line reads a beat before its own. -/
theorem coarse_bar_reads_early :
    History (callEvents Conductor.offline Conductor.coarsening ++
        LawfulPerformer.still.dueEvents (Conductor.offline.applyAll Conductor.coarsening, ()))
      ⟨(Conductor.runDue LawfulPerformer.still.perform
        (Conductor.offline.applyAll Conductor.coarsening, ())).2.1, []⟩ ∧
      ∃ reading e c, Event.started reading e c ∈
        LawfulPerformer.still.dueEvents (Conductor.offline.applyAll Conductor.coarsening, ()) ∧
        e.dueBeat ≤ (1125899906842628.0 : Float) ∧ c.now < e.dueBeat := by
  obtain ⟨hhistory, reading, e, c, hmem, hbar, hearly⟩ :=
    early_of_any Conductor.coarsening (fun e => e.dueBeat ≤ (1125899906842628.0 : Float))
      (by simp [Conductor.coarsening, Operation.Permitted]) (by decide +kernel)
  exact ⟨hhistory, reading, e, c, hmem, of_decide_eq_true hbar, hearly⟩

end Cadence
