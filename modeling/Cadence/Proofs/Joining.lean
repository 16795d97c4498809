import Mathlib
import Cadence.Proofs.Run.Announcing
import Cadence.Proofs.Session.Recorded

/-!
# Joining, leaving and talking to the session

A clock joins the session when it starts to follow it and leaves it when it stops, and tells its listeners
so. Joining and leaving take turns, for the session as for the listeners, whatever is refused in between.
While it follows the session the clock proposes every tempo that is set on it, and no other tempo: one
that it has adopted from the session goes not back there.

- `Follower.Talks`: what the listeners hear and what the session is asked, between two states;
- `Step.talks`: what one step says;
- `Attended.recorded`: every run is that of a clock with a recorded session;
- `sync_told_in_turn`: what all of it comes to over a run.
-/

namespace Cadence

variable {σ β : Type}

/-! ## Taking turns -/

/-- The clock follows the session from now on, or does not any more. -/
def Notice.following? : Notice → Option Bool
  | .syncEnabled _ => some true
  | .syncDisabled => some false
  | _ => none

/-- Something is on or off, told when that changes. -/
def switches (before after : Bool) : List Bool := if before = after then [] else [after]

@[simp]
theorem switches_self (b : Bool) : switches b b = [] := if_pos rfl

/-- Something that was on or off is switched some times, each time to what it was not, and then is on or
off. -/
structure InTurn (before : Bool) (switched : List Bool) (after : Bool) : Prop where
  /-- It is never switched to what it is. -/
  turns : (before :: switched).IsChain (· ≠ ·)
  /-- It is what it was switched to last. -/
  last : (before :: switched).getLast? = some after

namespace InTurn

theorem refl (b : Bool) : InTurn b [] b := ⟨.singleton b, rfl⟩

/-- One more change. -/
theorem snoc {before after after' : Bool} {switched : List Bool} (h : InTurn before switched after) :
    InTurn before (switched ++ switches after after') after' := by
  unfold switches
  split_ifs with hsame
  · rwa [List.append_nil, ← hsame]
  · refine ⟨?_, by rw [← List.cons_append, List.getLast?_concat]⟩
    rw [← List.cons_append]
    refine h.turns.append (.singleton _) fun last hlast next hnext => ?_
    -- The last of the old list is what it is now.
    cases h.last.symm.trans hlast
    cases hnext
    exact hsame

end InTurn

/-! ## What the follower says -/

namespace Follower

/-- In between two states a follower says that it starts or stops following the session, joins or leaves
it, and proposes some tempos. -/
structure Talks (f f' : Follower (Recorded σ)) (switched : List Bool) (proposed : List Float) : Prop where
  /-- The listeners are told if it changes. -/
  told : switched = switches f.isEnabled f'.isEnabled
  /-- So is the session, which is proposed the tempos besides. -/
  calls : ∃ calls, f'.session.calls = f.session.calls ++ calls ∧
    calls.filterMap SessionCall.membership? = switched ∧
    calls.filterMap SessionCall.proposed? = proposed

variable {f f' : Follower (Recorded σ)}

/-- Nothing is said. -/
theorem Talks.silent (hcalls : f'.session.calls = f.session.calls)
    (henabled : f'.isEnabled = f.isEnabled) : f.Talks f' [] [] :=
  ⟨by simp [henabled], [], by rw [hcalls, List.append_nil], rfl, rfl⟩

/-- One thing is asked of the session, neither to join or leave it nor to take a tempo. -/
theorem Talks.asks {call : SessionCall} (hcalls : f'.session.calls = f.session.calls ++ [call])
    (henabled : f'.isEnabled = f.isEnabled) (hmembership : call.membership? = none)
    (hproposed : call.proposed? = none) : f.Talks f' [] [] :=
  ⟨by simp [henabled], [call], hcalls, by simp [hmembership], by simp [hproposed]⟩

variable [Transport σ]

/-- A follower that reports its state reads the session. -/
theorem talks_status (f : Follower (Recorded σ)) (p : Playhead) : f.Talks (f.status p).2 [] [] := by
  unfold status
  cases hknown : f.following with
  | none => exact .silent rfl rfl
  | some known => exact .asks rfl (by simp [isEnabled, hknown]) rfl rfl

/-- A follower that is asked to follow the session joins it, unless it is refused or follows it
already. -/
theorem talks_enable (f : Follower (Recorded σ)) (p : Playhead) (offset interval : Float) :
    f.Talks (f.enable p offset interval).follower
      (((f.enable p offset interval).outputs.filterMap Output.notice?).filterMap Notice.following?)
      [] := by
  have hcalls := f.session.calls_connect p.bpm (f.quantum p)
  have henabled := f.enabled p offset interval
  generalize f.enable p offset interval = outcome at henabled ⊢
  cases henabled with
  | refused => exact .silent rfl rfl
  | changed hknown =>
    -- It only reports its state, which is that of a session that is followed.
    exact .asks rfl (by simp [isEnabled, withStatus_following, hknown]) rfl rfl
  | unjoined hidle hconnect =>
    rw [hconnect] at hcalls
    exact .asks hcalls rfl rfl rfl
  | @joined hidle _ joined hconnect peers message =>
    -- The session is read twice: for the peers, and for the state that is answered.
    have hread := joined.calls_capture (f.quantum p)
    have hanswered := (Transport.capture joined (f.quantum p)).2.calls_capture (f.quantum p)
    rw [hconnect] at hcalls
    rw [hread, hcalls, List.append_assoc, List.append_assoc] at hanswered
    refine ⟨?_, _, hanswered, rfl, rfl⟩
    rw [isEnabled, hidle, isEnabled, withStatus_following]
    rfl

theorem talks_disable (f : Follower (Recorded σ)) (p : Playhead) :
    f.Talks (f.disable p).follower
      (((f.disable p).outputs.filterMap Output.notice?).filterMap Notice.following?) [] := by
  unfold disable
  cases hknown : f.following with
  | none => exact .silent rfl rfl
  | some known =>
    exact ⟨by simp [isEnabled, hknown]; rfl, [.disconnect], rfl, rfl, rfl⟩

theorem talks_reconcileIfDue (f : Follower (Recorded σ)) (p : Playhead) :
    f.Talks (f.reconcileIfDue p).follower [] [] := by
  unfold reconcileIfDue
  split_ifs
  · unfold reconcile
    cases hknown : f.following with
    | none => exact .silent rfl rfl
    | some known =>
      simp only
      split
      · exact .asks rfl (by simp [isEnabled, hknown, recordFailure]) rfl rfl
      · unfold adopt
        simp only
        split <;> exact .asks rfl (by simp [isEnabled, hknown]) rfl rfl
  · exact .silent rfl rfl

theorem talks_propose (f : Follower (Recorded σ)) (bpm : Float) :
    f.Talks (f.propose bpm).1 [] (if f.isEnabled then [bpm] else []) := by
  unfold propose
  have hcalls := f.session.calls_propose bpm
  split_ifs
  · split <;> rename_i hpropose <;> rw [hpropose] at hcalls <;>
      exact ⟨(switches_self _).symm, [.propose bpm _], hcalls, rfl, rfl⟩
  · exact .silent rfl rfl

end Follower

/-! ## What a step says -/

variable [Transport σ]

/-- The tempo that somebody sets on the clock while it follows the session. -/
def Event.localTempo? : Event σ β → Option Float
  | .called (.setBpm bpm) c =>
    if (c.setBpm bpm).1.isOk && c.follower.isEnabled then some bpm else none
  | .started _ e c =>
    match e.task with
    | .tempo beat bpm =>
      if (c.changeTempoAt beat bpm).1.isOk && c.follower.isEnabled then some bpm else none
    | _ => none
  | _ => none

omit [Transport σ] in
/-- Events of the clock itself always do. -/
theorem Event.keepsRecord_of_inside {event : Event (Recorded σ) β} (h : event.isOutside = false) :
    event.KeepsRecord := by
  cases event with
  | called op c =>
    cases op with
    | outside => cases h
    | _ => trivial
  | measured | started | failed | passed => trivial

namespace Follower

omit [Transport σ] in
theorem Talks.of_eq {f f' : Follower (Recorded σ)} (h : f' = f) : f.Talks f' [] [] :=
  .silent (by rw [h]) (by rw [h])

end Follower

namespace Conductor

/-- A tempo that is set is proposed while the session is followed, and nothing else is said. -/
theorem talks_publishTempo (c : Conductor (Recorded σ) β) (playhead : Playhead) (bpm beat : Float) :
    c.follower.Talks ({ c with playhead }.publishTempo bpm beat).follower []
      (if c.follower.isEnabled then [bpm] else []) := by
  have hfollower : ({ c with playhead }.publishTempo bpm beat).follower = (c.follower.propose bpm).1 :=
    emitAll_follower _ _
  rw [hfollower]
  exact c.follower.talks_propose bpm

theorem talks_enableSync (c : Conductor (Recorded σ) β) (offset interval : Float) :
    c.follower.Talks (c.enableSync offset interval).2.follower
      (((c.follower.enable c.playhead offset interval).outputs.filterMap Output.notice?).filterMap
        Notice.following?) [] := by
  have hfollower : (c.enableSync offset interval).2.follower =
      (c.follower.enable c.playhead offset interval).follower := by
    rcases c.enableSync_cases offset interval with heq | heq <;> rw [heq] <;>
      exact emitAll_follower _ _
  rw [hfollower]
  exact c.follower.talks_enable c.playhead offset interval

end Conductor

/-- What an operation says. -/
theorem Operation.talks {op : Operation (Recorded σ) β} (c : Conductor (Recorded σ) β)
    (hrecord : (Event.called op c).KeepsRecord) :
    c.follower.Talks (op.apply c).follower ((op.notices c).filterMap Notice.following?)
      (Event.called op c).localTempo?.toList := by
  cases op with
  | outside session audience log => exact .silent hrecord rfl
  | setBpm bpm =>
    simp only [apply, notices, Event.localTempo?]
    rcases c.setBpm_cases bpm with ⟨fault, heq⟩ | ⟨playhead, -, -, heq⟩ <;> rw [heq]
    · exact .silent rfl rfl
    · have htalks := c.talks_publishTempo playhead bpm c.now
      cases henabled : c.follower.isEnabled <;> rw [henabled] at htalks <;> exact htalks
  | enableSync | enableConfiguredSync => exact c.talks_enableSync _ _
  | disableSync =>
    have hfollower : c.disableSync.2.follower = (c.follower.disable c.playhead).follower :=
      Conductor.emitAll_follower _ _
    rw [apply, hfollower]
    exact c.follower.talks_disable c.playhead
  | syncStatus => exact c.follower.talks_status c.playhead
  | reconcile =>
    have hfollower : c.reconcileIfDue.2.follower = (c.follower.reconcileIfDue c.playhead).follower :=
      Conductor.emitAll_follower _ _
    have htalks := c.follower.talks_reconcileIfDue c.playhead
    obtain ⟨-, hnotices⟩ := c.follower.reconcileIfDue_told c.playhead
    rw [apply, hfollower, notices, hnotices]
    cases (c.follower.reconcileIfDue c.playhead).answer.tempo? <;> exact htalks
  | setTime beat =>
    simp only [apply, notices, Conductor.setTime]
    cases c.playhead.setTime beat with
    | error fault => exact .silent rfl rfl
    | ok playhead => exact .silent rfl Option.isSome_map
  | advance micros => exact .of_eq (c.moveTime_follower (·.advanceMicros micros))
  | advanceBy seconds nanoseconds => exact .of_eq (c.moveTime_follower (·.advance seconds nanoseconds))
  | moveTo date => exact .of_eq (c.moveTime_follower (·.moveTo date))
  | playheadBpm | playheadBpmAt | playheadTime =>
    refine .of_eq ?_
    simp only [apply, accepted]
    split <;> rfl
  | shift beats =>
    refine .of_eq ?_
    simp only [apply, Conductor.shift]
    split <;> rfl
  | playheadShift | playheadMeter | setMeter | clear => exact .silent rfl rfl
  | _ => exact .of_eq (untouched c rfl rfl rfl).follower

/-- What the clock says by itself when a task is started. -/
theorem Task.talks (e : Entry (Task β)) (reading : Float) (c : Conductor (Recorded σ) β) :
    c.follower.Talks (e.task.carry c).follower ((e.task.notices c).filterMap Notice.following?)
      (Event.started reading e c).localTempo?.toList := by
  simp only [carry, notices, Event.localTempo?]
  cases e.task with
  | act | actFor => exact .silent rfl rfl
  | rearm token beat =>
    simp only
    split_ifs
    · exact .of_eq (c.rearm_untouched token beat).follower
    · exact .silent rfl rfl
  | tempo beat bpm =>
    simp only
    rcases c.changeTempoAt_cases beat bpm with ⟨fault, heq⟩ | ⟨playhead, -, -, heq⟩ <;> rw [heq]
    · exact .silent rfl rfl
    · have htalks := c.talks_publishTempo playhead bpm beat
      cases henabled : c.follower.isEnabled <;> rw [henabled] at htalks <;> exact htalks

/-- What one step says. -/
theorem Step.talks {m m' : Moment (Recorded σ) β} {event : Event (Recorded σ) β}
    (hstep : Step m event m') (hrecord : event.KeepsRecord) :
    m.clock.follower.Talks m'.clock.follower (event.notices.filterMap Notice.following?)
      event.localTempo?.toList := by
  cases hstep with
  | @call c u op permitted => exact op.talks c hrecord
  | @start c u reading e rest => exact Task.talks e reading c
  | measure | fail | pass => exact .silent rfl rfl

/-! ## Over a run -/

/-- What is said over a run: the listeners and the session are told in turn that the session is followed
and that it is not, and the session is proposed what is set on the clock meanwhile. -/
theorem Run.talks {m m' : Moment (Recorded σ) β} {events : List (Event (Recorded σ) β)}
    (hrun : Run m events m') (hrecord : ∀ event ∈ events, event.KeepsRecord) :
    InTurn m.clock.follower.isEnabled
        ((events.flatMap Event.notices).filterMap Notice.following?)
        m'.clock.follower.isEnabled ∧
      ∃ calls, m'.clock.follower.session.calls = m.clock.follower.session.calls ++ calls ∧
        calls.filterMap SessionCall.membership? =
          (events.flatMap Event.notices).filterMap Notice.following? ∧
        calls.filterMap SessionCall.proposed? = events.filterMap Event.localTempo? := by
  induction hrun with
  | nil => exact ⟨.refl _, [], (List.append_nil _).symm, rfl, rfl⟩
  | @snoc events event m₁ m₂ _ hstep ih =>
    rw [List.forall_mem_append] at hrecord
    obtain ⟨hturns, calls, hcalls, hmembership, hproposed⟩ := ih hrecord.1
    obtain ⟨htold, calls', hcalls', hmembership', hproposed'⟩ :=
      hstep.talks (hrecord.2 event (.head _))
    simp only [List.flatMap_append, List.flatMap_singleton, List.filterMap_append]
    refine ⟨?_, calls ++ calls', ?_, ?_, ?_⟩
    · rw [htold]
      exact hturns.snoc
    · rw [hcalls', hcalls, List.append_assoc]
    · rw [List.filterMap_append, hmembership, hmembership']
    · rw [List.filterMap_append, hproposed, hproposed']
      cases hlocal : event.localTempo? <;> simp [hlocal]

/-- What happens to a clock with any session happens to a clock that keeps a record as well, if the record
is left out. -/
theorem Attended.recorded {config : Config} {session : σ} {events : List (Event σ β)} {m : Moment σ β}
    (h : Attended config session events m) :
    ∃ (events' : List (Event (Recorded σ) β)) (n : Moment (Recorded σ) β),
      Attended config (Recorded.fresh session) events' n ∧ (∀ event ∈ events', event.KeepsRecord) ∧
        events'.map (Event.mapSession Recorded.session) = events ∧
        n.mapSession Recorded.session = m := by
  obtain ⟨time, c, hcreate, hrun, hattended⟩ := h
  have hmap := hcreate.symm.trans
    (Conductor.create_mapSession Recorded.session config time (Recorded.fresh session))
  cases hnew : Conductor.create config time (Recorded.fresh session) with
  | error fault => exact nomatch hnew ▸ hmap
  | ok d =>
    -- The clock is that with the record, if the record is left out, and so is all that follows.
    rw [hnew] at hmap
    obtain rfl := Except.ok.inj hmap
    obtain ⟨events', n, hrun', hkeeps, rfl, rfl⟩ := Run.recorded (n := ⟨d.subscribed, []⟩) hrun
    refine ⟨events', n, ⟨time, d, hnew, hrun', fun event hevent => ?_⟩, hkeeps, rfl, rfl⟩
    have hstays := hattended _ (List.mem_map_of_mem hevent)
    cases event with
    | called op c => cases op <;> exact hstays
    | measured | started | failed | passed => trivial

/-- A listener that was there when the clock was created, and stays, hears in turn that the session is
followed and that it is not, first that it is, and last what is the case. The session is joined and left
in the same turn. It is proposed each tempo that was set on the clock while it was followed, at once or at
a bar line, once and in order, and no other tempo. -/
theorem sync_told_in_turn {config : Config} {session : σ} {events : List (Event (Recorded σ) β)}
    {m : Moment (Recorded σ) β} (h : Attended config (Recorded.fresh session) events m)
    (hrecord : ∀ event ∈ events, event.KeepsRecord) :
    InTurn false ((heard 0 events m).filterMap Notice.following?) m.clock.follower.isEnabled ∧
      m.clock.follower.session.calls.filterMap SessionCall.membership? =
        (heard 0 events m).filterMap Notice.following? ∧
      m.clock.follower.session.calls.filterMap SessionCall.proposed? =
        events.filterMap Event.localTempo? := by
  rw [h.heard_eq]
  obtain ⟨time, c, hcreate, hrun, -⟩ := h
  obtain ⟨-, -, hfollower, -⟩ := Conductor.create_cases hcreate
  obtain ⟨hturns, calls, hcalls, hmembership, hproposed⟩ := hrun.talks hrecord
  have hstart : c.subscribed.follower = ⟨config.sync, Recorded.fresh session, none⟩ := hfollower
  rw [hstart] at hturns hcalls
  rw [hcalls]
  exact ⟨hturns, hmembership, hproposed⟩

/-- A partner that takes no tempo, and a record of what it is asked. -/
def Recorded.stubborn : Recorded Partner := .fresh { accepts := false }

/-- A clock with this partner. -/
def Conductor.unheeded : Conductor (Recorded Partner) Unit :=
  (create {} ⟨0⟩ Recorded.stubborn).toOption.get (by decide +kernel)

/-- The partner is joined, left and joined again. Tempos are set before, at once, and at the next bar line,
and the clock gets past it. -/
def Conductor.joining : List (Operation (Recorded Partner) Unit) :=
  [.setBpm 100.0, .enableSync 0.0 4.0, .disableSync, .disableSync, .enableSync 0.5 2.0, .setBpm 90.0,
    .setBpmAtNextBar 80.0, .moveTo 3000000]

/-- In the next tick the tempo of the partner is adopted, which is not proposed, and then the one that was
set for the bar line, which is. -/
theorem joining_told_in_turn :
    ∃ (events : List (Event (Recorded Partner) Unit)) (m : Moment (Recorded Partner) Unit),
      Attended {} Recorded.stubborn events m ∧
        InTurn false ((heard 0 events m).filterMap Notice.following?) m.clock.follower.isEnabled ∧
        m.clock.follower.session.calls.filterMap SessionCall.membership? = [true, false, true] ∧
        m.clock.follower.session.calls.filterMap SessionCall.proposed? = [90.0, 80.0] := by
  have hcreate : Conductor.create {} ⟨0⟩ Recorded.stubborn = .ok Conductor.unheeded :=
    Conductor.eq_ok_get _ _
  have hinside : (callEvents Conductor.unheeded.subscribed Conductor.joining ++
      LawfulPerformer.still.tickEvents (Conductor.unheeded.subscribed.applyAll Conductor.joining, ())).all
        (!·.isOutside) = true := by
    decide +kernel
  have hattended := Attended.rehearse hcreate (by decide +kernel) rfl hinside
  have hrecord := fun event hevent => Event.keepsRecord_of_inside
    (Bool.not_eq_true' _ ▸ List.all_eq_true.mp hinside event hevent)
  obtain ⟨hturns, hmembership, hproposed⟩ := sync_told_in_turn hattended hrecord
  exact ⟨_, _, hattended, hturns, hmembership.trans (by decide +kernel),
    hproposed.trans (by decide +kernel)⟩

end Cadence
