import Mathlib
import Cadence.Proofs.Audience
import Cadence.Proofs.Run.Following
import Cadence.Proofs.Run.Program

/-!
# What the clock announces, and who hears it

Whatever happens to the clock, it announces what concerns its listeners: `Event.notices` is the list of it.
A listener that subscribed when the clock was created and stays subscribed hears all of that, once and in
order, whatever it takes out of its mailbox meanwhile, and whoever else comes and goes.

- `Operation.audience_apply`: what an operation announces;
- `Step.holds`: what one step puts into a mailbox;
- `Attended.heard_eq`: what a listener has heard is what was announced.
-/

namespace Cadence

variable {σ β : Type}

/-! ## What is announced -/

/-- The notice that an output is. -/
def Output.notice? : Output → Option Notice
  | .logged _ => none
  | .announced notice => some notice

namespace Conductor

theorem emitAll_audience (c : Conductor σ β) (outputs : List Output) :
    (c.emitAll outputs).audience = c.audience.sendAll (outputs.filterMap Output.notice?) := by
  induction outputs generalizing c with
  | nil => rfl
  | cons output rest ih =>
    refine (ih (c.emit output)).trans ?_
    cases output <;> rfl

theorem adopt_audience {α : Type} (c : Conductor σ β) (o : Follower.Outcome σ α) :
    (c.adopt o).2.audience = c.audience.sendAll (o.outputs.filterMap Output.notice?) :=
  emitAll_audience _ _

theorem moveTime_audience (c : Conductor σ β) (move : WallTime → WallTime) :
    (c.moveTime move).audience = c.audience := rfl

end Conductor

/-- The beat of a tempo change that takes effect now. -/
theorem Playhead.setBpm_beat {p p' : Playhead} {bpm beat : Float}
    (h : p.setBpm bpm = .ok (beat, p')) : beat = p.now := by
  obtain ⟨_, -, hresult⟩ := bind_ok h
  exact (congrArg Prod.fst (Except.ok.inj hresult)).symm

/-- A tempo that counts as one is accepted. -/
theorem Playhead.setBpm_of_isPositive (p : Playhead) {bpm : Float} (h : isPositive bpm = true) :
    p.setBpm bpm = .ok (p.now, { p with timeline := p.timeline.changeTempo p.time.micros bpm }) := by
  simp only [setBpm, checkTempo, if_pos h]
  rfl

/-- A correction adopts no other tempo than that of the session. -/
theorem Correction.plan?_tempo {rules : CorrectionRules Float} {localBpm localBeat : Float}
    {target : CorrectionTarget Float} {correction : Correction Float}
    (h : plan? rules localBpm localBeat target = some correction) {tempo : Float}
    (htempo : correction.tempo = some tempo) : tempo = target.tempo := by
  obtain ⟨nudge, -, rfl⟩ := Option.map_eq_some_iff.mp h
  simp only at htempo
  split_ifs at htempo
  exact (Option.some.inj htempo).symm

/-- The tempo that a reconciliation adopts. -/
def Reconciliation.tempo? : Reconciliation → Option Float
  | .skipped => none
  | .corrected correction => correction.tempo
  | .unbounded => none

namespace Follower

theorem usable_ok {captured : Except Refusal Snapshot} {remote : Snapshot}
    (h : usable captured = .ok remote) : isPositive remote.tempo = true := by
  obtain ⟨found, -, hresult⟩ := bind_ok h
  split_ifs at hresult with hpositive
  cases hresult
  exact hpositive

/-- A tempo that is adopted is in force from then on, and is announced. -/
theorem adoptTempo_told (p : Playhead) {tempo : Option Float}
    (h : ∀ bpm, tempo = some bpm → isPositive bpm = true) :
    (adoptTempo p tempo).1.bpm = tempo.getD p.bpm ∧
      (adoptTempo p tempo).2.filterMap Output.notice? =
        tempo.toList.map (Notice.tempoChanged · p.now) := by
  cases tempo with
  | none => exact ⟨rfl, rfl⟩
  | some bpm =>
    have hset := Playhead.setBpm_of_isPositive p (h bpm rfl)
    simp only [adoptTempo, hset]
    exact ⟨rfl, rfl⟩

/-- So is one that a correction adopts. -/
theorem applyCorrection_told (p : Playhead) {correction : Correction Float}
    (h : ∀ bpm, correction.tempo = some bpm → isPositive bpm = true) :
    (applyCorrection p correction).1.bpm = correction.tempo.getD p.bpm ∧
      (applyCorrection p correction).2.filterMap Output.notice? =
        correction.tempo.toList.map (Notice.tempoChanged · p.now) := by
  obtain ⟨hbpm, hnotices⟩ := adoptTempo_told p h
  unfold applyCorrection
  simp only
  split_ifs
  · exact ⟨hbpm, hnotices⟩
  · rw [Playhead.shift_bpm, List.filterMap_append, hnotices]
    exact ⟨hbpm, List.append_nil _⟩

end Follower

variable [Transport σ]

namespace Follower

/-- What a reconciliation adopts is in force from then on, and nothing else is announced. -/
theorem reconcileIfDue_told (f : Follower σ) (p : Playhead) :
    (f.reconcileIfDue p).playhead.bpm = (f.reconcileIfDue p).answer.tempo?.getD p.bpm ∧
      (f.reconcileIfDue p).outputs.filterMap Output.notice? =
        (f.reconcileIfDue p).answer.tempo?.toList.map (Notice.tempoChanged · p.now) := by
  unfold reconcileIfDue reconcile
  split_ifs
  · split
    · exact ⟨rfl, rfl⟩
    · simp only
      split
      · simp only [recordFailure]
        split_ifs <;> exact ⟨rfl, rfl⟩
      · rename_i remote hremote
        unfold adopt
        simp only
        split
        · split_ifs <;> exact ⟨rfl, rfl⟩
        · rename_i correction hplan
          -- The tempo is that of the session, which was found to be one.
          have htempo (bpm : Float) (hbpm : correction.tempo = some bpm) : isPositive bpm = true := by
            rw [Correction.plan?_tempo hplan hbpm]
            exact usable_ok hremote
          obtain ⟨hbpm, hnotices⟩ := applyCorrection_told p htempo
          refine ⟨hbpm, ?_⟩
          rw [List.filterMap_append, hnotices]
          split_ifs <;> rfl
  · exact ⟨rfl, rfl⟩

/-- Asking for the session to be followed announces that if it is so from then on, and was not before. -/
theorem notices_enable (f : Follower σ) (p : Playhead) (offset interval : Float) :
    ((f.enable p offset interval).outputs.filterMap Output.notice? = [] ∧
        (f.enable p offset interval).follower.isEnabled = f.isEnabled) ∨
      ∃ peers, (f.enable p offset interval).outputs.filterMap Output.notice? = [.syncEnabled peers] ∧
        f.isEnabled = false ∧ (f.enable p offset interval).follower.isEnabled = true := by
  have henabled := f.enabled p offset interval
  generalize f.enable p offset interval = outcome at henabled ⊢
  cases henabled with
  | refused | unjoined => exact .inl ⟨rfl, rfl⟩
  | changed hknown =>
    -- It was followed before, and nobody is told.
    refine .inl ⟨rfl, ?_⟩
    rw [isEnabled, withStatus_following, isEnabled, hknown]
    rfl
  | joined hidle hinterval hconnect peers =>
    refine .inr ⟨peers, rfl, ?_, ?_⟩
    · rw [isEnabled, hidle]
      rfl
    · rw [isEnabled, withStatus_following]
      rfl

/-- So does leaving the session. -/
theorem notices_disable (f : Follower σ) (p : Playhead) :
    (f.disable p).outputs.filterMap Output.notice? =
      if f.isEnabled then [.syncDisabled] else [] := by
  unfold disable isEnabled
  cases f.following <;> rfl

/-- Passing a tempo on to the session announces nothing. -/
theorem notices_propose (f : Follower σ) (bpm : Float) :
    (f.propose bpm).2.filterMap Output.notice? = [] := by
  unfold propose
  split_ifs
  · split <;> rfl
  · rfl

end Follower

namespace Conductor

theorem publishTempo_audience (c : Conductor σ β) (bpm beat : Float) :
    (c.publishTempo bpm beat).audience = c.audience.sendAll [.tempoChanged bpm beat] := by
  unfold publishTempo announce
  simp only [emitAll_audience, c.follower.notices_propose bpm]
  rfl

/-- A tempo change is refused, or takes effect now and is made known. -/
theorem setBpm_cases (c : Conductor σ β) (bpm : Float) :
    (∃ fault, c.setBpm bpm = (.error fault, c)) ∨
      ∃ playhead : Playhead, playhead.bpm = bpm ∧ playhead.meter = c.playhead.meter ∧
        c.setBpm bpm = (.ok (), { c with playhead }.publishTempo bpm c.now) := by
  unfold setBpm
  cases hset : c.playhead.setBpm bpm with
  | error fault => exact .inl ⟨fault, rfl⟩
  | ok changed =>
    obtain ⟨beat, playhead⟩ := changed
    obtain rfl := Playhead.setBpm_beat hset
    obtain ⟨-, rfl⟩ := Playhead.setBpm_ok hset
    refine .inr ⟨_, ?_, ?_, rfl⟩ <;> rfl

/-- A tempo change at a bar line is refused, or takes effect as of the bar line and is made known. -/
theorem changeTempoAt_cases (c : Conductor σ β) (beat bpm : Float) :
    (∃ fault, c.changeTempoAt beat bpm = (.error fault, c)) ∨
      ∃ playhead : Playhead, playhead.bpm = bpm ∧ playhead.meter = c.playhead.meter ∧
        c.changeTempoAt beat bpm = (.ok (), { c with playhead }.publishTempo bpm beat) := by
  unfold changeTempoAt
  cases hset : c.playhead.setBpmAt beat bpm with
  | error fault => exact .inl ⟨fault, rfl⟩
  | ok playhead =>
    obtain ⟨-, -, rfl⟩ := Playhead.setBpmAt_ok hset
    refine .inr ⟨_, ?_, ?_, rfl⟩ <;> rfl

theorem enableSync_audience (c : Conductor σ β) (offset interval : Float) :
    (c.enableSync offset interval).2.audience = c.audience.sendAll
      ((c.follower.enable c.playhead offset interval).outputs.filterMap Output.notice?) := by
  have hadopt := c.adopt_audience (c.follower.enable c.playhead offset interval)
  rcases c.enableSync_cases offset interval with heq | heq <;> rw [heq] <;> exact hadopt

end Conductor

/-- What is announced once something was accepted. -/
def onAccept (answer : Except Fault Unit) (notice : Notice) : List Notice :=
  match answer with
  | .ok () => [notice]
  | .error _ => []

/-- What an operation announces on a clock. -/
def Operation.notices (op : Operation σ β) (c : Conductor σ β) : List Notice :=
  match op with
  | .setBpm bpm => onAccept (c.setBpm bpm).1 (.tempoChanged bpm c.now)
  | .setMeter meter => [.meterChanged meter]
  | .setTime beat => onAccept (c.setTime beat).1 (.timeSet beat)
  | .clear => [.cleared]
  | .enableSync offset interval =>
    (c.follower.enable c.playhead offset interval).outputs.filterMap Output.notice?
  | .enableConfiguredSync => (c.follower.enable c.playhead c.follower.settings.phaseOffset
      c.follower.settings.resyncInterval).outputs.filterMap Output.notice?
  | .disableSync => (c.follower.disable c.playhead).outputs.filterMap Output.notice?
  | .reconcile => (c.follower.reconcileIfDue c.playhead).outputs.filterMap Output.notice?
  | _ => []

/-- What the clock announces by itself when a task is started. -/
def Task.notices (task : Task β) (c : Conductor σ β) : List Notice :=
  match task with
  | .tempo beat bpm => onAccept (c.changeTempoAt beat bpm).1 (.tempoChanged bpm beat)
  | _ => []

namespace Event

/-- What is announced. -/
def notices : Event σ β → List Notice
  | .called op c => op.notices c
  | .measured _ => []
  | .started _ e c => e.task.notices c
  | .failed e reason _ => [.actionFailed e.task.label e.dueBeat reason]
  | .passed _ => []

end Event

/-- The operation is a change around the clock. -/
def Operation.isOutside : Operation σ β → Bool
  | .outside _ _ _ => true
  | _ => false

/-- An operation of the clock sends its notices to the audience. -/
theorem Operation.audience_apply {op : Operation σ β} (c : Conductor σ β)
    (h : op.isOutside = false) :
    (op.apply c).audience = c.audience.sendAll (op.notices c) := by
  cases op with
  | outside => cases h
  | setBpm bpm =>
    rw [apply, notices]
    rcases c.setBpm_cases bpm with ⟨fault, heq⟩ | ⟨playhead, -, -, heq⟩ <;> rw [heq]
    · rfl
    · exact Conductor.publishTempo_audience _ _ _
  | setTime beat =>
    simp only [apply, notices, Conductor.setTime]
    cases c.playhead.setTime beat <;> rfl
  | enableSync offset interval => exact c.enableSync_audience offset interval
  | enableConfiguredSync => exact c.enableSync_audience _ _
  | disableSync => exact c.adopt_audience _
  | reconcile => exact c.adopt_audience _
  | advance micros => exact c.moveTime_audience (·.advanceMicros micros)
  | advanceBy seconds nanoseconds => exact c.moveTime_audience (·.advance seconds nanoseconds)
  | moveTo date => exact c.moveTime_audience (·.moveTo date)
  | playheadBpm | playheadBpmAt | playheadTime =>
    simp only [apply, accepted]
    split <;> rfl
  | playheadShift | playheadMeter | setMeter | clear | syncStatus => rfl
  | shift beats =>
    simp only [apply, Conductor.shift]
    split <;> rfl
  | _ => exact (untouched c rfl rfl rfl).audience

/-- The clock sends what it announces by itself to the audience. -/
theorem Task.audience_carry (task : Task β) (c : Conductor σ β) :
    (task.carry c).audience = c.audience.sendAll (task.notices c) := by
  cases task with
  | act | actFor => rfl
  | rearm token beat =>
    simp only [carry, notices]
    split_ifs
    · exact (c.rearm_untouched token beat).audience
    · rfl
  | tempo beat bpm =>
    simp only [carry, notices]
    rcases c.changeTempoAt_cases beat bpm with ⟨fault, heq⟩ | ⟨playhead, -, -, heq⟩ <;> rw [heq]
    · rfl
    · exact Conductor.publishTempo_audience _ _ _

/-! ## Who hears it -/

namespace Event

/-- What a listener takes out of its mailbox: what is gone from the front of it. -/
def taken (listener : ℕ) : Event σ β → List Notice
  | .called (.outside _ audience _) c =>
    let before := (c.audience.mailbox? listener).getD []
    let after := (audience.mailbox? listener).getD []
    before.take (before.length - after.length)
  | _ => []

/-- Whatever changes around the clock leaves the listener subscribed, with its mailbox open, and takes
notices out of it from the front only. -/
def Attended (listener : ℕ) : Event σ β → Prop
  | .called (.outside _ audience _) c => ∀ box, c.audience.Holds listener box →
    ∃ rest, audience.Holds listener rest ∧ rest <:+ box
  | _ => True

/-- The event is a change around the clock. -/
def isOutside : Event σ β → Bool
  | .called op _ => op.isOutside
  | _ => false

omit [Transport σ] in
/-- Events of the clock itself do nothing to those who listen. -/
theorem attended_of_inside {event : Event σ β} (h : event.isOutside = false) (listener : ℕ) :
    event.Attended listener := by
  cases event with
  | called op c =>
    cases op with
    | outside => cases h
    | _ => trivial
  | measured | started | failed | passed => trivial

end Event

/-- What a listener has heard: what it took out of its mailbox, and what is in there. -/
def heard (listener : ℕ) (events : List (Event σ β)) (m : Moment σ β) : List Notice :=
  events.flatMap (Event.taken listener) ++ (m.clock.audience.mailbox? listener).getD []

/-- One step puts what it announces at the end of the mailbox, out of which notices may be taken. -/
theorem Step.holds {m m' : Moment σ β} {event : Event σ β} (hstep : Step m event m') {listener : ℕ}
    (hattended : event.Attended listener) {box : List Notice}
    (h : m.clock.audience.Holds listener box) :
    ∃ box', m'.clock.audience.Holds listener box' ∧
      event.taken listener ++ box' = box ++ event.notices := by
  cases hstep with
  | @call c u op permitted =>
    cases op with
    | outside session audience log =>
      -- Nothing is announced, and what is gone from the mailbox has been taken out.
      obtain ⟨rest, hrest, front, rfl⟩ := hattended box h
      refine ⟨rest, hrest, ?_⟩
      simp [Event.taken, Event.notices, Operation.notices, h.mailbox, hrest.mailbox]
    | _ =>
      refine ⟨_, ?_, rfl⟩
      rw [Operation.audience_apply c rfl]
      exact h.sendAll _
  | @start c u reading e rest =>
    refine ⟨_, ?_, rfl⟩
    rw [e.task.audience_carry c]
    exact h.sendAll _
  | fail => exact ⟨_, h.send _, rfl⟩
  | measure | pass => exact ⟨box, h, (List.append_nil box).symm⟩

/-- Over a run a listener that stays hears everything that is announced. -/
theorem Run.holds {m m' : Moment σ β} {events : List (Event σ β)} (hrun : Run m events m')
    {listener : ℕ} (hattended : ∀ event ∈ events, event.Attended listener) {box : List Notice}
    (h : m.clock.audience.Holds listener box) :
    ∃ box', m'.clock.audience.Holds listener box' ∧
      events.flatMap (Event.taken listener) ++ box' = box ++ events.flatMap Event.notices := by
  induction hrun with
  | nil => exact ⟨box, h, (List.append_nil box).symm⟩
  | @snoc events event m₁ m₂ _ hstep ih =>
    rw [List.forall_mem_append] at hattended
    obtain ⟨box₁, hbox₁, heard₁⟩ := ih hattended.1
    obtain ⟨box₂, hbox₂, heard₂⟩ := hstep.holds (hattended.2 event (.head _)) hbox₁
    refine ⟨box₂, hbox₂, ?_⟩
    simp only [List.flatMap_append, List.flatMap_singleton, List.append_assoc, heard₂]
    rw [← List.append_assoc, heard₁, List.append_assoc]

/-- The clock with one more listener. -/
def Conductor.subscribed (c : Conductor σ β) : Conductor σ β :=
  { c with audience := c.audience.subscribe.2 }

/-- What happened to a clock since it was created and somebody subscribed to it, and where it stands. The
listener has number 0, and stays. -/
def Attended (config : Config) (session : σ) (events : List (Event σ β)) (m : Moment σ β) : Prop :=
  ∃ time, ∃ c : Conductor σ β, Conductor.create config time session = .ok c ∧
    Run ⟨c.subscribed, []⟩ events m ∧ ∀ event ∈ events, event.Attended 0

namespace Attended

variable {config : Config} {session : σ} {events events' : List (Event σ β)} {m m' : Moment σ β}

/-- A listener that was there from the start has heard what was announced, once and in order. -/
theorem heard_eq (h : Attended config session events m) :
    heard 0 events m = events.flatMap Event.notices := by
  obtain ⟨time, c, hcreate, hrun, hattended⟩ := h
  obtain ⟨-, -, -, hempty⟩ := Conductor.create_cases hcreate
  have hholds := c.audience.holds_subscribe
  rw [hempty] at hholds
  have hstart : c.subscribed.audience = Audience.empty.subscribe.2 :=
    congrArg (·.subscribe.2) hempty
  obtain ⟨box, hbox, hheard⟩ := hrun.holds hattended (hstart ▸ hholds)
  rw [heard, hbox.mailbox]
  exact hheard

/-- The listener stays over more steps. -/
theorem append (h : Attended config session events m) (hrun : Run m events' m')
    (hattended : ∀ event ∈ events', event.Attended 0) :
    Attended config session (events ++ events') m' := by
  obtain ⟨time, c, hcreate, hbefore, hbefore'⟩ := h
  exact ⟨time, c, hcreate, hbefore.append hrun, List.forall_mem_append.mpr ⟨hbefore', hattended⟩⟩

/-- Subscribing is something that happens around the clock, so the clock is one with a history. -/
theorem sound (h : Attended config session events m) : Sound m := by
  obtain ⟨time, c, hcreate, hrun, -⟩ := h
  have hsubscribe : Step ⟨c, []⟩
      (.called (.outside c.follower.session c.audience.subscribe.2 c.log) c) ⟨c.subscribed, []⟩ :=
    .call trivial
  exact hrun.sound (hsubscribe.sound (History.create hcreate).sound)

/-- Operations are called one after another, and then there is a tick. -/
theorem rehearse {L : LawfulPerformer σ β Unit} {ops : List (Operation σ β)} {time : WallTime}
    {c : Conductor σ β} (hcreate : Conductor.create config time session = .ok c)
    (hops : PermittedAll c.subscribed ops) (hhandles : L.handles () = [])
    (hinside : (callEvents c.subscribed ops ++
      L.tickEvents (c.subscribed.applyAll ops, ())).all (!·.isOutside) = true) :
    Attended config session
      (callEvents c.subscribed ops ++ L.tickEvents (c.subscribed.applyAll ops, ()))
      ⟨(Conductor.tick L.perform (c.subscribed.applyAll ops, ())).2.1, []⟩ := by
  have hattended : ∀ event ∈ callEvents c.subscribed ops ++
      L.tickEvents (c.subscribed.applyAll ops, ()), event.Attended 0 := by
    intro event hevent
    have hnot := List.all_eq_true.mp hinside event hevent
    exact Event.attended_of_inside (Bool.not_eq_true' _ ▸ hnot) 0
  rw [List.forall_mem_append] at hattended
  have hcalls : Attended config session (callEvents c.subscribed ops)
      ⟨c.subscribed.applyAll ops, []⟩ :=
    ⟨time, c, hcreate, run_calls hops, hattended.1⟩
  have htick := (L.run_tick (s := (c.subscribed.applyAll ops, ())) hcalls.sound
    (by simp [hhandles])).1
  exact hcalls.append htick hattended.2

end Attended

end Cadence
