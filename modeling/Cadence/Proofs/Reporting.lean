import Mathlib
import Cadence.Proofs.Run.Logging
import Cadence.Proofs.Run.Turn
import Cadence.Script.Basic

/-!
# Failures in a tick

An entry that fails stops nothing: a tick runs the same entries in the same order as it would if no action
failed, as long as the actions do the same otherwise. What failed is made known three times, in the report,
to the listeners and in the log, and each time there is one item for each failure, in order.

- `SameCourse`: two stages that differ at most in what was made known;
- `sameCourse_turns`: the turns of two ticks, one of which has actions that never fail;
- `failuresIn_dueEvents`: the failures in a tick are those of its turns;
- `failures_made_known`: the same turns, and what the report, the listeners and the log say.
-/

namespace Cadence

variable {σ β ω : Type}

/-! ## Clocks that differ in what was made known -/

/-- Two clocks that differ at most in their audience and their log. -/
structure Conductor.Agrees (c c' : Conductor σ β) : Prop where
  /-- They stand at the same beat. -/
  playhead : c'.playhead = c.playhead
  /-- The same is queued. -/
  queue : c'.queue = c.queue
  /-- They have the same points. -/
  points : c'.points = c.points
  /-- They follow the session alike. -/
  follower : c'.follower = c.follower
  /-- The driver loop was sent the same signals. -/
  driver : c'.driver = c.driver

namespace Conductor.Agrees

variable {c c' c'' : Conductor σ β}

theorem refl (c : Conductor σ β) : c.Agrees c := ⟨rfl, rfl, rfl, rfl, rfl⟩

theorem symm (h : c.Agrees c') : c'.Agrees c :=
  ⟨h.playhead.symm, h.queue.symm, h.points.symm, h.follower.symm, h.driver.symm⟩

theorem trans (h : c.Agrees c') (h' : c'.Agrees c'') : c.Agrees c'' :=
  ⟨h'.playhead.trans h.playhead, h'.queue.trans h.queue, h'.points.trans h.points,
    h'.follower.trans h.follower, h'.driver.trans h.driver⟩

theorem reportFailure (c : Conductor σ β) (e : Entry (Task β)) (reason : String) :
    c.Agrees (c.reportFailure e reason) := ⟨rfl, rfl, rfl, rfl, rfl⟩

theorem emitAll (c : Conductor σ β) (outputs : List Output) : c.Agrees (c.emitAll outputs) := by
  induction outputs generalizing c with
  | nil => exact refl c
  | cons output rest ih =>
    refine trans ?_ (ih (c.emit output))
    cases output <;> exact ⟨rfl, rfl, rfl, rfl, rfl⟩

/-- The beat is measured and the queue drained alike. -/
theorem drain (h : c.Agrees c') :
    c'.now = c.now ∧ c'.drain.1 = c.drain.1 ∧ c.drain.2.Agrees c'.drain.2 := by
  have hnow : c'.now = c.now := congrArg Playhead.now h.playhead
  have hdrain : c'.queue.drainDue c'.now = c.queue.drainDue c.now := by rw [h.queue, hnow]
  have hdue := congrArg Prod.fst hdrain
  have hrest := congrArg Prod.snd hdrain
  exact ⟨hnow, hdue, h.playhead, hrest, h.points, h.follower, h.driver⟩

theorem submitBatch (h : c.Agrees c') (batch : List (Float × Task β × PointId)) :
    (c.submitBatch batch).Agrees (c'.submitBatch batch) := by
  rw [Conductor.submitBatch_eq, Conductor.submitBatch_eq, h.queue]
  split_ifs
  · exact h
  · have hdriver := congrArg (Option.map (· ++ [DriverSignal.wake])) h.driver
    exact ⟨h.playhead, rfl, h.points, h.follower, hdriver⟩

theorem rearm (h : c.Agrees c') (token : Token) (beat : Float) :
    (c.rearm token beat).Agrees (c'.rearm token beat) := by
  unfold Conductor.rearm
  rw [h.points]
  have hadopted : (c.adoptResolved (c.points.rearm token.point beat token)).Agrees
      (c'.adoptResolved (c.points.rearm token.point beat token)) :=
    ⟨h.playhead, h.queue, rfl, h.follower, h.driver⟩
  simp only
  split
  · exact hadopted
  · exact hadopted.submitBatch _

variable [Transport σ]

theorem publishTempo (c : Conductor σ β) (bpm beat : Float) :
    ({ c with follower := (c.follower.propose bpm).1 } : Conductor σ β).Agrees
      (c.publishTempo bpm beat) := by
  have hemitted := emitAll
    { c.say .info s!"Tempo set to {Number.fixed 2 bpm} bpm at beat {Number.fixed 3 beat}" with
      follower := (c.follower.propose bpm).1 } (c.follower.propose bpm).2
  exact ⟨hemitted.playhead, hemitted.queue, hemitted.points, hemitted.follower, hemitted.driver⟩

/-- A tempo change is accepted or refused alike. -/
theorem changeTempoAt (h : c.Agrees c') (beat bpm : Float) :
    (c'.changeTempoAt beat bpm).1 = (c.changeTempoAt beat bpm).1 ∧
      (c.changeTempoAt beat bpm).2.Agrees (c'.changeTempoAt beat bpm).2 := by
  unfold Conductor.changeTempoAt
  rw [h.playhead]
  split
  · exact ⟨rfl, h⟩
  · rename_i playhead _
    refine ⟨rfl, (publishTempo { c with playhead } bpm beat).symm.trans (trans ?_
      (publishTempo { c' with playhead } bpm beat))⟩
    exact ⟨rfl, h.queue, h.points, congrArg (fun f => (Follower.propose f bpm).1) h.follower, h.driver⟩

end Conductor.Agrees

/-! ## The same turns -/

/-- Two stages of a tick whose clocks differ at most in what was made known, and at which the states of the
program are related. -/
structure SameCourse (same : ω → ω → Prop) (s s' : Conductor σ β × ω) : Prop where
  /-- The clocks differ at most in what was made known. -/
  clock : s.1.Agrees s'.1
  /-- The states of the program are related. -/
  around : same s.2 s'.2

section SameTurns

variable [Transport σ] {P Q : Performer σ β ω} {same : ω → ω → Prop} {s s' : Conductor σ β × ω}

namespace SameCourse

/-- Carrying out a task keeps the stages alike, if the bodies of actions do. -/
theorem runTask (hsame : ∀ body s s', SameCourse same s s' → SameCourse same (P body s).2 (Q body s').2)
    (h : SameCourse same s s') (task : Task β) :
    SameCourse same (Conductor.runTask P task s).2 (Conductor.runTask Q task s').2 := by
  cases task with
  | act action => exact hsame action.body s s' h
  | actFor token action =>
    simp only [Conductor.runTask, h.clock.points]
    split_ifs
    · exact hsame action.body s s' h
    · exact h
  | rearm token beat =>
    simp only [Conductor.runTask, h.clock.points]
    split_ifs
    · exact ⟨h.clock.rearm token beat, h.around⟩
    · exact h
  | tempo beat bpm =>
    rw [Conductor.runTask_tempo, Conductor.runTask_tempo]
    exact ⟨(h.clock.changeTempoAt beat bpm).2, h.around⟩

/-- Making a failure known keeps them alike. -/
theorem next (hsame : ∀ body s s', SameCourse same s s' → SameCourse same (P body s).2 (Q body s').2)
    (h : SameCourse same s s') (e : Entry (Task β)) :
    SameCourse same (Turn.next P ⟨e, s⟩) (Turn.next Q ⟨e, s'⟩) := by
  -- Whichever performer it is: a failure goes to the audience and the log only.
  have hagrees (R : Performer σ β ω) (r : Conductor σ β × ω) :
      (Conductor.runTask R e.task r).2.1.Agrees (Turn.next R ⟨e, r⟩).1 ∧
        (Turn.next R ⟨e, r⟩).2 = (Conductor.runTask R e.task r).2.2 := by
    unfold Turn.next
    cases (Turn.mk e r).reason? R with
    | none => exact ⟨.refl _, rfl⟩
    | some reason => exact ⟨.reportFailure _ e reason, rfl⟩
  have htask := h.runTask hsame e.task
  refine ⟨(hagrees P s).1.symm.trans (htask.clock.trans (hagrees Q s').1), ?_⟩
  rw [(hagrees P s).2, (hagrees Q s').2]
  exact htask.around

omit [Transport σ] in
/-- Draining the queue keeps them alike, and takes the same entries. -/
theorem drain (h : SameCourse same s s') :
    s'.1.drain.1 = s.1.drain.1 ∧ SameCourse same (s.1.drain.2, s.2) (s'.1.drain.2, s'.2) :=
  ⟨h.clock.drain.2.1, h.clock.drain.2.2, h.around⟩

end SameCourse

/-- Two turns that run the same entry at stages that are alike. -/
def Turn.Alike (same : ω → ω → Prop) (t t' : Turn σ β ω) : Prop :=
  t.entry = t'.entry ∧ SameCourse same t.stage t'.stage

open Conductor

theorem sameCourse_batch
    (hsame : ∀ body s s', SameCourse same s s' → SameCourse same (P body s).2 (Q body s').2)
    (due : List (Entry (Task β))) (h : SameCourse same s s') :
    List.Forall₂ (Turn.Alike same) (batchTurns P due s) (batchTurns Q due s') ∧
      SameCourse same (batchEnd P due s) (batchEnd Q due s') := by
  -- The stages stay alike from entry to entry, so the induction is over all pairs of them.
  induction due generalizing s s' with
  | nil => exact ⟨.nil, h⟩
  | cons e rest ih =>
    obtain ⟨hturns, hend⟩ := ih (h.next hsame e)
    exact ⟨.cons ⟨rfl, h⟩ hturns, hend⟩

theorem sameCourse_pass
    (hsame : ∀ body s s', SameCourse same s s' → SameCourse same (P body s).2 (Q body s').2)
    (h : SameCourse same s s') :
    List.Forall₂ (Turn.Alike same) (passTurns P s) (passTurns Q s') ∧
      SameCourse same (passEnd P s) (passEnd Q s') := by
  obtain ⟨hdue, hdrained⟩ := h.drain
  rw [passTurns, passTurns, passEnd, passEnd, hdue]
  exact sameCourse_batch hsame _ hdrained

/-- The passes of two ticks go the same way. -/
theorem sameCourse_passes
    (hsame : ∀ body s s', SameCourse same s s' → SameCourse same (P body s).2 (Q body s').2)
    (n : ℕ) (h : SameCourse same s s') :
    List.Forall₂ (SameCourse same) (passes P n s) (passes Q n s') ∧
      SameCourse same ((passEnd P)^[n] s) ((passEnd Q)^[n] s') := by
  induction n generalizing s s' with
  | zero => exact ⟨.nil, h⟩
  | succ n ih =>
    obtain ⟨hpasses, hend⟩ := ih (sameCourse_pass hsame h).2
    refine ⟨?_, hend⟩
    rw [passes, passes, h.drain.1]
    refine .cons h ?_
    split_ifs
    · exact .nil
    · exact hpasses

/-- Two ticks with actions that do the same take the same turns, report the same beat and leave the same,
but for what they make known. -/
theorem sameCourse_turns
    (hsame : ∀ body s s', SameCourse same s s' → SameCourse same (P body s).2 (Q body s').2)
    (h : SameCourse same s s') :
    List.Forall₂ (Turn.Alike same) (turns P TickReport.maxPasses s) (turns Q TickReport.maxPasses s') ∧
      (runDue Q s').1.beat = (runDue P s).1.beat ∧
      SameCourse same (runDue P s).2 (runDue Q s').2 := by
  obtain ⟨hpasses, hend⟩ := sameCourse_passes hsame TickReport.maxPasses h
  refine ⟨?_, ?_, ?_⟩
  · exact List.rel_flatMap hpasses fun _ _ hpass => (sameCourse_pass hsame hpass).1
  · -- The beat of a report is the last one that a pass measured.
    have hnow : List.Forall₂ (fun a b : Float => b = a)
        ((passes P TickReport.maxPasses s).map (·.1.now))
        ((passes Q TickReport.maxPasses s').map (·.1.now)) :=
      List.rel_map (fun _ _ hstage => hstage.clock.drain.1) hpasses
    have hbeats : (passes Q TickReport.maxPasses s').map (·.1.now) =
        (passes P TickReport.maxPasses s).map (·.1.now) :=
      (congrFun₂ List.forall₂_eq_eq_eq _ _).mp hnow.flip
    rw [runDue_beat, runDue_beat, ← List.getLast?_map, ← List.getLast?_map, hbeats]
  · rw [runDue_snd, runDue_snd]
    exact hend

end SameTurns

/-! ## Why an entry fails -/

/-- The reason that is given for the end of an action: the chain of its errors, or that it broke off, with
what it said. -/
def Script.Ending.reason? : Script.Ending → Option String
  | .success => none
  | .refused chain => some (": ".intercalate chain)
  | .panicked none => some "panicked"
  | .panicked (some message) => some ("panicked: " ++ message)

/-- The task is a tempo change at a bar line. -/
def Task.isTempo : Task β → Bool
  | .tempo _ _ => true
  | _ => false

variable [Transport σ]

/-- Why an entry fails, if its actions end in a given way: for the reason that its action ends, or because
its tempo is refused. -/
def Turn.cause? (ending : β → Conductor σ β × ω → Script.Ending) (t : Turn σ β ω) : Option String :=
  match t.entry.task with
  | .act action => (ending action.body t.stage).reason?
  | .actFor token action =>
    if t.stage.1.points.isLive token then (ending action.body t.stage).reason? else none
  | .rearm _ _ => none
  | .tempo beat bpm =>
    match (t.stage.1.changeTempoAt beat bpm).1 with
    | .ok () => none
    | .error fault => some fault.message

/-- The entries that failed in some turns, with the reasons. -/
def failedIn (ending : β → Conductor σ β × ω → Script.Ending) (turns : List (Turn σ β ω)) :
    List (Entry (Task β) × String) :=
  turns.filterMap fun t => (t.cause? ending).map (t.entry, ·)

namespace Turn

variable {P : Performer σ β ω} {ending : β → Conductor σ β × ω → Script.Ending}

/-- An entry fails for the reason that its action ends, or because its tempo is refused. -/
theorem reason?_eq (hending : ∀ body s, (P body s).1 = (ending body s).result) (t : Turn σ β ω) :
    t.reason? P = t.cause? ending := by
  have hbody (body : β) (s : Conductor σ β × ω) :
      Conductor.reasonOf (P body s).1 = (ending body s).reason? := by
    rw [hending]
    rcases ending body s with _ | ⟨_ | message⟩ | chain <;> rfl
  unfold reason? cause?
  cases t.entry.task with
  | act action => exact hbody action.body t.stage
  | actFor token action =>
    simp only [Conductor.runTask]
    split_ifs
    · exact hbody action.body t.stage
    · rfl
  | rearm token beat =>
    simp only [Conductor.runTask]
    split_ifs <;> rfl
  | tempo beat bpm =>
    rw [Conductor.runTask_tempo]
    cases hanswer : (t.stage.1.changeTempoAt beat bpm).1 <;>
      simp [Conductor.answerOf, Conductor.reasonOf, hanswer]

/-- Where no action fails, nothing does but a tempo change. -/
theorem isTempo_of_reason? (hnever : ∀ body s, (P body s).1 = .ok ()) {t : Turn σ β ω}
    (h : t.reason? P ≠ none) : t.entry.task.isTempo = true := by
  have hcause : t.reason? P = t.cause? fun _ _ => .success := reason?_eq hnever t
  rw [hcause, cause?] at h
  cases htask : t.entry.task with
  | tempo beat bpm => rfl
  | act action => simp [htask, Script.Ending.reason?] at h
  | actFor token action => simp [htask, Script.Ending.reason?] at h
  | rearm token beat => simp [htask] at h

end Turn

/-! ## The failures in a run -/

/-- The failure that an event tells of. -/
def Event.failure? : Event σ β → Option (Entry (Task β) × String)
  | .failed e reason _ => some (e, reason)
  | _ => none

/-- The entries that failed, with the reasons. -/
def failuresIn (events : List (Event σ β)) : List (Entry (Task β) × String) :=
  events.filterMap Event.failure?

/-- The notice that an entry failed. -/
def failureNotice (e : Entry (Task β)) (reason : String) : Notice :=
  .actionFailed e.task.label e.dueBeat reason

/-- The notice says that an entry failed. -/
def Notice.isFailure : Notice → Bool
  | .actionFailed _ _ _ => true
  | _ => false

/-- The operations of the clock announce no failure. -/
theorem Operation.isFailure_notices (op : Operation σ β) (c : Conductor σ β) :
    (op.notices c).filter Notice.isFailure = [] := by
  have henable (offset interval : Float) :
      ((c.follower.enable c.playhead offset interval).outputs.filterMap Output.notice?).filter
        Notice.isFailure = [] := by
    rcases c.follower.notices_enable c.playhead offset interval with ⟨hnone, -⟩ | ⟨peers, hone, -⟩
    · rw [hnone]
      rfl
    · rw [hone]
      rfl
  cases op with
  | setBpm | setTime =>
    simp only [notices, onAccept]
    split <;> rfl
  | enableSync offset interval => exact henable offset interval
  | enableConfiguredSync => exact henable _ _
  | disableSync =>
    rw [notices, c.follower.notices_disable]
    split_ifs <;> rfl
  | reconcile =>
    rw [notices, (c.follower.reconcileIfDue_told c.playhead).2]
    cases (c.follower.reconcileIfDue c.playhead).answer.tempo? <;> rfl
  | _ => rfl

theorem Task.isFailure_notices (task : Task β) (c : Conductor σ β) :
    (task.notices c).filter Notice.isFailure = [] := by
  cases task with
  | tempo beat bpm =>
    unfold Task.notices onAccept
    simp only
    split <;> rfl
  | _ => rfl

/-- The listeners are told of just the failures, each once and in order. -/
theorem filter_notices (events : List (Event σ β)) :
    (events.flatMap Event.notices).filter Notice.isFailure =
      (failuresIn events).map fun f => failureNotice f.1 f.2 := by
  induction events with
  | nil => rfl
  | cons event rest ih =>
    rw [List.flatMap_cons, List.filter_append, ih]
    cases event with
    | called op c => rw [Event.notices, op.isFailure_notices c]; rfl
    | started reading e c => rw [Event.notices, e.task.isFailure_notices c]; rfl
    | measured | passed | failed => rfl

omit [Transport σ] in
/-- The clock logs just the failures, each once and in order. -/
theorem flatMap_errorLines (events : List (Event σ β)) :
    (events.filter (!·.isOutside)).flatMap Event.errorLines =
      (failuresIn events).map fun f => errorLine f.1 f.2 := by
  induction events with
  | nil => rfl
  | cons event rest ih =>
    rw [failuresIn, List.filterMap_cons]
    cases event with
    | called op c => cases op <;> exact ih
    | failed e reason c => exact congrArg (errorLine e reason :: ·) ih
    | measured | started | passed => exact ih

namespace LawfulPerformer

open Conductor

variable {L : LawfulPerformer σ β ω}

/-- The failures in a turn are those within its action, and its own. -/
theorem failuresIn_turnEvents (reading : Float) (t : Turn σ β ω) :
    failuresIn (L.turnEvents reading t) =
      failuresIn (L.taskEvents t.entry.task t.stage) ++
        ((t.reason? L.perform).map (t.entry, ·)).toList := by
  rw [turnEvents, entryEvents, failuresIn, List.cons_append, List.filterMap_cons_none rfl,
    List.filterMap_append]
  refine congrArg _ ?_
  -- What is left is whether the entry itself failed.
  unfold Turn.reason?
  rcases runTask L.perform t.entry.task t.stage with ⟨_ | _, s'⟩ <;> rfl

/-- The failures in a tick are those of its turns, in order. -/
theorem failuresIn_dueEvents (s : Conductor σ β × ω) :
    failuresIn (L.dueEvents s) = (turns L.perform TickReport.maxPasses s).flatMap fun t =>
      failuresIn (L.taskEvents t.entry.task t.stage) ++
        ((t.reason? L.perform).map (t.entry, ·)).toList := by
  have hpass (s : Conductor σ β × ω) : failuresIn (L.firstPass s) =
      (passTurns L.perform s).flatMap fun t => failuresIn (L.turnEvents s.1.now t) := by
    rw [firstPass_eq, failuresIn, List.cons_append, List.filterMap_cons_none rfl,
      List.filterMap_append, List.filterMap_flatMap]
    exact List.append_nil _
  rw [dueEvents_eq, failuresIn, List.filterMap_flatMap, turns, List.flatMap_assoc]
  refine List.flatMap_congr fun pass _ => (hpass pass).trans ?_
  exact List.flatMap_congr fun t _ => failuresIn_turnEvents _ _

end LawfulPerformer

/-! ## What is made known -/

open Conductor

/-- What a tick makes known of the entries that fail in it, if their actions end in a given way. -/
structure MakesKnown (L : LawfulPerformer σ β ω) (ending : β → Conductor σ β × ω → Script.Ending)
    (s : Conductor σ β × ω) : Prop where
  /-- The successes are counted. -/
  fired : (runDue L.perform s).1.fired =
    (turns L.perform TickReport.maxPasses s).countP fun t => t.cause? ending = none
  /-- The report lists the failures in order. -/
  failures : (runDue L.perform s).1.failures =
    (failedIn ending (turns L.perform TickReport.maxPasses s)).map fun f =>
      .actionFailed f.1.task.label f.1.dueBeat f.2
  /-- The failures that happen are those of the turns in order, and within a turn those of ticks that its
  action makes. -/
  happened : failuresIn (L.dueEvents s) = (turns L.perform TickReport.maxPasses s).flatMap fun t =>
    failuresIn (L.taskEvents t.entry.task t.stage) ++ ((t.cause? ending).map (t.entry, ·)).toList
  /-- So if nothing fails in a tick that an action makes, they are those that the report lists. -/
  alone : (∀ t ∈ turns L.perform TickReport.maxPasses s,
      failuresIn (L.taskEvents t.entry.task t.stage) = []) →
    failuresIn (L.dueEvents s) = failedIn ending (turns L.perform TickReport.maxPasses s)
  /-- The notices that something failed are one for each failure. -/
  announced : ((L.dueEvents s).flatMap Event.notices).filter Notice.isFailure =
    (failuresIn (L.dueEvents s)).map fun f => .actionFailed f.1.task.label f.1.dueBeat f.2
  /-- A listener that stays hears what is announced, once and in order. -/
  heard : ∀ listener box, s.1.audience.Holds listener box →
    (∀ event ∈ L.dueEvents s, event.Attended listener) →
    ∃ box', (runDue L.perform s).2.1.audience.Holds listener box' ∧
      (L.dueEvents s).flatMap (Event.taken listener) ++ box' =
        box ++ (L.dueEvents s).flatMap Event.notices
  /-- The errors that the clock logs are one for each failure, with the owner. -/
  written : ((L.dueEvents s).filter (!·.isOutside)).flatMap Event.errorLines =
    (failuresIn (L.dueEvents s)).map fun f => ⟨.error, some f.1.dueBeat,
      (Fault.actionFailed f.1.task.label f.1.dueBeat f.2).message ++
        (f.1.owner.map fun id => s!" (owned by {id.text})").getD ""⟩
  /-- They are found in the log at any minimum severity that lets errors through, with those that somebody
  else writes. -/
  logged : ∀ minimum, minimum ≠ .fatal → (∀ event ∈ L.dueEvents s, event.KeepsErrors) →
    Log.errors ((runDue L.perform s).2.1.log.filter (·.passes minimum)) =
      Log.errors (s.1.log.filter (·.passes minimum)) ++ (L.dueEvents s).flatMap Event.errorLines

theorem makesKnown {L : LawfulPerformer σ β ω} {ending : β → Conductor σ β × ω → Script.Ending}
    (hending : ∀ body s, (L.perform body s).1 = (ending body s).result) {u : List (Pass β)}
    {s : Conductor σ β × ω} (hs : Sound ⟨s.1, u⟩) (hheld : ∀ id ∈ L.handles s.2, s.1.points.Has id) :
    MakesKnown L ending s := by
  have hrun := (LawfulPerformer.run_due hs hheld).1
  have hcause : Turn.reason? L.perform = Turn.cause? ending := funext (Turn.reason?_eq hending)
  have hhappened := LawfulPerformer.failuresIn_dueEvents (L := L) s
  simp only [hcause] at hhappened
  refine
    { fired := ?_, failures := ?_, happened := hhappened, alone := fun hnone => ?_,
      announced := filter_notices _, heard := fun _ _ hholds hstays => hrun.holds hstays hholds,
      written := flatMap_errorLines _, logged := fun minimum hminimum hkeeps => ?_ }
  · rw [runDue_fired, hcause]
  · rw [runDue_failures, failedIn, List.map_filterMap]
    refine List.filterMap_congr fun t _ => ?_
    rw [Turn.fault?, hcause]
    cases t.cause? ending <;> rfl
  · rw [hhappened, failedIn, List.filterMap_eq_flatMap_toList]
    refine List.flatMap_congr fun t ht => ?_
    rw [hnone t ht, List.nil_append]
  · rw [Log.errors_filter_passes hminimum, Log.errors_filter_passes hminimum]
    exact hrun.errors_eq hkeeps

/-- Failing actions stop nothing and silence nothing. A tick runs the same entries in the same order as with
actions that do the same and never fail, reports the same beat and leaves the same clock but for what it
made known. The successes are counted, and in the report, in the notices and in the log there is one item
for each failure, in the order in which they happened. -/
theorem failures_made_known (L : LawfulPerformer σ β ω)
    {ending : β → Conductor σ β × ω → Script.Ending}
    (hending : ∀ body s, (L.perform body s).1 = (ending body s).result) {Q : Performer σ β ω}
    (hnever : ∀ body s, (Q body s).1 = .ok ()) {same : ω → ω → Prop}
    (hsame : ∀ body s s', SameCourse same s s' → SameCourse same (L.perform body s).2 (Q body s').2)
    {events : List (Event σ β)} {u : List (Pass β)} {s s' : Conductor σ β × ω}
    (h : History events ⟨s.1, u⟩) (hheld : ∀ id ∈ L.handles s.2, s.1.points.Has id)
    (hstart : SameCourse same s s') :
    List.Forall₂ (Turn.Alike same) (turns L.perform TickReport.maxPasses s)
        (turns Q TickReport.maxPasses s') ∧
      (turns L.perform TickReport.maxPasses s).map Turn.entry =
        (turns Q TickReport.maxPasses s').map Turn.entry ∧
      (∀ t ∈ turns Q TickReport.maxPasses s', t.reason? Q ≠ none → t.entry.task.isTempo = true) ∧
      (runDue Q s').1.beat = (runDue L.perform s).1.beat ∧
      SameCourse same (runDue L.perform s).2 (runDue Q s').2 ∧
      MakesKnown L ending s := by
  obtain ⟨hturns, hbeat, hend⟩ := sameCourse_turns hsame hstart
  have hentries : List.Forall₂ (· = ·) ((turns L.perform TickReport.maxPasses s).map Turn.entry)
      ((turns Q TickReport.maxPasses s').map Turn.entry) :=
    List.rel_map (fun _ _ halike => halike.1) hturns
  exact ⟨hturns, (congrFun₂ List.forall₂_eq_eq_eq _ _).mp hentries,
    fun _ _ hfailed => Turn.isTempo_of_reason? hnever hfailed, hbeat, hend,
    makesKnown hending h.sound hheld⟩

/-- An action that fails as long as nothing has been logged. -/
def startledEnding (_ : Unit) (s : Conductor Offline Unit × Unit) : Script.Ending :=
  if s.1.log.isEmpty then .refused ["cannot play", "synth not found"] else .success

/-- Actions that do nothing and end like that. -/
def LawfulPerformer.startled : LawfulPerformer Offline Unit Unit where
  perform body s := ((startledEnding body s).result, s)
  handles _ := []
  trace _ _ := []
  run _ := .nil
  held _ := by simp

/-- Two of them at the same beat. -/
def Conductor.startled : Conductor Offline Unit :=
  offline.applyAll [.scheduleAt 0.0 ⟨"bass", ()⟩, .scheduleAt 0.0 ⟨"drums", ()⟩]

/-- The first of them fails, and is reported. The second one is run all the same. -/
theorem startled_made_known :
    (turns LawfulPerformer.startled.perform TickReport.maxPasses (Conductor.startled, ())).map
        Turn.entry =
      (turns LawfulPerformer.still.perform TickReport.maxPasses (Conductor.startled, ())).map
        Turn.entry ∧
      (runDue LawfulPerformer.startled.perform (Conductor.startled, ())).1.fired = 1 ∧
      (runDue LawfulPerformer.startled.perform (Conductor.startled, ())).1.failures =
        [.actionFailed "bass" 0.0 "cannot play: synth not found"] := by
  have hpermitted : ∀ op ∈ [Operation.scheduleAt 0.0 ⟨"bass", ()⟩, .scheduleAt 0.0 ⟨"drums", ()⟩],
      ∀ c : Conductor Offline Unit, op.Permitted c := by simp [Operation.Permitted]
  have hending : ∀ body s, (LawfulPerformer.startled.perform body s).1 =
      (startledEnding body s).result := fun _ _ => rfl
  have hnever : ∀ body s, (LawfulPerformer.still.perform body s : _ × Conductor Offline Unit × Unit).1 =
      .ok () := fun _ _ => rfl
  have hstart : SameCourse Eq (Conductor.startled, ()) (Conductor.startled, ()) := ⟨.refl _, rfl⟩
  obtain ⟨-, hentries, -, -, -, hknown⟩ := failures_made_known LawfulPerformer.startled hending hnever
    (fun _ _ _ hcourse => hcourse) (history_offline hpermitted) (fun _ hid => by cases hid) hstart
  refine ⟨hentries, ?_, ?_⟩
  · rw [hknown.fired]
    decide +kernel
  · rw [hknown.failures]
    decide +kernel

end Cadence
