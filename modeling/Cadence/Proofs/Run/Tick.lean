import Mathlib
import Cadence.Proofs.Run.Effect

/-!
# Ticks as runs

A tick is a run of small steps, whatever the actions do, as long as they act on the clock through its
operations and through ticks of their own. `LawfulPerformer` says that of the bodies of actions, with
the events that a body brings about. The events of a tick follow from it by the recursion of the tick:

- `LawfulPerformer.run_due`: running what is due is a run with the events `dueEvents`;
- `LawfulPerformer.run_tick`: so is a tick, with the events `tickEvents`;
- `LawfulPerformer.started_mem_firstPass`: the first pass starts every entry that it drains.
-/

namespace Cadence

variable {σ β ω : Type} [Transport σ]

/-- A clock in order, in a program that knows only points of that clock. -/
structure Ready (handles : ω → List PointId) (s : Conductor σ β × ω) : Prop where
  /-- The clock is in order. -/
  sound : Sound ⟨s.1, []⟩
  /-- The points that the program knows were created. -/
  held : ∀ id ∈ handles s.2, s.1.points.Has id

/-- Bodies of actions that act on the clock only through its operations and through ticks. -/
structure LawfulPerformer (σ β ω : Type) [Transport σ] where
  /-- Runs the body of an action. -/
  perform : Performer σ β ω
  /-- The points that the program around the clock knows. -/
  handles : ω → List PointId
  /-- What happens to the clock while a body runs. -/
  trace : β → Conductor σ β × ω → List (Event σ β)
  /-- Nothing else happens to the clock. -/
  run : ∀ {body s}, Ready handles s → Run ⟨s.1, []⟩ (trace body s) ⟨(perform body s).2.1, []⟩
  /-- The points that the program knows afterwards were created. -/
  held : ∀ {body s}, Ready handles s →
    ∀ id ∈ handles (perform body s).2.2, (perform body s).2.1.points.Has id

namespace LawfulPerformer

open Conductor

variable (L : LawfulPerformer σ β ω)

/-! ## The events of a tick -/

/-- What happens while a task is carried out, beside what the clock does by itself. -/
def taskEvents (task : Task β) (s : Conductor σ β × ω) : List (Event σ β) :=
  match task with
  | .act action => L.trace action.body s
  | .actFor token action => if s.1.points.isLive token then L.trace action.body s else []
  | .rearm _ _ => []
  | .tempo _ _ => []

/-- What happens while an entry is run. -/
def entryEvents (reading : Float) (e : Entry (Task β)) (s : Conductor σ β × ω) :
    List (Event σ β) :=
  .started reading e s.1 :: L.taskEvents e.task s ++
    match runTask L.perform e.task s with
    | (.ok (), _) => []
    | (.error reason, s') => [.failed e reason s'.1]

/-- What happens while the entries of a pass are run, and the pass ends. -/
def batchEvents (reading : Float) :
    List (Entry (Task β)) → TickReport × (Conductor σ β × ω) → List (Event σ β)
  | [], state => [.passed state.2.1]
  | e :: rest, state =>
    L.entryEvents reading e state.2 ++ batchEvents reading rest (runEntry L.perform e state)

/-- What happens in the passes of a tick. -/
def passesEvents : ℕ → TickReport × (Conductor σ β × ω) → List (Event σ β)
  | 0, _ => []
  | passes + 1, (report, (c, outside)) =>
    match c.drain with
    | ([], c') => [.measured c, .passed c']
    | (due, c') =>
      .measured c :: L.batchEvents c.now due ({ report with beat := c.now }, (c', outside)) ++
        passesEvents passes (due.foldl (fun state entry => runEntry L.perform entry state)
          ({ report with beat := c.now }, (c', outside)))

/-- What happens while everything that is due is run. -/
def dueEvents (s : Conductor σ β × ω) : List (Event σ β) :=
  L.passesEvents TickReport.maxPasses (⟨0.0, 0, []⟩, s)

/-- What happens in the first pass of it. -/
def firstPass (s : Conductor σ β × ω) : List (Event σ β) :=
  .measured s.1 ::
    L.batchEvents s.1.now s.1.drain.1 (⟨s.1.now, 0, []⟩, (s.1.drain.2, s.2))

/-- What happens in a tick. -/
def tickEvents (s : Conductor σ β × ω) : List (Event σ β) :=
  .called .reconcile s.1 ::
    match s.1.reconcileIfDue with
    | (.unbounded, _) => []
    | (_, c) => L.dueEvents (c, s.2)

/-! ## The run of a tick -/

variable {L} {reading : Float} {e : Entry (Task β)} {rest : List (Entry (Task β))}
  {u : List (Pass β)} {s : Conductor σ β × ω}

/-- Starting an entry and carrying out its task is a run. -/
theorem run_task (hs : Sound ⟨s.1, ⟨reading, e :: rest⟩ :: u⟩)
    (hheld : ∀ id ∈ L.handles s.2, s.1.points.Has id) :
    Run ⟨s.1, ⟨reading, e :: rest⟩ :: u⟩ (.started reading e s.1 :: L.taskEvents e.task s)
        ⟨(runTask L.perform e.task s).2.1, ⟨reading, rest⟩ :: u⟩ ∧
      ∀ id ∈ L.handles (runTask L.perform e.task s).2.2,
        (runTask L.perform e.task s).2.1.points.Has id := by
  have hready : Ready L.handles s := ⟨hs.idle, hheld⟩
  have hstart : Step ⟨s.1, ⟨reading, e :: rest⟩ :: u⟩ (.started reading e s.1)
      ⟨e.task.carry s.1, ⟨reading, rest⟩ :: u⟩ := .start
  -- The clock may act by itself, and then the program knows no more than before.
  have hself (hdone : (runTask L.perform e.task s).2 = (e.task.carry s.1, s.2))
      (hnone : L.taskEvents e.task s = []) :
      Run ⟨s.1, ⟨reading, e :: rest⟩ :: u⟩ (.started reading e s.1 :: L.taskEvents e.task s)
          ⟨(runTask L.perform e.task s).2.1, ⟨reading, rest⟩ :: u⟩ ∧
        ∀ id ∈ L.handles (runTask L.perform e.task s).2.2,
          (runTask L.perform e.task s).2.1.points.Has id := by
    rw [hdone, hnone]
    exact ⟨.single hstart, fun id hid => (Run.single hstart).has hs (hheld id hid)⟩
  -- Or the body of an action is run.
  have hbody (body : β) (hcarry : e.task.carry s.1 = s.1)
      (hdone : runTask L.perform e.task s = L.perform body s)
      (htrace : L.taskEvents e.task s = L.trace body s) :
      Run ⟨s.1, ⟨reading, e :: rest⟩ :: u⟩ (.started reading e s.1 :: L.taskEvents e.task s)
          ⟨(runTask L.perform e.task s).2.1, ⟨reading, rest⟩ :: u⟩ ∧
        ∀ id ∈ L.handles (runTask L.perform e.task s).2.2,
          (runTask L.perform e.task s).2.1.points.Has id := by
    rw [hdone, htrace]
    rw [hcarry] at hstart
    exact ⟨.cons hstart ((L.run hready).frame (⟨reading, rest⟩ :: u)), L.held hready⟩
  cases htask : e.task with
  | act action =>
    rw [← htask]
    exact hbody action.body (by rw [htask]; rfl) (by rw [htask]; rfl) (by rw [htask]; rfl)
  | actFor token action =>
    rw [← htask]
    cases hlive : s.1.points.isLive token with
    | true =>
      exact hbody action.body (by rw [htask]; rfl) (by simp [htask, runTask, hlive])
        (by simp [htask, taskEvents, hlive])
    | false =>
      exact hself (by simp [htask, runTask, Task.carry, hlive])
        (by simp [htask, taskEvents, hlive])
  | rearm token beat =>
    rw [← htask]
    refine hself ?_ (by rw [htask]; rfl)
    cases hlive : s.1.points.isLive token <;> simp [htask, runTask, Task.carry, hlive]
  | tempo beat bpm =>
    rw [← htask]
    refine hself ?_ (by rw [htask]; rfl)
    rw [htask]
    simp only [runTask, Task.carry]
    split <;> rename_i heq <;> rw [heq]

/-- Running an entry is a run. -/
theorem run_entry (hs : Sound ⟨s.1, ⟨reading, e :: rest⟩ :: u⟩)
    (hheld : ∀ id ∈ L.handles s.2, s.1.points.Has id) (report : TickReport) :
    Run ⟨s.1, ⟨reading, e :: rest⟩ :: u⟩ (L.entryEvents reading e s)
        ⟨(runEntry L.perform e (report, s)).2.1, ⟨reading, rest⟩ :: u⟩ ∧
      ∀ id ∈ L.handles (runEntry L.perform e (report, s)).2.2,
        (runEntry L.perform e (report, s)).2.1.points.Has id := by
  obtain ⟨hrun, hafter⟩ := run_task hs hheld
  unfold entryEvents runEntry
  simp only
  rcases hdone : runTask L.perform e.task s with ⟨_ | _, s'⟩
  · rw [hdone] at hrun hafter
    exact ⟨.snoc hrun .fail, hafter⟩
  · rw [hdone] at hrun hafter
    simp only [List.append_nil]
    exact ⟨hrun, hafter⟩

/-- Running the entries of a pass is a run, which ends with the pass. -/
theorem run_batch (due : List (Entry (Task β))) (state : TickReport × (Conductor σ β × ω))
    (hs : Sound ⟨state.2.1, ⟨reading, due⟩ :: u⟩)
    (hheld : ∀ id ∈ L.handles state.2.2, state.2.1.points.Has id) :
    Run ⟨state.2.1, ⟨reading, due⟩ :: u⟩ (L.batchEvents reading due state)
        ⟨(due.foldl (fun state entry => runEntry L.perform entry state) state).2.1, u⟩ ∧
      ∀ id ∈ L.handles (due.foldl (fun state entry => runEntry L.perform entry state) state).2.2,
        (due.foldl (fun state entry => runEntry L.perform entry state) state).2.1.points.Has id := by
  induction due generalizing state with
  | nil => exact ⟨.single .pass, hheld⟩
  | cons e rest ih =>
    obtain ⟨report, s⟩ := state
    obtain ⟨hentry, hafter⟩ := run_entry hs hheld report
    obtain ⟨hrest, hend⟩ := ih _ (hentry.sound hs) hafter
    exact ⟨hentry.append hrest, hend⟩

/-- So are the passes of a tick. -/
theorem run_passes (passes : ℕ) (state : TickReport × (Conductor σ β × ω))
    (hs : Sound ⟨state.2.1, u⟩) (hheld : ∀ id ∈ L.handles state.2.2, state.2.1.points.Has id) :
    Run ⟨state.2.1, u⟩ (L.passesEvents passes state)
        ⟨(runPasses L.perform passes state).2.1, u⟩ ∧
      ∀ id ∈ L.handles (runPasses L.perform passes state).2.2,
        (runPasses L.perform passes state).2.1.points.Has id := by
  induction passes generalizing state with
  | zero => exact ⟨.nil, hheld⟩
  | succ passes ih =>
    obtain ⟨report, c, outside⟩ := state
    have hmeasure : Step ⟨c, u⟩ (.measured c) ⟨c.drain.2, ⟨c.now, c.drain.1⟩ :: u⟩ := .measure
    have hmeasured := hmeasure.sound hs
    have hkept (id : PointId) (hid : id ∈ L.handles outside) : c.drain.2.points.Has id :=
      (Run.single hmeasure).has hs (hheld id hid)
    unfold passesEvents runPasses
    simp only
    -- A pass that finds nothing due is the last one.
    rcases hdrain : c.drain with ⟨_ | ⟨e, rest⟩, c'⟩
    · rw [hdrain] at hmeasure hkept
      exact ⟨.cons hmeasure (.single .pass), hkept⟩
    · rw [hdrain] at hmeasure hmeasured hkept
      obtain ⟨hbatch, hafter⟩ :=
        run_batch (e :: rest) ({ report with beat := c.now }, (c', outside)) hmeasured hkept
      obtain ⟨hrest, hend⟩ := ih _ (hbatch.sound (hmeasure.sound hs)) hafter
      exact ⟨.cons hmeasure (hbatch.append hrest), hend⟩

theorem run_due (hs : Sound ⟨s.1, u⟩) (hheld : ∀ id ∈ L.handles s.2, s.1.points.Has id) :
    Run ⟨s.1, u⟩ (L.dueEvents s) ⟨(runDue L.perform s).2.1, u⟩ ∧
      ∀ id ∈ L.handles (runDue L.perform s).2.2, (runDue L.perform s).2.1.points.Has id :=
  run_passes TickReport.maxPasses (⟨0.0, 0, []⟩, s) hs hheld

/-- A tick is a run. -/
theorem run_tick (hs : Sound ⟨s.1, u⟩) (hheld : ∀ id ∈ L.handles s.2, s.1.points.Has id) :
    Run ⟨s.1, u⟩ (L.tickEvents s) ⟨(tick L.perform s).2.1, u⟩ ∧
      ∀ id ∈ L.handles (tick L.perform s).2.2, (tick L.perform s).2.1.points.Has id := by
  have hreconcile : Step ⟨s.1, u⟩ (.called .reconcile s.1) ⟨s.1.reconcileIfDue.2, u⟩ :=
    .call trivial
  have hkept (id : PointId) (hid : id ∈ L.handles s.2) : s.1.reconcileIfDue.2.points.Has id :=
    (Run.single hreconcile).has hs (hheld id hid)
  unfold tickEvents tick
  rcases hanswer : s.1.reconcileIfDue with ⟨answer, c⟩
  have hsound := hreconcile.sound hs
  rw [hanswer] at hreconcile hkept hsound
  have hdue := run_due (L := L) (s := (c, s.2)) hsound hkept
  cases answer with
  | unbounded => exact ⟨.single hreconcile, hkept⟩
  | _ => exact ⟨.cons hreconcile hdue.1, hdue.2⟩

/-! ## The first pass -/

/-- Every entry of a pass is started in it. -/
theorem started_mem_batchEvents (L : LawfulPerformer σ β ω) (reading : Float)
    {due : List (Entry (Task β))} (state : TickReport × (Conductor σ β × ω)) (he : e ∈ due) :
    ∃ c, Event.started reading e c ∈ L.batchEvents reading due state := by
  induction due generalizing state with
  | nil => cases he
  | cons first rest ih =>
    rcases List.mem_cons.mp he with rfl | he
    · exact ⟨state.2.1, List.mem_append_left _ (.head _)⟩
    · obtain ⟨c, hc⟩ := ih _ he
      exact ⟨c, List.mem_append_right _ hc⟩

/-- The first pass starts every entry that it drains. -/
theorem started_mem_firstPass (he : e ∈ s.1.drain.1) :
    ∃ c, Event.started s.1.now e c ∈ L.firstPass s := by
  obtain ⟨c, hc⟩ := started_mem_batchEvents L s.1.now
    (⟨s.1.now, 0, []⟩, (s.1.drain.2, s.2)) he
  exact ⟨c, .tail _ hc⟩

/-- A tick begins with its first pass. -/
theorem firstPass_prefix_dueEvents : L.firstPass s <+: L.dueEvents s := by
  unfold firstPass dueEvents TickReport.maxPasses passesEvents
  rcases hdrain : s.1.drain with ⟨_ | ⟨e, rest⟩, c'⟩
  · exact List.prefix_refl _
  · exact List.prefix_append _ _

/-- The passes of a tick begin by measuring the beat. -/
theorem exists_dueEvents_eq (c : Conductor σ β) (w : ω) :
    ∃ rest, L.dueEvents (c, w) = .measured c :: rest := by
  obtain ⟨rest, hrest⟩ := firstPass_prefix_dueEvents (L := L) (s := (c, w))
  exact ⟨_, hrest.symm⟩

end LawfulPerformer

end Cadence
