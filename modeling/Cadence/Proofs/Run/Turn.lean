import Mathlib
import Cadence.Proofs.Run.Tick

/-!
# Turns of a tick

A tick is a sequence of passes, and a pass is a sequence of turns, one for each entry that was drained.
What the report says, what is left and what happened are all read off these two sequences:

- `Conductor.runPasses_eq`: the report counts the turns, and the passes follow one another;
- `Conductor.passes_last`: the last pass found nothing due, or it was the last one allowed;
- `LawfulPerformer.dueEvents_eq`: what happens is what happens in each pass, one after another.
-/

namespace Cadence

variable {σ β ω : Type} [Transport σ]

/-! ## Turns -/

/-- The reason in the answer of a task, if it failed. -/
def Conductor.reasonOf : Except String Unit → Option String
  | .ok () => none
  | .error reason => some reason

/-- The answer of a tempo change at a bar line, as that of a task. -/
def Conductor.answerOf : Except Fault Unit → Except String Unit
  | .error fault => .error fault.message
  | .ok () => .ok ()

theorem Conductor.runTask_tempo {P : Performer σ β ω} (beat bpm : Float) (s : Conductor σ β × ω) :
    runTask P (.tempo beat bpm) s =
      (answerOf (s.1.changeTempoAt beat bpm).1, (s.1.changeTempoAt beat bpm).2, s.2) := by
  simp only [runTask]
  rcases s.1.changeTempoAt beat bpm with ⟨_ | _, c⟩ <;> rfl

/-- An entry that is run, with the clock and the program around it as they were before. -/
structure Turn (σ β ω : Type) where
  /-- The entry. -/
  entry : Entry (Task β)
  /-- The clock and the program. -/
  stage : Conductor σ β × ω

namespace Turn

variable (P : Performer σ β ω)

/-- Why the entry failed, if it did. -/
def reason? (t : Turn σ β ω) : Option String :=
  Conductor.reasonOf (Conductor.runTask P t.entry.task t.stage).1

/-- The fault that the entry is reported with, if it failed. -/
def fault? (t : Turn σ β ω) : Option Fault := (t.reason? P).map (Conductor.failureOf t.entry)

/-- The clock and the program once the entry was run, and its failure made known. -/
def next (t : Turn σ β ω) : Conductor σ β × ω :=
  let s := (Conductor.runTask P t.entry.task t.stage).2
  match t.reason? P with
  | none => s
  | some reason => (s.1.reportFailure t.entry reason, s.2)

end Turn

/-- The report with some turns added to it. -/
def TickReport.add (P : Performer σ β ω) (report : TickReport) (turns : List (Turn σ β ω)) :
    TickReport :=
  { report with
    fired := report.fired + turns.countP fun t => t.reason? P = none
    failures := report.failures ++ turns.filterMap (Turn.fault? P) }

theorem TickReport.add_append (P : Performer σ β ω) (report : TickReport)
    (turns turns' : List (Turn σ β ω)) :
    report.add P (turns ++ turns') = (report.add P turns).add P turns' := by
  simp [add, Nat.add_assoc]

namespace Conductor

variable (P : Performer σ β ω)

/-- The turns of some entries that are run one after another. -/
def batchTurns : List (Entry (Task β)) → Conductor σ β × ω → List (Turn σ β ω)
  | [], _ => []
  | e :: rest, s => ⟨e, s⟩ :: batchTurns rest (Turn.next P ⟨e, s⟩)

/-- The clock and the program once some entries were run. -/
def batchEnd (due : List (Entry (Task β))) (s : Conductor σ β × ω) : Conductor σ β × ω :=
  due.foldl (fun s e => Turn.next P ⟨e, s⟩) s

/-- The turns of the pass that is made now. -/
def passTurns (s : Conductor σ β × ω) : List (Turn σ β ω) :=
  batchTurns P s.1.drain.1 (s.1.drain.2, s.2)

/-- The clock and the program after the pass that is made now. -/
def passEnd (s : Conductor σ β × ω) : Conductor σ β × ω :=
  batchEnd P s.1.drain.1 (s.1.drain.2, s.2)

/-- The stages at which the passes of a tick measure the beat, if so many passes are allowed. A pass
that finds nothing due is the last one. -/
def passes : ℕ → Conductor σ β × ω → List (Conductor σ β × ω)
  | 0, _ => []
  | n + 1, s => s :: if s.1.drain.1 = [] then [] else passes n (passEnd P s)

/-- The turns of these passes. -/
def turns (n : ℕ) (s : Conductor σ β × ω) : List (Turn σ β ω) := (passes P n s).flatMap (passTurns P)

variable {P} {s : Conductor σ β × ω} {n : ℕ}

theorem map_entry_batchTurns (due : List (Entry (Task β))) (s : Conductor σ β × ω) :
    (batchTurns P due s).map Turn.entry = due := by
  induction due generalizing s with
  | nil => rfl
  | cons e rest ih => rw [batchTurns, List.map_cons, ih]

/-- The entries that are run are those that the passes drain. -/
theorem map_entry_turns (n : ℕ) (s : Conductor σ β × ω) :
    (turns P n s).map Turn.entry = (passes P n s).flatMap (·.1.drain.1) := by
  rw [turns, List.map_flatMap]
  exact List.flatMap_congr fun s _ => map_entry_batchTurns _ _

/-! ## The report -/

theorem runEntry_eq_turn (e : Entry (Task β)) (report : TickReport) (s : Conductor σ β × ω) :
    runEntry P e (report, s) = (report.add P [⟨e, s⟩], Turn.next P ⟨e, s⟩) := by
  rcases hrun : runTask P e.task s with ⟨_ | _, s'⟩ <;>
    simp [runEntry, TickReport.add, Turn.fault?, Turn.next, Turn.reason?, reasonOf, hrun]

theorem foldl_runEntry (due : List (Entry (Task β))) (report : TickReport) (s : Conductor σ β × ω) :
    due.foldl (fun state e => runEntry P e state) (report, s) =
      (report.add P (batchTurns P due s), batchEnd P due s) := by
  induction due generalizing report s with
  | nil => simp [TickReport.add, batchTurns, batchEnd]
  | cons e rest ih =>
    rw [List.foldl_cons, runEntry_eq_turn, ih, ← TickReport.add_append]
    rfl

/-- A pass that finds nothing due changes nothing. -/
theorem passEnd_of_drain_eq_nil (h : s.1.drain.1 = []) : passEnd P s = s := by
  have hqueue : (s.1.queue.drainDue s.1.now).2 = s.1.queue := Queue.drainDue_snd_of_nil h
  rw [passEnd, h]
  change ({ s.1 with queue := (s.1.queue.drainDue s.1.now).2 }, s.2) = s
  rw [hqueue]

/-- One more pass is made, and the others only if it finds something due. -/
theorem runPasses_succ_eq (n : ℕ) (report : TickReport) (s : Conductor σ β × ω) :
    runPasses P (n + 1) (report, s) =
      if s.1.drain.1 = [] then ({ report with beat := s.1.now }, s)
      else runPasses P n ({ report with beat := s.1.now }.add P (passTurns P s), passEnd P s) := by
  have hpass := foldl_runEntry (P := P) s.1.drain.1 { report with beat := s.1.now } (s.1.drain.2, s.2)
  change _ = (TickReport.add P { report with beat := s.1.now } (passTurns P s), passEnd P s) at hpass
  rw [← hpass]
  split_ifs with hnil
  · -- What is left is the clock as the pass found it.
    have hsame : (s.1.drain.2, s.2) = s := by
      have hend := passEnd_of_drain_eq_nil (P := P) hnil
      rwa [passEnd, hnil] at hend
    obtain ⟨c, outside⟩ := s
    simp only [runPasses]
    rcases hdrain : c.drain with ⟨_ | ⟨e, rest⟩, c'⟩
    · simpa [hdrain] using congrArg (Prod.mk { report with beat := c.now }) hsame
    · simp [hdrain] at hnil
  · simp only [runPasses]

/-- The report of the passes counts their turns, and the beat is the one that was measured last. -/
theorem runPasses_eq (n : ℕ) (report : TickReport) (s : Conductor σ β × ω) :
    runPasses P n (report, s) =
      ({ report.add P (turns P n s) with
          beat := ((passes P n s).getLast?.map (·.1.now)).getD report.beat },
        (passEnd P)^[n] s) := by
  induction n generalizing report s with
  | zero => simp [runPasses, turns, passes, TickReport.add]
  | succ n ih =>
    rw [runPasses_succ_eq, turns, passes]
    split_ifs with hnil
    · -- Whatever pass came after this one would change nothing.
      rw [Function.iterate_fixed (passEnd_of_drain_eq_nil hnil), List.flatMap_singleton, passTurns, hnil]
      simp [batchTurns, TickReport.add]
    · rw [ih, Function.iterate_succ_apply, List.flatMap_cons, TickReport.add_append,
        List.getLast?_cons]
      cases (passes P n (passEnd P s)).getLast? <;> rfl

/-! ### What a tick reports and leaves -/

theorem runDue_beat (P : Performer σ β ω) (s : Conductor σ β × ω) :
    (runDue P s).1.beat = ((passes P TickReport.maxPasses s).getLast?.map (·.1.now)).getD 0.0 := by
  rw [runDue, runPasses_eq]

theorem runDue_fired (P : Performer σ β ω) (s : Conductor σ β × ω) :
    (runDue P s).1.fired = (turns P TickReport.maxPasses s).countP fun t => t.reason? P = none := by
  rw [runDue, runPasses_eq]
  exact Nat.zero_add _

theorem runDue_failures (P : Performer σ β ω) (s : Conductor σ β × ω) :
    (runDue P s).1.failures = (turns P TickReport.maxPasses s).filterMap (Turn.fault? P) := by
  rw [runDue, runPasses_eq]
  exact List.nil_append _

/-- Every turn is counted, as fired or as failed. -/
theorem count_runDue (P : Performer σ β ω) (s : Conductor σ β × ω) :
    (runDue P s).1.fired + (runDue P s).1.failures.length =
      (turns P TickReport.maxPasses s).length := by
  have hfailed : ((turns P TickReport.maxPasses s).filterMap (Turn.fault? P)).length =
      (turns P TickReport.maxPasses s).countP fun t => ¬ t.reason? P = none := by
    rw [List.length_filterMap_eq_countP]
    refine List.countP_congr fun t _ => ?_
    cases h : t.reason? P <;> simp [Turn.fault?, h]
  rw [runDue_fired, runDue_failures, hfailed]
  have hall := (turns P TickReport.maxPasses s).length_eq_countP_add_countP fun t => t.reason? P = none
  simp only [decide_eq_true_eq] at hall
  exact hall.symm

theorem runDue_snd (P : Performer σ β ω) (s : Conductor σ β × ω) :
    (runDue P s).2 = (passEnd P)^[TickReport.maxPasses] s := by
  rw [runDue, runPasses_eq]

/-! ## The passes -/

theorem length_passes_le (n : ℕ) (s : Conductor σ β × ω) : (passes P n s).length ≤ n := by
  induction n generalizing s with
  | zero => exact le_rfl
  | succ n ih =>
    rw [passes, List.length_cons]
    split_ifs
    · exact Nat.succ_le_succ (Nat.zero_le n)
    · exact Nat.succ_le_succ (ih _)

/-- The last pass found nothing due, or it was the last one allowed. It is the one after which things
stand as after the tick. -/
theorem passes_last (n : ℕ) (s : Conductor σ β × ω) :
    ∃ last, (passes P (n + 1) s).getLast? = some last ∧ (passEnd P)^[n + 1] s = passEnd P last ∧
      (last.1.drain.1 = [] ∨ (passes P (n + 1) s).length = n + 1) := by
  -- The first pass is the last one unless it finds something due; then the others decide.
  induction n generalizing s with
  | zero =>
    refine ⟨s, ?_, rfl, .inr ?_⟩
    · simp [passes]
    · simp [passes]
  | succ n ih =>
    by_cases hnil : s.1.drain.1 = []
    · refine ⟨s, ?_, ?_, .inl hnil⟩
      · rw [passes, if_pos hnil]
        rfl
      · rw [Function.iterate_fixed (passEnd_of_drain_eq_nil hnil), passEnd_of_drain_eq_nil hnil]
    · obtain ⟨last, hlast, hend, hreason⟩ := ih (passEnd P s)
      refine ⟨last, ?_, ?_, ?_⟩
      · rw [passes, if_neg hnil, List.getLast?_cons, hlast]
        rfl
      · rw [Function.iterate_succ_apply, hend]
      · rw [passes, if_neg hnil, List.length_cons, Nat.add_right_cancel_iff]
        exact hreason

/-- A pass is made where the earlier ones led, if they all found something due. -/
theorem getElem?_passes {k : ℕ} (hk : k < n) (h : ∀ j < k, ((passEnd P)^[j] s).1.drain.1 ≠ []) :
    (passes P n s)[k]? = some ((passEnd P)^[k] s) := by
  induction k generalizing n s with
  | zero =>
    obtain ⟨n, rfl⟩ := Nat.exists_eq_add_one.mpr hk
    rfl
  | succ k ih =>
    obtain ⟨n, rfl⟩ := Nat.exists_eq_add_one.mpr (Nat.zero_lt_of_lt hk)
    have hfirst : s.1.drain.1 ≠ [] := h 0 (Nat.succ_pos k)
    rw [passes, if_neg hfirst, List.getElem?_cons_succ, Function.iterate_succ_apply]
    exact ih (Nat.succ_lt_succ_iff.mp hk) fun j hj => h (j + 1) (Nat.succ_lt_succ hj)

/-- Each pass is made where the earlier ones led. -/
theorem exists_iterate_of_mem_passes {s' : Conductor σ β × ω} (h : s' ∈ passes P n s) :
    ∃ k, s' = (passEnd P)^[k] s := by
  induction n generalizing s with
  | zero => cases h
  | succ n ih =>
    rw [passes] at h
    rcases List.mem_cons.mp h with rfl | h
    · exact ⟨0, rfl⟩
    · split_ifs at h
      · cases h
      · obtain ⟨k, hk⟩ := ih h
        exact ⟨k + 1, hk⟩

end Conductor

/-! ## The events -/

namespace LawfulPerformer

open Conductor

variable {L : LawfulPerformer σ β ω} {s : Conductor σ β × ω} {u : List (Pass β)}

/-- What happens in a turn, in a pass that measured a beat. -/
def turnEvents (L : LawfulPerformer σ β ω) (reading : Float) (t : Turn σ β ω) : List (Event σ β) :=
  L.entryEvents reading t.entry t.stage

/-- What happens in a pass is what happens in its turns. -/
theorem batchEvents_eq (reading : Float) (due : List (Entry (Task β))) (report : TickReport)
    (s : Conductor σ β × ω) :
    L.batchEvents reading due (report, s) =
      (batchTurns L.perform due s).flatMap (L.turnEvents reading) ++
        [.passed (batchEnd L.perform due s).1] := by
  induction due generalizing report s with
  | nil => rfl
  | cons e rest ih =>
    rw [batchEvents, runEntry_eq_turn, ih, batchTurns, List.flatMap_cons, List.append_assoc]
    rfl

theorem firstPass_eq (s : Conductor σ β × ω) :
    L.firstPass s = .measured s.1 :: (passTurns L.perform s).flatMap (L.turnEvents s.1.now) ++
      [.passed (passEnd L.perform s).1] := by
  rw [firstPass, batchEvents_eq]
  rfl

theorem passesEvents_succ_eq (n : ℕ) (report : TickReport) (s : Conductor σ β × ω) :
    L.passesEvents (n + 1) (report, s) = L.firstPass s ++
      if s.1.drain.1 = [] then []
      else L.passesEvents n
        ({ report with beat := s.1.now }.add L.perform (passTurns L.perform s), passEnd L.perform s) := by
  have hpass := foldl_runEntry (P := L.perform) s.1.drain.1 { report with beat := s.1.now }
    (s.1.drain.2, s.2)
  change _ = (TickReport.add L.perform { report with beat := s.1.now } (passTurns L.perform s),
    passEnd L.perform s) at hpass
  rw [← hpass, firstPass]
  obtain ⟨c, outside⟩ := s
  simp only [passesEvents]
  rcases hdrain : c.drain with ⟨_ | ⟨e, rest⟩, c'⟩
  · rfl
  · simp only [reduceCtorEq, if_false, batchEvents_eq]

theorem passesEvents_eq (n : ℕ) (report : TickReport) (s : Conductor σ β × ω) :
    L.passesEvents n (report, s) = (passes L.perform n s).flatMap L.firstPass := by
  induction n generalizing report s with
  | zero => rfl
  | succ n ih =>
    rw [passesEvents_succ_eq, passes, List.flatMap_cons, ih]
    split_ifs <;> rfl

/-- What happens while everything that is due is run is what happens in each of the passes. -/
theorem dueEvents_eq (s : Conductor σ β × ω) :
    L.dueEvents s = (passes L.perform TickReport.maxPasses s).flatMap L.firstPass :=
  passesEvents_eq _ _ _

/-- A pass starts what it drains, in order. -/
theorem drain_sublist_startedEntries (s : Conductor σ β × ω) :
    s.1.drain.1.Sublist (startedEntries (L.firstPass s)) := by
  have hentries : s.1.drain.1 = (passTurns L.perform s).flatMap fun t => [t.entry] := by
    have hmap := map_entry_batchTurns (P := L.perform) s.1.drain.1 (s.1.drain.2, s.2)
    exact hmap.symm.trans List.map_eq_flatMap
  have hstarted : ((passTurns L.perform s).flatMap fun t => startedEntries (L.turnEvents s.1.now t)).Sublist
      (startedEntries (L.firstPass s)) := by
    rw [firstPass_eq, startedEntries, List.cons_append, List.filterMap_cons_none rfl,
      List.filterMap_append, List.filterMap_flatMap]
    exact List.sublist_append_left _ _
  refine List.Sublist.trans ?_ hstarted
  rw [hentries]
  exact List.Sublist.flatMap_right _ fun t _ => List.singleton_sublist.mpr (.head _)

/-- So the entries that the passes of a tick drain are among those that are started, in order. -/
theorem drained_sublist_startedEntries (s : Conductor σ β × ω) :
    ((passes L.perform TickReport.maxPasses s).flatMap (·.1.drain.1)).Sublist
      (startedEntries (L.dueEvents s)) := by
  rw [dueEvents_eq, startedEntries, List.filterMap_flatMap]
  exact List.Sublist.flatMap_right _ fun pass _ => drain_sublist_startedEntries pass

/-- A pass is a run. -/
theorem run_pass (hs : Sound ⟨s.1, u⟩) (hheld : ∀ id ∈ L.handles s.2, s.1.points.Has id) :
    Run ⟨s.1, u⟩ (L.firstPass s) ⟨(passEnd L.perform s).1, u⟩ ∧
      ∀ id ∈ L.handles (passEnd L.perform s).2, (passEnd L.perform s).1.points.Has id := by
  have hmeasure : Step ⟨s.1, u⟩ (.measured s.1) ⟨s.1.drain.2, ⟨s.1.now, s.1.drain.1⟩ :: u⟩ := .measure
  obtain ⟨hbatch, hafter⟩ := run_batch s.1.drain.1 (⟨s.1.now, 0, []⟩, (s.1.drain.2, s.2))
    (hmeasure.sound hs) fun id hid => (Run.single hmeasure).has hs (hheld id hid)
  rw [foldl_runEntry] at hbatch hafter
  exact ⟨.cons hmeasure hbatch, hafter⟩

end LawfulPerformer

end Cadence
