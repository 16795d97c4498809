import Mathlib
import Cadence.Proofs.Run.Operation

/-!
# What operations answer

`Operation.apply` is the clock after an operation. What whoever called it is answered is `Operation.answer`:
a value of one type for all operations, so that the answers of a run can be listed.
-/

namespace Cadence

variable {σ β : Type}

/-- What an operation answers. -/
inductive Answer where
  /-- Nothing but that it is done. -/
  | done
  /-- It is refused. -/
  | refused (fault : Fault)
  /-- A beat. -/
  | beat (beat : Float)
  /-- The name of an entry. -/
  | entry (id : EntryId)
  /-- The name of a point. -/
  | point (id : PointId)
  /-- The name of a point that is not there. -/
  | missing (id : PointId)
  /-- A number of things. -/
  | count (count : ℕ)
  /-- Whether something is so. -/
  | flag (flag : Bool)
  /-- The state of the follower. -/
  | status (status : SyncStatus)
  /-- What a reconciliation came to. -/
  | reconciled (reconciliation : Reconciliation)

/-- The answer of an operation that can be refused. -/
def Answer.of {α : Type} (read : α → Answer) : Except Fault α → Answer
  | .ok answer => read answer
  | .error fault => .refused fault

/-- What an operation answers on a clock. -/
def Operation.answer [Transport σ] (op : Operation σ β) (c : Conductor σ β) : Answer :=
  match op with
  | .playheadBpm bpm => .of (fun changed => .beat changed.1) (c.playhead.setBpm bpm)
  | .playheadBpmAt beat bpm => .of (fun _ => .done) (c.playhead.setBpmAt beat bpm)
  | .playheadTime beat => .of (fun _ => .done) (c.playhead.setTime beat)
  | .setBpm bpm => .of (fun _ => .done) (c.setBpm bpm).1
  | .setBpmAtNextBar bpm => .of .beat (c.setBpmAtNextBar bpm).1
  | .setTime beat => .of (fun _ => .done) (c.setTime beat).1
  | .shift beats => .of (fun _ => .done) (c.shift beats).1
  | .scheduleAt beat action => .of .entry (c.scheduleAt beat action).1
  | .scheduleAfter beats action => .of .entry (c.scheduleAfter beats action).1
  | .schedule timing action => .of .entry (c.schedule timing action).1
  | .scheduleIn span action => .of .entry (c.scheduleIn span action).1
  | .schedulePriority beat action => .of .entry (c.schedulePriority beat action).1
  | .scheduleOwned beat action owner => .of .entry (c.scheduleOwned beat action owner).1
  | .every period action => .of .point (c.every period action).1
  | .cancel id => .count (c.cancel id).1
  | .cancelOwners ids => .count (c.cancelOwners ids).1
  | .cancelEntry id => .flag (c.cancelEntry id).1
  | .clearQueue => .count c.clearQueue.1
  | .createPoint kind => .point (c.createPoint kind).1
  | .recurringPoint period => .of .point (c.recurringPoint period).1
  | .derivePoint d =>
    match (c.derivePoint d).1 with
    | .ok id => .point id
    | .error id => .missing id
  | .bind id beat => .of (fun _ => .done) (c.bind id beat).1
  | .clearPoint id => .count (c.clearPoint id).1
  | .enableSync offset interval => .of .status (c.enableSync offset interval).1
  | .enableConfiguredSync => .of .status c.enableConfiguredSync.1
  | .disableSync => .flag c.disableSync.1
  | .syncStatus => .status c.syncStatus.1
  | .reconcile => .reconciled c.reconcileIfDue.1
  | _ => .done

end Cadence
