import Mathlib
import Cadence.Proofs.Refusal

/-!
# When the driver loop is woken

Whoever queues something wakes the driver loop if that is due before everything else. The loop sleeps until
what was due next when it fell asleep, so it must not miss what is due earlier.

- `Queue.nextDue?_submit`: what is submitted is due next, or what was due next still is;
- `Submission.sentOrKept`: so a call wakes the loop, or leaves what is due next as it was;
- `submissions_wake`: after any calls, what is due earlier than before them was told the loop;
- `submission_wakes`: the same of one call, which does nothing at all if it is refused or has nothing to queue.
-/

namespace Cadence

open Number

variable {σ β : Type}

/-! ## The head of the queue -/

/-- A task that is submitted is due next, or what was due next still is. -/
theorem Queue.nextDue?_submit {α : Type} (q : Queue α) (due : DueBeat) (priority : Bool) (task : α)
    (owner : Option PointId) : (q.submit due priority task owner).2.nextDue? = some due ∨
      (q.submit due priority task owner).2.nextDue? = q.nextDue? := by
  unfold Queue.submit Queue.nextDue?
  cases q.entries with
  | nil => exact .inl rfl
  | cons head rest =>
    simp only [Queue.place]
    split_ifs
    · exact .inl rfl
    · exact .inr rfl

namespace Conductor

/-- Something is due on the second clock before everything that is due on the first one. -/
def DueEarlier (c c' : Conductor σ β) : Prop :=
  ∃ beat, c'.nextDue? = some beat ∧ ∀ before, c.nextDue? = some before → beat < before

theorem driver_wake {c : Conductor σ β} {sent : List DriverSignal} (hdriver : c.driver = some sent) :
    c.wake.driver = some (sent ++ [.wake]) := by
  rw [wake, hdriver, Option.map_some]

/-- Nothing is due before itself. -/
theorem not_dueEarlier_of_nextDue? {c c' : Conductor σ β} (h : c'.nextDue? = c.nextDue?) :
    ¬ c.DueEarlier c' := by
  rintro ⟨beat, hbeat, hearlier⟩
  exact lt_irrefl _ (lt_iff.mp (hearlier beat (h ▸ hbeat))).2.2

end Conductor

/-! ## One call -/

/-- The driver loop was woken between the first clock and the second one, or nothing was sent to it and the same
is due next. -/
def SentOrKept (c c' : Conductor σ β) (sent : List DriverSignal) : Prop :=
  c'.driver = some (sent ++ [.wake]) ∨ c'.driver = some sent ∧ c'.nextDue? = c.nextDue?

/-- A call that queues something. -/
inductive Submission (β : Type) where
  /-- Queues an action at a beat. -/
  | atBeat (beat : Float) (action : Action β)
  /-- Queues an action a number of beats from now. -/
  | after (beats : Float) (action : Action β)
  /-- Queues an action, possibly on behalf of a point. -/
  | owned (beat : Float) (action : Action β) (owner : Option PointId)
  /-- Queues an action ahead of everything else at its beat. -/
  | priority (beat : Float) (action : Action β)
  /-- Queues several tasks at once. -/
  | batch (entries : List (Float × Task β × Option PointId))

namespace Submission

/-- One name is a list of one. -/
def named (outcome : Except Fault EntryId × Conductor σ β) : Except Fault (List EntryId) × Conductor σ β :=
  (outcome.1.map fun name => [name], outcome.2)

/-- Makes the call. The answer names what was queued. -/
def make (c : Conductor σ β) : Submission β → Except Fault (List EntryId) × Conductor σ β
  | .atBeat beat action => named (c.scheduleAt beat action)
  | .after beats action => named (c.scheduleAfter beats action)
  | .owned beat action owner => named (c.scheduleOwned beat action owner)
  | .priority beat action => named (c.schedulePriority beat action)
  | .batch entries => (.ok (c.submitAll entries).1, (c.submitAll entries).2)

/-- Makes several calls one after another. -/
def makeAll (c : Conductor σ β) (calls : List (Submission β)) : Conductor σ β :=
  calls.foldl (fun c call => (call.make c).2) c

variable {c : Conductor σ β} {sent : List DriverSignal}

/-- A task that is queued wakes the driver loop if it is due next. -/
theorem submit_sentOrKept (hdriver : c.driver = some sent) (beat : Float) (priority : Bool) (task : Task β)
    (owner : Option PointId) : SentOrKept c (c.submit beat priority task owner).2 sent := by
  unfold Conductor.submit checkBeat
  cases hbeat : beat.isFinite with
  | false => exact .inr ⟨hdriver, rfl⟩
  | true =>
    simp only [if_true]
    split_ifs with hleads
    · exact .inl (Conductor.driver_wake hdriver)
    · refine .inr ⟨hdriver, ?_⟩
      rcases c.queue.nextDue?_submit (.ofFloat beat) priority task owner with hnext | hnext
      · -- The head would be the task itself, and its beat is equal to itself.
        have hself : (beat == beat) = true :=
          beq_iff.mpr ⟨isNaN_of_isFinite hbeat, isNaN_of_isFinite hbeat, rfl⟩
        refine absurd ?_ hleads
        rw [Conductor.nextDue?, hnext, Option.map_some, Option.any_some]
        exact (congrArg (· == beat) (Entry.value_ofFloat beat)).trans hself
      · exact congrArg (Option.map DueBeat.value) hnext

theorem scheduleAfter_sentOrKept (hdriver : c.driver = some sent) (beats : Float) (action : Action β) :
    SentOrKept c (c.scheduleAfter beats action).2 sent := by
  unfold Conductor.scheduleAfter
  cases checkBeat beats with
  | error fault => exact .inr ⟨hdriver, rfl⟩
  | ok beats => exact submit_sentOrKept hdriver (c.now + beats) false (.act action) none

/-- A batch wakes the driver loop once if anything of it is queued. Otherwise nothing changes. -/
theorem submitAll_cases (hdriver : c.driver = some sent) (entries : List (Float × Task β × Option PointId)) :
    c.submitAll entries = ([], c) ∨ (c.submitAll entries).2.driver = some (sent ++ [.wake]) := by
  rw [c.submitAll_eq]
  cases entries.filter (·.1.isFinite) with
  | nil => exact .inl rfl
  | cons entry rest => exact .inr (Conductor.driver_wake hdriver)

/-- A call wakes the driver loop, or leaves what is due next as it was. -/
theorem sentOrKept (hdriver : c.driver = some sent) (call : Submission β) :
    SentOrKept c (call.make c).2 sent := by
  cases call with
  | atBeat beat action => exact submit_sentOrKept hdriver beat false (.act action) none
  | after beats action => exact scheduleAfter_sentOrKept hdriver beats action
  | owned beat action owner => exact submit_sentOrKept hdriver beat false (.act action) owner
  | priority beat action => exact submit_sentOrKept hdriver beat true (.act action) none
  | batch entries =>
    rcases submitAll_cases hdriver entries with hnothing | hwoken
    · refine .inr ?_
      rw [make, hnothing]
      exact ⟨hdriver, rfl⟩
    · exact .inl hwoken

/-- A call that is refused changes nothing. -/
theorem atomic_named {outcome : Except Fault EntryId × Conductor σ β} (h : c.Atomic outcome) :
    c.Atomic (named outcome) := by
  obtain ⟨answer, c'⟩ := outcome
  cases answer with
  | error fault => exact fun _ _ => h fault rfl
  | ok name => exact .accepted _ _

theorem atomic_make (c : Conductor σ β) (call : Submission β) : c.Atomic (call.make c) := by
  cases call with
  | atBeat beat action => exact atomic_named (c.atomic_submit beat false (.act action) none)
  | after beats action => exact atomic_named (c.atomic_scheduleAfter beats action)
  | owned beat action owner => exact atomic_named (c.atomic_submit beat false (.act action) owner)
  | priority beat action => exact atomic_named (c.atomic_submit beat true (.act action) none)
  | batch entries => exact .accepted _ _

end Submission

/-! ## Any calls -/

/-- After any calls the driver loop was woken at most once for each of them, and was not woken only if the same is
due next as before. -/
theorem submissions_wake {c : Conductor σ β} {sent : List DriverSignal} (hdriver : c.driver = some sent)
    (calls : List (Submission β)) : ∃ woken ≤ calls.length,
      (Submission.makeAll c calls).driver = some (sent ++ List.replicate woken .wake) ∧
        (c.DueEarlier (Submission.makeAll c calls) → 0 < woken) := by
  suffices h : ∃ woken ≤ calls.length,
      (Submission.makeAll c calls).driver = some (sent ++ List.replicate woken .wake) ∧
        (woken = 0 → (Submission.makeAll c calls).nextDue? = c.nextDue?) by
    obtain ⟨woken, hle, hsent, hkept⟩ := h
    refine ⟨woken, hle, hsent, fun hearlier => Nat.pos_of_ne_zero fun hzero => ?_⟩
    exact Conductor.not_dueEarlier_of_nextDue? (hkept hzero) hearlier
  induction calls generalizing c sent with
  | nil => exact ⟨0, le_rfl, by simpa [Submission.makeAll] using hdriver, fun _ => rfl⟩
  | cons call rest ih =>
    rw [Submission.makeAll, List.foldl_cons]
    rcases call.sentOrKept hdriver with hwoken | ⟨hquiet, hnext⟩
    · obtain ⟨woken, hle, hsent, -⟩ := ih hwoken
      refine ⟨woken + 1, Nat.succ_le_succ hle, ?_, fun h => absurd h woken.succ_ne_zero⟩
      rw [List.append_assoc, List.singleton_append, ← List.replicate_succ] at hsent
      exact hsent
    · obtain ⟨woken, hle, hsent, hkept⟩ := ih hquiet
      exact ⟨woken, hle.trans (Nat.le_succ _), hsent, fun h => (hkept h).trans hnext⟩

/-- What a call tells the driver loop, to which some signals were sent before. -/
structure Submission.Announced (c : Conductor σ β) (sent : List DriverSignal) (call : Submission β) : Prop where
  /-- It wakes the loop if something is due earlier than before. -/
  wakes : ∀ ids, (call.make c).1 = .ok ids → c.DueEarlier (call.make c).2 →
    (call.make c).2.driver = some (sent ++ [.wake])
  /-- It wakes it once if at all, and always if it leaves something else to be due next. -/
  once : SentOrKept c (call.make c).2 sent
  /-- If it is refused, everything is as it was. -/
  refused : ∀ fault, (call.make c).1 = .error fault → (call.make c).2 = c
  /-- So it is after a batch without a finite beat. -/
  idle : ∀ entries, call = .batch entries → (∀ entry ∈ entries, entry.1.isFinite = false) →
    call.make c = (.ok [], c)

/-- A call after which something is due earlier has woken the driver loop, and one that is refused or has nothing
to queue has changed nothing. -/
theorem submission_wakes {c : Conductor σ β} {sent : List DriverSignal} (hdriver : c.driver = some sent)
    (call : Submission β) : call.Announced c sent where
  wakes _ _ hearlier := (call.sentOrKept hdriver).resolve_right fun hkept =>
    Conductor.not_dueEarlier_of_nextDue? hkept.2 hearlier
  once := call.sentOrKept hdriver
  refused := call.atomic_make c
  idle := by
    rintro entries rfl hfinite
    have hnone : entries.filter (·.1.isFinite) = [] :=
      List.filter_eq_nil_iff.mpr fun entry hentry => Bool.not_eq_true _ ▸ hfinite entry hentry
    rw [Submission.make, c.submitAll_eq, hnone]
    rfl

/-- A clock with a driver loop, which has something to do at beat 4. -/
def fourAhead : Conductor Offline Unit :=
  (({ Conductor.offline with driver := some [] } : Conductor Offline Unit).scheduleAt 4.0 ⟨"late", ()⟩).2

/-- A batch with one finite beat, which is earlier, and a beat that is refused. -/
theorem earlier_batch_wakes :
    let call : Submission Unit := .batch [(0.0 / 0.0, .act ⟨"never", ()⟩, none), (2.0, .act ⟨"early", ()⟩, none)]
    fourAhead.driver = some [.wake] ∧ fourAhead.DueEarlier (call.make fourAhead).2 ∧
      (call.make fourAhead).2.driver = some [.wake, .wake] ∧
      ((Submission.atBeat (1.0 / 0.0) ⟨"never", ()⟩).make fourAhead).2 = fourAhead := by
  intro call
  have hdriver : fourAhead.driver = some [.wake] := by decide +kernel
  have hnext : fourAhead.nextDue? = some 4.0 := by decide +kernel
  have hearlier : fourAhead.DueEarlier (call.make fourAhead).2 := by
    refine ⟨2.0, by decide +kernel, fun before hbefore => ?_⟩
    rw [hnext] at hbefore
    obtain rfl := Option.some.inj hbefore
    decide +kernel
  exact ⟨hdriver, hearlier, (submission_wakes hdriver call).wakes _ rfl hearlier,
    (submission_wakes hdriver (.atBeat (1.0 / 0.0) ⟨"never", ()⟩)).refused (.invalidBeat (1.0 / 0.0))
      (by decide +kernel)⟩

end Cadence
