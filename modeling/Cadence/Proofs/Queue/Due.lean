import Mathlib
import Cadence.Proofs.Queue.Keyed

/-!
# What a drain takes

A drain takes entries from the head of the queue until it meets one that is due later. The queue is in
the order of bit patterns, then of priorities, then of names, while a drain compares numbers. On finite due
beats the two agree, so no entry that is due waits behind one that is not.

- `Valid.drainDue_eq_filter`, in the theory of the queue, says what is taken and what is left;
- `drainDue_drainDue`: a drain that is followed by a later one takes what the later one takes alone;
- `drainDue_exact`: a drain of any queue that calls lead to.
-/

namespace Cadence.Queue

variable {α : Type}

/-- A drain takes what is due and leaves what is not. -/
structure DrainsExactly (q : Queue α) (beat : Float) : Prop where
  /-- What is due at the beat or before it is taken. -/
  taken : (q.drainDue beat).1 = q.entries.filter (·.dueBeat ≤ beat)
  /-- It is taken by beat, then priority first, then by name. -/
  ascending : (q.drainDue beat).1.Pairwise fun d e => QueueKey.order d.key e.key = .lt
  /-- What is due after the beat is left, in the order in which it was. -/
  left : (q.drainDue beat).2.entries = q.entries.filter (beat < ·.dueBeat)
  /-- The next entry, if there is one, is due after the beat. -/
  next : ∀ due, (q.drainDue beat).2.nextDue? = some due → beat < due.value
  /-- With a drain at a later beat, or the same, it comes to that drain alone. -/
  again : ∀ later, beat ≤ later →
    (q.drainDue beat).1 ++ ((q.drainDue beat).2.drainDue later).1 = (q.drainDue later).1 ∧
      ((q.drainDue beat).2.drainDue later).2 = (q.drainDue later).2

/-- A drain and then another one at a later beat take together what the other one takes alone. -/
theorem drainDue_drainDue (q : Queue α) {beat later : Float} (h : beat ≤ later) :
    (q.drainDue beat).1 ++ ((q.drainDue beat).2.drainDue later).1 = (q.drainDue later).1 ∧
      ((q.drainDue beat).2.drainDue later).2 = (q.drainDue later).2 := by
  obtain ⟨es, submitted⟩ := q
  -- By induction on the entries, up to the first one that is due after the earlier beat.
  induction es with
  | nil => exact ⟨rfl, rfl⟩
  | cons e es ih =>
    by_cases hlater : beat < e.dueBeat
    · rw [drainDue_cons_of_lt hlater]
      exact ⟨rfl, rfl⟩
    · have hnot : ¬ later < e.dueBeat := fun hlt =>
        hlater (Number.below_of_atMost_of_below h hlt)
      obtain ⟨htaken, hleft⟩ := ih
      rw [drainDue_cons_of_not_lt hlater, drainDue_cons_of_not_lt hnot]
      exact ⟨congrArg (e :: ·) htaken, hleft⟩

/-- The entries of an ordered queue have ascending keys. -/
theorem Ordered.pairwise_key {q : Queue α} (h : q.Ordered) :
    q.entries.Pairwise fun d e => QueueKey.order d.key e.key = .lt :=
  h.sorted.imp (order_key _ _).mpr

/-- The head of what is left is one of the entries that are left. -/
theorem exists_mem_of_nextDue? {q : Queue α} {due : DueBeat} (h : q.nextDue? = some due) :
    ∃ e ∈ q.entries, e.due = due := by
  obtain ⟨e, hhead, hdue⟩ := Option.map_eq_some_iff.mp h
  exact ⟨e, List.mem_of_head? hhead, hdue⟩

/-- A valid queue is drained at every beat as it should be. -/
theorem Valid.drainsExactly {q : Queue α} (h : q.Valid) {beat : Float}
    (hbeat : beat.isNaN = false) : q.DrainsExactly beat := by
  obtain ⟨htaken, hleft⟩ := h.drainDue_eq_filter hbeat
  refine ⟨htaken, ?_, hleft, fun due hdue => ?_, fun later => q.drainDue_drainDue⟩
  · rw [htaken]
    exact h.pairwise_key.filter _
  · obtain ⟨e, he, rfl⟩ := exists_mem_of_nextDue? hdue
    rw [hleft] at he
    exact of_decide_eq_true (List.mem_filter.mp he).2

/-- Whatever calls led to a queue of finite due beats, a drain at a finite beat takes exactly what is due, in
order, and leaves exactly what is not, and it does not matter how many drains a beat is reached in. -/
theorem drainDue_exact (calls : List (Call α))
    (hfinite : ∀ e ∈ (empty.afterCalls calls).entries, e.dueBeat.isFinite = true) {beat : Float}
    (hbeat : beat.isFinite = true) : (empty.afterCalls calls).DrainsExactly beat := by
  have hvalid : (empty.afterCalls calls).Valid :=
    { toOrdered := ordered_empty.afterCalls calls, finite := hfinite }
  exact hvalid.drainsExactly (Number.isNaN_of_isFinite hbeat)

/-- Both zeros are due at zero. The negative one is ahead of the other even without priority, an entry
with priority is ahead of those of its own beat, and an entry that is due later stays. -/
theorem zeros_drainDue_exact :
    let calls : List (Call ℕ) :=
      [.push (.ofFloat 3.0) 0 none, .push (.ofFloat 0.0) 1 none, .pushPriority (.ofFloat 0.0) 2,
        .push (.ofFloat (-0.0)) 3 none, .push (.ofFloat (-1.0)) 4 none, .remove ⟨4⟩]
    let q := (empty : Queue ℕ).afterCalls calls
    (q.drainDue 0.0).1.map (·.task) = [3, 2, 1] ∧
      (q.drainDue 0.0).2.entries.map (·.task) = [0] ∧ q.DrainsExactly 0.0 := by
  intro calls q
  have hfinite : ∀ e ∈ q.entries, e.dueBeat.isFinite = true := by decide +kernel
  have hbeat : (0.0 : Float).isFinite = true := by decide +kernel
  exact ⟨by decide +kernel, by decide +kernel, drainDue_exact calls hfinite hbeat⟩

end Cadence.Queue
