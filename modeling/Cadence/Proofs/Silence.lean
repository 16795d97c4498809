import Mathlib
import Cadence.Proofs.Accounting

/-!
# Entries that a reset silences

An entry that a point queues carries a token of the generation that the point is in. A reset takes the
point to its next generation, and from then on the token is dead. This file proves that tokens are dead
for that reason only: over any history, the token of an entry is alive exactly if no operation has reset
its point since the entry was accepted.

- `History.generation_le` is the invariant, on the entries that are queued or under way;
- `reset_silences` says what it means for an entry when it is started, also in the middle of a tick.
-/

namespace Cadence

variable {σ β : Type}

/-- Some operation has reset the point since the entry of that name was accepted: the name was handed
out before. -/
def ResetSince (events : List (Event σ β)) (q : PointId) (id : EntryId) : Prop :=
  ∃ op c, Event.called op c ∈ events ∧ op.Resets c q ∧ id.index < c.queue.submitted

/-- One more event matters only if it resets the point. -/
theorem resetSince_append_iff {events : List (Event σ β)} {event : Event σ β} {q : PointId}
    {id : EntryId} :
    ResetSince (events ++ [event]) q id ↔
      ResetSince events q id ∨
        ∃ op c, event = .called op c ∧ op.Resets c q ∧ id.index < c.queue.submitted := by
  constructor
  · rintro ⟨op, c, hmem, hresets, hlt⟩
    rcases List.mem_append.mp hmem with hmem | hmem
    · exact .inl ⟨op, c, hmem, hresets, hlt⟩
    · exact .inr ⟨op, c, (List.mem_singleton.mp hmem).symm, hresets, hlt⟩
  · rintro (⟨op, c, hmem, hresets, hlt⟩ | ⟨op, c, rfl, hresets, hlt⟩)
    · exact ⟨op, c, List.mem_append_left _ hmem, hresets, hlt⟩
    · exact ⟨op, c, List.mem_append_right _ (.head _), hresets, hlt⟩

variable [Transport σ]

/-- A call is told with the clock that it is made on. -/
theorem Step.clock_of_called {m m' : Moment σ β} {op : Operation σ β} {c : Conductor σ β}
    (h : Step m (.called op c) m') : m.clock = c := by
  cases h
  rfl

namespace History

variable {events : List (Event σ β)} {m : Moment σ β}

/-- Names are handed out in order, so an operation found no more of them than there are now. -/
theorem submitted_le (h : History events m) {op : Operation σ β} {c : Conductor σ β}
    (hmem : Event.called op c ∈ events) : c.queue.submitted ≤ m.clock.queue.submitted := by
  induction h using History.induction with
  | created => cases hmem
  | stepped h hstep ih =>
    obtain ⟨requests, heffect, -⟩ := hstep.effect h.sound
    rw [heffect.submitted]
    rcases List.mem_append.mp hmem with hmem | hmem
    · exact (ih hmem).trans (Nat.le_add_right _ _)
    · cases List.mem_singleton.mp hmem
      rw [hstep.clock_of_called]
      exact Nat.le_add_right _ _

/-- No operation so far, the one that hands a name out included, has reset a point after that. -/
theorem not_resetSince_of_le (h : History events m) {event : Event σ β} {m' : Moment σ β}
    (hstep : Step m event m') {q : PointId} {id : EntryId}
    (hid : m.clock.queue.submitted ≤ id.index) : ¬ ResetSince (events ++ [event]) q id := by
  rw [resetSince_append_iff]
  rintro (⟨op, c, hmem, -, hlt⟩ | ⟨op, c, rfl, -, hlt⟩)
  · exact absurd (hlt.trans_le (h.submitted_le hmem)) (not_lt.mpr hid)
  · rw [hstep.clock_of_called] at hid
    exact absurd hlt (not_lt.mpr hid)

/-- The name of a pending entry was handed out. -/
theorem index_lt_submitted (h : History events m) {e : Entry (Task β)} (he : e ∈ m.pending) :
    e.id.index < m.clock.queue.submitted := by
  have hmem : e.id.index ∈ (m.pending ++ startedEntries events ++ droppedEntries events).map
      (·.id.index) :=
    List.mem_map_of_mem (List.mem_append_left _ (List.mem_append_left _ he))
  exact List.mem_range.mp (h.accounted.mem_iff.mp hmem)

/-- The token of a pending entry is of a generation that its point has reached, and which it has left
exactly if it was reset since the entry was accepted. -/
theorem generation_le (h : History events m) {e : Entry (Task β)} (he : e ∈ m.pending)
    {token : Token} (htoken : e.task.token? = some token) :
    e.owner = some token.point ∧
      ∃ node, m.clock.points.node? token.point = some node ∧
        token.generation ≤ node.generation ∧
        (token.generation = node.generation ↔ ¬ ResetSince events token.point e.id) := by
  induction h using History.induction with
  | created hcreate =>
    obtain ⟨-, hqueue, -⟩ := sound_create hcreate
    simp [Moment.pending, Moment.flying, hqueue, Queue.empty] at he
  | @stepped events m event m' h hstep ih =>
    obtain ⟨requests, heffect, -⟩ := hstep.effect h.sound
    rcases heffect.mem_pending he with hold | hnew
    · obtain ⟨howner, node, hnode, hle, hiff⟩ := ih hold
      obtain ⟨node', hnode', -, hreset, hkeep⟩ := heffect.points.node hnode
      refine ⟨howner, node', hnode', ?_⟩
      rw [resetSince_append_iff]
      by_cases hresets : event.Resets token.point
      · -- The entry was accepted before, so the reset counts for it.
        cases event with
        | called op c =>
          have hlt := h.index_lt_submitted hold
          rw [hstep.clock_of_called] at hlt
          rw [hreset hresets]
          have hcounts : ∃ op' c', Event.called op c = .called op' c' ∧
              op'.Resets c' token.point ∧ e.id.index < c'.queue.submitted :=
            ⟨op, c, rfl, hresets, hlt⟩
          exact ⟨by omega, fun heq => by omega, fun hnot => absurd (.inr hcounts) hnot⟩
        | _ => cases hresets
      · have hnone : ¬ ∃ op c, event = .called op c ∧ op.Resets c token.point ∧
            e.id.index < c.queue.submitted := by
          rintro ⟨op, c, rfl, hr, -⟩
          exact hresets hr
        rw [hkeep hresets]
        simp only [hnone, or_false]
        exact ⟨hle, hiff⟩
    · -- A new entry has a live token, and nothing was reset after it was accepted.
      obtain ⟨r, hr, heq⟩ := Request.mem_entries hnew
      have hrtoken : r.task.token? = some token := by
        rw [heq] at htoken
        exact htoken
      obtain ⟨hlive, howner⟩ := (heffect.backed r hr).token token hrtoken
      obtain ⟨node, hnode, hgen⟩ := Points.isLive_iff.mp hlive
      refine ⟨by rw [heq]; exact howner, node, hnode, hgen.ge, ?_⟩
      have hfresh := h.not_resetSince_of_le hstep (q := token.point)
        (Request.le_index_of_mem_entries hnew)
      exact iff_of_true hgen.symm hfresh

/-- The token of a pending entry is alive exactly if its point was not reset since the entry was
accepted. -/
theorem isLive_iff (h : History events m) {e : Entry (Task β)} (he : e ∈ m.pending)
    {token : Token} (htoken : e.task.token? = some token) :
    m.clock.points.isLive token = true ↔ ¬ ResetSince events token.point e.id := by
  obtain ⟨-, node, hnode, -, hiff⟩ := h.generation_le he htoken
  -- A token is alive if it is of the generation that its point is in.
  rw [← hiff, Points.isLive, hnode]
  simp [eq_comm]

end History

/-! ## What becomes of a started entry -/

/-- An entry with a token does nothing when it is started, if its point was reset since it was accepted,
be it that the entry was still queued then or was already taken off the queue by the tick under way.
Otherwise it does its work, whatever was reset that its point does not derive from: an action of the
point is run, or the point moves on. -/
theorem reset_silences {before after : List (Event σ β)} {m : Moment σ β} {reading : Float}
    {e : Entry (Task β)} {c : Conductor σ β}
    (h : History (before ++ .started reading e c :: after) m) {token : Token}
    (htoken : e.task.token? = some token) {ω : Type} (perform : Performer σ β ω) (w : ω) :
    e.owner = some token.point ∧
      (ResetSince before token.point e.id →
        Conductor.runTask perform e.task (c, w) = (.ok (), (c, w))) ∧
      (¬ ResetSince before token.point e.id →
        (∀ action, e.task = .actFor token action →
          Conductor.runTask perform e.task (c, w) = perform action.body (c, w)) ∧
        ∀ beat, e.task = .rearm token beat →
          Conductor.runTask perform e.task (c, w) = (.ok (), (c.rearm token beat, w))) := by
  obtain ⟨rest, u, hbefore⟩ := h.before_started
  have hmem := Moment.mem_pending_next c reading e rest u
  obtain ⟨howner, -⟩ := hbefore.generation_le hmem htoken
  have hlive := hbefore.isLive_iff hmem htoken
  refine ⟨howner, fun hreset => ?_, fun hkept => ⟨fun action htask => ?_, fun beat htask => ?_⟩⟩
  · have hdead : c.points.isLive token = false := by
      rw [← Bool.not_eq_true, hlive]
      exact not_not_intro hreset
    cases htask : e.task with
    | act action => simp [htask, Task.token?] at htoken
    | tempo beat bpm => simp [htask, Task.token?] at htoken
    | actFor token' action =>
      obtain rfl : token' = token := by simpa [htask, Task.token?] using htoken
      simp [Conductor.runTask, hdead]
    | rearm token' beat =>
      obtain rfl : token' = token := by simpa [htask, Task.token?] using htoken
      simp [Conductor.runTask, hdead]
  · simp [htask, Conductor.runTask, hlive.mpr hkept]
  · simp [htask, Conductor.runTask, hlive.mpr hkept]

/-- A clock with a point whose action is queued for the first beat. -/
def Conductor.pointed : Conductor Offline Unit :=
  offline.applyAll [.createPoint .persistent, .addAction ⟨0⟩ ⟨"cue", ()⟩, .bind ⟨0⟩ 0.0]

/-- The action does nothing if its point is cleared after it was taken off the queue. -/
theorem pointed_silenced :
    ∃ e, Conductor.pointed.drain.1 = [e] ∧ e.task.token? = some ⟨⟨0⟩, 0⟩ ∧
      Conductor.runTask LawfulPerformer.still.perform e.task
          ((Conductor.pointed.drain.2.clearPoint ⟨0⟩).2, ()) =
        (.ok (), ((Conductor.pointed.drain.2.clearPoint ⟨0⟩).2, ())) := by
  obtain ⟨e, he⟩ := List.length_eq_one_iff.mp
    (show Conductor.pointed.drain.1.length = 1 by decide +kernel)
  have hall : ∀ e ∈ Conductor.pointed.drain.1, e.task.token? = some ⟨⟨0⟩, 0⟩ ∧
      e.id.index < Conductor.pointed.drain.2.queue.submitted := by decide +kernel
  obtain ⟨htoken, hindex⟩ := hall e (he ▸ .head _)
  refine ⟨e, he, htoken, ?_⟩
  have hmeasured := Run.single (Step.measure (c := Conductor.pointed) (u := []))
  rw [he] at hmeasured
  have hpermitted : (Operation.clearPoint ⟨0⟩).Permitted Conductor.pointed.drain.2 := trivial
  have hrun := (hmeasured.snoc (.call hpermitted)).snoc .start
  have hhistory := (Conductor.history_offline (by simp [Operation.Permitted])).append hrun
  rw [← List.append_assoc] at hhistory
  refine (reset_silences hhistory htoken LawfulPerformer.still.perform ()).2.1 ?_
  exact ⟨.clearPoint ⟨0⟩, Conductor.pointed.drain.2, by simp, .refl, hindex⟩

end Cadence
