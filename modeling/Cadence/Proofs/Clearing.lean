import Mathlib
import Cadence.Proofs.Silence

/-!
# What a clear leaves of earlier entries

A clear and a jump take everything off the queue and reset every point. An entry that was accepted
before can then only be started by a pass that had already drained it, that is, if an action cleared or
jumped in the middle of a tick. If such an entry carries a token, it does nothing.

- `Run.mem_pending_of_lt`: what is pending under an early name has been pending all along;
- `swept_entries`: what becomes of the entries that were accepted before a clear or a jump;
- `jump_then_old_bar`: a plain action or a tempo change at a bar line carries no token, so it is still
  carried out, and the tempo change takes the clock away from the beat that it jumped to.
-/

namespace Cadence

variable {σ β : Type} [Transport σ]

/-- The operation drops every entry and resets every point: a clear does, and so does a jump that is not
refused. -/
def Operation.sweeps (op : Operation σ β) (c : Conductor σ β) : Bool :=
  match op with
  | .clear => true
  | .setTime beat => (c.setTime beat).1.isOk
  | _ => false

namespace Operation

variable {op : Operation σ β} {c : Conductor σ β}

omit [Transport σ] in
/-- It resets every point. -/
theorem resets_of_sweeps (h : op.sweeps c = true) (q : PointId) : op.Resets c q := by
  cases op with
  | clear => trivial
  | setTime beat =>
    by_contra hnot
    rw [sweeps, c.setTime_of_not_isFinite (Bool.eq_false_iff.mpr hnot)] at h
    cases h
  | _ => cases h

/-- It leaves the queue empty, and hands out no name. -/
theorem queue_of_sweeps (h : op.sweeps c = true) :
    (op.apply c).queue = ⟨[], c.queue.submitted⟩ := by
  cases op with
  | clear => rfl
  | setTime beat =>
    simp only [sweeps, apply] at h ⊢
    unfold Conductor.setTime at h ⊢
    split at h
    · cases h
    · rfl
  | _ => cases h

end Operation

/-- What is pending after a run under a name that was handed out before it, has been pending since. -/
theorem Run.mem_pending_of_lt {m m' : Moment σ β} {events : List (Event σ β)} (hs : Sound m)
    (h : Run m events m') :
    m.clock.queue.submitted ≤ m'.clock.queue.submitted ∧
      ∀ e ∈ m'.pending, e.id.index < m.clock.queue.submitted → e ∈ m.pending := by
  induction h with
  | nil => exact ⟨le_rfl, fun e he _ => he⟩
  | snoc hrun hstep ih =>
    obtain ⟨hle, hold⟩ := ih
    obtain ⟨requests, heffect, -⟩ := hstep.effect (hrun.sound hs)
    rw [heffect.submitted]
    refine ⟨hle.trans (Nat.le_add_right _ _), fun e he hlt => ?_⟩
    rcases heffect.mem_pending he with he | hnew
    · exact hold e he hlt
    · -- A new entry gets a name that was not handed out before.
      have hindex := Request.le_index_of_mem_entries hnew
      exact absurd (hlt.trans_le hle) (not_lt.mpr hindex)

/-- A task whose token is dead does nothing. -/
theorem Conductor.runTask_of_not_isLive {ω : Type} (perform : Performer σ β ω) {task : Task β}
    {token : Token} (htoken : task.token? = some token) {c : Conductor σ β}
    (hdead : c.points.isLive token = false) (w : ω) :
    Conductor.runTask perform task (c, w) = (.ok (), (c, w)) := by
  cases task with
  | act | tempo => cases htoken
  | actFor token' | rearm token' =>
    obtain rfl : token' = token := Option.some.inj htoken
    simp [Conductor.runTask, hdead]

/-- After a clear, or a jump that is not refused, nothing is queued. An entry that was accepted before
is started later only if a pass under way had drained it by then, and does nothing if it carries a
token. -/
theorem swept_entries {before after : List (Event σ β)} {m : Moment σ β} {op : Operation σ β}
    {c : Conductor σ β} (h : History (before ++ .called op c :: after) m) (hsweeps : op.sweeps c = true) :
    (op.apply c).queue.entries = [] ∧
      ∃ u, History before ⟨c, u⟩ ∧
        ∀ reading e c', Event.started reading e c' ∈ after →
          e.id.index < c.queue.submitted →
          (∃ pass ∈ u, e ∈ pass.rest) ∧
            ∀ token, e.task.token? = some token →
              ∀ {ω : Type} (perform : Performer σ β ω) (w : ω),
                Conductor.runTask perform e.task (c', w) = (.ok (), (c', w)) := by
  obtain ⟨⟨c₀, u⟩, hbefore, hrun⟩ := h.split
  obtain ⟨m₁, hcall, hafter⟩ := hrun.head
  obtain rfl : c₀ = c := hcall.clock_of_called
  obtain rfl : m₁ = ⟨op.apply c₀, u⟩ := by
    cases hcall
    rfl
  refine ⟨by rw [op.queue_of_sweeps hsweeps], u, hbefore, fun reading e c' hstarted hearly => ?_⟩
  -- What is started was pending when the events between the call and the start were over.
  obtain ⟨during, later, rfl⟩ := List.append_of_mem hstarted
  obtain ⟨rest, u', hduring⟩ := hafter.before_started
  have hmem := Moment.mem_pending_next c' reading e rest u'
  refine ⟨?_, fun token htoken ω perform w => ?_⟩
  · -- Right after the call only what is under way is pending.
    have hold := (hduring.mem_pending_of_lt (hcall.sound hbefore.sound)).2 e hmem
    simp only [op.queue_of_sweeps hsweeps, Moment.pending, List.nil_append] at hold
    exact List.mem_flatMap.mp (hold hearly)
  · have hreset : ResetSince (before ++ .called op c₀ :: during) token.point e.id :=
      ⟨op, c₀, by simp, op.resets_of_sweeps hsweeps token.point, hearly⟩
    have hhistory := hbefore.append (.cons hcall hduring)
    refine Conductor.runTask_of_not_isLive perform htoken ?_ w
    rw [← Bool.not_eq_true, hhistory.isLive_iff hmem htoken]
    exact not_not_intro hreset

/-- The clock with the action of the point for the first beat, cleared while a pass starts it. -/
theorem pointed_swept :
    ∃ e, Conductor.pointed.drain.1 = [e] ∧
      Conductor.pointed.drain.2.clear.queue.entries = [] ∧
      Conductor.runTask LawfulPerformer.still.perform e.task
          (Conductor.pointed.drain.2.clear, ()) =
        (.ok (), (Conductor.pointed.drain.2.clear, ())) := by
  -- The clear happens after the entry was drained and before it is started.
  obtain ⟨e, he⟩ := List.length_eq_one_iff.mp
    (show Conductor.pointed.drain.1.length = 1 by decide +kernel)
  have hall : ∀ e ∈ Conductor.pointed.drain.1, e.task.token? = some ⟨⟨0⟩, 0⟩ ∧
      e.id.index < Conductor.pointed.drain.2.queue.submitted := by decide +kernel
  obtain ⟨htoken, hindex⟩ := hall e (he ▸ .head _)
  have hmeasured := (Conductor.history_offline (by simp [Operation.Permitted])).append
    (.single (Step.measure (c := Conductor.pointed) (u := [])))
  rw [he] at hmeasured
  have hpermitted : Operation.clear.Permitted Conductor.pointed.drain.2 := trivial
  have hhistory := hmeasured.append (.cons (.call hpermitted) (.single .start))
  obtain ⟨hempty, u, -, hstarted⟩ := swept_entries hhistory rfl
  have hdone := (hstarted _ e _ (.head _) hindex).2 _ htoken LawfulPerformer.still.perform ()
  exact ⟨e, he, hempty, hdone⟩

/-! ## Entries that are carried out all the same -/

/-- A tempo change is queued for beat 4 and an action for beat 3, and the clock gets to beat 4.5 before
it ticks. -/
def Conductor.oldBar : List (Operation Offline Unit) :=
  [.setBpmAtNextBar 60.0, .scheduleAt 3.0 ⟨"jump", ()⟩, .moveTo 2250000]

/-- Actions that jump to beat 100. -/
def LawfulPerformer.jumping : LawfulPerformer Offline Unit Unit :=
  ofOperations (fun _ => [.setTime 100.0]) (fun _ => .ok ()) (by simp [Operation.Permitted])

/-- An entry without a token is started after an operation that drops everything, and was accepted before
it. -/
def Escaping (events : List (Event σ β)) : Prop :=
  ∃ before op c after, events = before ++ .called op c :: after ∧ op.sweeps c = true ∧
    ∃ e ∈ startedEntries after, e.id.index < c.queue.submitted ∧ e.task.token? = none

/-- The events tell of such an entry. -/
def escapes : List (Event σ β) → Bool
  | [] => false
  | event :: later =>
    (match event with
      | .called op c => op.sweeps c &&
        (startedEntries later).any fun e => e.id.index < c.queue.submitted && e.task.token?.isNone
      | _ => false) || escapes later

omit [Transport σ] in
theorem escaping_of_escapes {events : List (Event σ β)} (h : escapes events = true) :
    Escaping events := by
  induction events with
  | nil => cases h
  | cons event later ih =>
    rcases (Bool.or_eq_true _ _).mp h with hhere | hlater
    · cases event with
      | called op c =>
        obtain ⟨hsweeps, hany⟩ := (Bool.and_eq_true _ _).mp hhere
        obtain ⟨e, he, hescapes⟩ := List.any_eq_true.mp hany
        obtain ⟨hearly, hnone⟩ := (Bool.and_eq_true _ _).mp hescapes
        exact ⟨[], op, c, later, rfl, hsweeps, e, he, of_decide_eq_true hearly,
          Option.isNone_iff_eq_none.mp hnone⟩
      | _ => cases hhere
    · obtain ⟨before, op, c, after, rfl, hescaping⟩ := ih hlater
      exact ⟨event :: before, op, c, after, rfl, hescaping⟩

/-- The action jumps to beat 100, and the tempo change that was queued before is carried out after that,
as of its old bar line: the tick ends at beat 6.25. -/
theorem jump_then_old_bar :
    History (callEvents Conductor.offline Conductor.oldBar ++
        LawfulPerformer.jumping.tickEvents (Conductor.offline.applyAll Conductor.oldBar, ()))
      ⟨(Conductor.tick LawfulPerformer.jumping.perform
        (Conductor.offline.applyAll Conductor.oldBar, ())).2.1, []⟩ ∧
      Escaping (callEvents Conductor.offline Conductor.oldBar ++
        LawfulPerformer.jumping.tickEvents (Conductor.offline.applyAll Conductor.oldBar, ())) ∧
      (Conductor.tick LawfulPerformer.jumping.perform
        (Conductor.offline.applyAll Conductor.oldBar, ())).2.1.now = 6.25 := by
  have hbefore : History (callEvents Conductor.offline Conductor.oldBar)
      ⟨Conductor.offline.applyAll Conductor.oldBar, []⟩ :=
    Conductor.history_offline (by simp [Conductor.oldBar, Operation.Permitted])
  refine ⟨hbefore.append (LawfulPerformer.run_tick (L := LawfulPerformer.jumping)
    (s := (Conductor.offline.applyAll Conductor.oldBar, ())) hbefore.sound
    (fun _ h => by cases h)).1, escaping_of_escapes (by decide +kernel), by decide +kernel⟩

end Cadence
