import Mathlib
import Cadence.Proofs.Run.Client
import Cadence.Proofs.Run.Program
import Cadence.Proofs.Run.Turn
import Cadence.Proofs.Session.Recorded

/-!
# A session that is not followed

A clock that is never asked to follow its session never touches it. So two clocks that differ in nothing
but the session cannot be told apart: whatever a client does with them, it is answered the same, and
leaves the same behind. The invariant is that nothing is followed, and everything that could reach the
session tests that first.

- `Alike`: two stages of a run that do the same with two sessions, as long as nobody asks to follow them;
- `Conductor.alike_tick`: ticks are alike if the bodies of the actions are;
- `Client.alike_run`: so clients are alike;
- `unfollowed_session_unseen`: two runs with two sessions are the same, and no call is made.
-/

namespace Cadence

variable {σ τ β ω α γ : Type}

/-- Two stages of a run, with two sessions, that do the same as long as nothing is followed. What goes on
around the clock tells whether somebody has asked for the session to be followed by the end, and then they
may differ. -/
def Alike (quiet : ω → Prop) (φ : σ → τ) (f : Conductor σ β × ω → α × (Conductor σ β × ω))
    (g : Conductor τ β × ω → α × (Conductor τ β × ω)) : Prop :=
  ∀ s, quiet (f s).2.2 → quiet s.2 ∧ (s.1.following = none →
    (f s).2.1.following = none ∧ g (s.1.mapSession φ, s.2) = ((f s).1, (f s).2.1.mapSession φ, (f s).2.2))

namespace Alike

variable {quiet : ω → Prop} {φ : σ → τ} {f : Conductor σ β × ω → α × (Conductor σ β × ω)}
  {g : Conductor τ β × ω → α × (Conductor τ β × ω)}
  {k : α → Conductor σ β × ω → γ × (Conductor σ β × ω)}
  {l : α → Conductor τ β × ω → γ × (Conductor τ β × ω)}

/-- Something is answered, and nothing is done. -/
theorem pure (answer : α) :
    Alike quiet φ (fun s => (answer, s)) (fun s : Conductor τ β × ω => (answer, s)) :=
  fun _ hquiet => ⟨hquiet, fun hidle => ⟨hidle, rfl⟩⟩

/-- One stage goes on from the other. -/
theorem bind (h : Alike quiet φ f g) (h' : ∀ answer, Alike quiet φ (k answer) (l answer)) :
    Alike quiet φ (fun s => k (f s).1 (f s).2) (fun s => l (g s).1 (g s).2) := by
  intro s hquiet
  -- That nobody has asked is known at the end, and goes back to the start. That nothing is followed is
  -- known at the start, and goes on to the end.
  obtain ⟨hbetween, hrest⟩ := h' (f s).1 (f s).2 hquiet
  obtain ⟨hbefore, hfirst⟩ := h s hbetween
  refine ⟨hbefore, fun hidle => ?_⟩
  obtain ⟨hidle', heq⟩ := hfirst hidle
  obtain ⟨hidle'', heq'⟩ := hrest hidle'
  exact ⟨hidle'', by simp only [heq, heq']⟩

/-- What is done depends on something that the session has no part in. -/
theorem ite {f' : Conductor σ β × ω → α × (Conductor σ β × ω)}
    {g' : Conductor τ β × ω → α × (Conductor τ β × ω)} {p : Conductor σ β → Bool}
    {q : Conductor τ β → Bool} (hpq : ∀ c, q (c.mapSession φ) = p c) (h : Alike quiet φ f g)
    (h' : Alike quiet φ f' g') :
    Alike quiet φ (fun s => if p s.1 then f s else f' s) (fun s => if q s.1 then g s else g' s) := by
  intro s
  simp only [hpq]
  cases p s.1 with
  | true => exact h s
  | false => exact h' s

/-- The clock does something by itself. -/
theorem of_clock {f : Conductor σ β → α × Conductor σ β} {g : Conductor τ β → α × Conductor τ β}
    (hidle : ∀ c, c.following = none → (f c).2.following = none)
    (h : ∀ c, c.following = none → g (c.mapSession φ) = (f c).map id (Conductor.mapSession φ)) :
    Alike quiet φ (fun s => ((f s.1).1, (f s.1).2, s.2)) (fun s => ((g s.1).1, (g s.1).2, s.2)) :=
  fun s hquiet => ⟨hquiet, fun hnone => ⟨hidle s.1 hnone, by simp only [h s.1 hnone]; rfl⟩⟩

/-- Something goes on around the clock, and if nobody has asked by its end, nobody had before. -/
theorem around (change : ω → ω) (hchange : ∀ outside, quiet (change outside) → quiet outside) :
    Alike quiet φ (fun s => ((), s.1, change s.2))
      (fun s : Conductor τ β × ω => ((), s.1, change s.2)) :=
  fun s hquiet => ⟨hchange s.2 hquiet, fun hidle => ⟨hidle, rfl⟩⟩

end Alike

/-! ## Stages of a tick -/

namespace Conductor

variable [Transport σ] {P : Performer σ β ω}

/-- What becomes of the report and the clock when an entry has been carried out. -/
def noteEntry (entry : Entry (Task β)) (report : TickReport) :
    Except String Unit → Conductor σ β × ω → TickReport × (Conductor σ β × ω)
  | .ok (), s => ({ report with fired := report.fired + 1 }, s)
  | .error reason, s =>
    ({ report with failures := report.failures ++ [failureOf entry reason] },
      s.1.reportFailure entry reason, s.2)

theorem runEntry_eq (entry : Entry (Task β)) (report : TickReport) (s : Conductor σ β × ω) :
    runEntry P entry (report, s) =
      noteEntry entry report (runTask P entry.task s).1 (runTask P entry.task s).2 := by
  simp only [runEntry]
  rcases runTask P entry.task s with ⟨_ | _, s'⟩ <;> rfl

/-- How the passes go on when one has measured the beat and found what is due. -/
def passFound (P : Performer σ β ω) (passes : ℕ) (report : TickReport) :
    Float × List (Entry (Task β)) → Conductor σ β × ω → TickReport × (Conductor σ β × ω)
  | (beat, []), s => ({ report with beat }, s)
  | (beat, entry :: rest), s =>
    runPasses P passes ((entry :: rest).foldl (fun state entry => runEntry P entry state)
      ({ report with beat }, s))

theorem runPasses_succ (passes : ℕ) (report : TickReport) (s : Conductor σ β × ω) :
    runPasses P (passes + 1) (report, s) =
      passFound P passes report (s.1.now, s.1.drain.1) (s.1.drain.2, s.2) := by
  simp only [runPasses]
  rcases s.1.drain with ⟨_ | _, c⟩ <;> rfl

/-- How a tick goes on after the reconciliation. -/
def reconciled (P : Performer σ β ω) :
    Reconciliation → Conductor σ β × ω → Option TickReport × (Conductor σ β × ω)
  | .unbounded, s => (none, s)
  | _, s => (some (runDue P s).1, (runDue P s).2)

theorem tick_eq (s : Conductor σ β × ω) :
    tick P s = reconciled P s.1.reconcileIfDue.1 (s.1.reconcileIfDue.2, s.2) := by
  simp only [tick]
  rcases s.1.reconcileIfDue with ⟨_ | _, c⟩ <;> rfl

end Conductor

/-! ## Ticks -/

namespace Conductor

variable [Transport σ] [Transport τ] {quiet : ω → Prop} {φ : σ → τ} {P : Performer σ β ω}
  {Q : Performer τ β ω}

/-- Carrying out a task is alike if the bodies of the actions are. -/
theorem alike_runTask (h : ∀ body, Alike quiet φ (P body) (Q body)) (task : Task β) :
    Alike quiet φ (runTask P task) (runTask Q task) := by
  cases task with
  | act action => exact h action.body
  | actFor token action =>
    exact .ite (p := (·.points.isLive token)) (q := (·.points.isLive token)) (fun _ => rfl)
      (h action.body) (.pure _)
  | rearm token beat =>
    refine .ite (p := (·.points.isLive token)) (q := (·.points.isLive token)) (fun _ => rfl)
      (.of_clock (f := fun c : Conductor σ β => ((.ok () : Except String Unit), c.rearm token beat))
        (g := fun c : Conductor τ β => ((.ok () : Except String Unit), c.rearm token beat))
        (fun c hidle => ?_) fun c _ => ?_) (.pure _)
    · exact (congrArg Follower.following (c.rearm_untouched token beat).follower).trans hidle
    · exact congrArg (Prod.mk _) (c.rearm_mapSession φ token beat)
  | tempo beat bpm =>
    -- The tempo would be proposed to the session, if it was followed.
    have hset : Alike quiet φ _ _ := .of_clock
      (f := fun c : Conductor σ β => c.changeTempoAt beat bpm)
      (g := fun c : Conductor τ β => c.changeTempoAt beat bpm)
      (fun c hidle => (c.changeTempoAt_following beat bpm).trans hidle)
      fun c hidle => changeTempoAt_mapSession (.inr hidle) beat bpm
    have htask := hset.bind fun answer => .pure (answerOf answer)
    simp only [← runTask_tempo (P := P), ← runTask_tempo (P := Q)] at htask
    exact htask

/-- Running an entry is alike, and so is its report. -/
theorem alike_runEntry (h : ∀ body, Alike quiet φ (P body) (Q body)) (entry : Entry (Task β))
    (report : TickReport) :
    Alike quiet φ (fun s => runEntry P entry (report, s)) (fun s => runEntry Q entry (report, s)) := by
  simp only [runEntry_eq]
  refine (alike_runTask h entry.task).bind fun answer => ?_
  cases answer with
  | ok => exact .pure _
  | error reason =>
    exact .of_clock (f := fun c : Conductor σ β => (_, c.reportFailure entry reason))
      (g := fun c : Conductor τ β => (_, c.reportFailure entry reason)) (fun _ hidle => hidle)
      fun _ _ => rfl

theorem alike_batch (h : ∀ body, Alike quiet φ (P body) (Q body)) (due : List (Entry (Task β)))
    (report : TickReport) :
    Alike quiet φ (fun s => due.foldl (fun state entry => runEntry P entry state) (report, s))
      (fun s => due.foldl (fun state entry => runEntry Q entry state) (report, s)) := by
  induction due generalizing report with
  | nil => exact .pure report
  | cons entry rest ih => exact (alike_runEntry h entry report).bind ih

/-- The passes of a tick are alike. -/
theorem alike_runPasses (h : ∀ body, Alike quiet φ (P body) (Q body)) (passes : ℕ)
    (report : TickReport) :
    Alike quiet φ (fun s => runPasses P passes (report, s))
      (fun s => runPasses Q passes (report, s)) := by
  induction passes generalizing report with
  | zero => exact .pure report
  | succ passes ih =>
    -- The beat is measured and the queue drained, and then it is known whether there is another pass.
    have hdrain : Alike quiet φ _ _ := .of_clock
      (f := fun c : Conductor σ β => ((c.now, c.drain.1), c.drain.2))
      (g := fun c : Conductor τ β => ((c.now, c.drain.1), c.drain.2)) (fun _ hidle => hidle)
      fun _ _ => rfl
    simp only [runPasses_succ]
    refine hdrain.bind fun ⟨beat, due⟩ => ?_
    cases due with
    | nil => exact .pure _
    | cons entry rest => exact (alike_batch h (entry :: rest) _).bind ih

/-- Ticks are alike if the bodies of the actions are. -/
theorem alike_tick (h : ∀ body, Alike quiet φ (P body) (Q body)) :
    Alike quiet φ (tick P) (tick Q) := by
  have hreconcile : Alike quiet φ _ _ := .of_clock
    (f := fun c : Conductor σ β => c.reconcileIfDue) (g := fun c : Conductor τ β => c.reconcileIfDue)
    (fun c hidle => ?_) fun c hidle => reconcileIfDue_mapSession (.inr hidle)
  · have htick := hreconcile.bind (k := reconciled P) (l := reconciled Q) fun found => ?_
    · simpa only [← tick_eq] using htick
    · have hdue := (alike_runPasses h TickReport.maxPasses ⟨0.0, 0, []⟩).bind
        fun report => .pure (some report)
      cases found with
      | unbounded => exact .pure none
      | _ => exact hdue
  · -- A reconciliation is due only while a session is followed.
    obtain ⟨-, hkept⟩ | ⟨known, -, -, hknown, -⟩ := c.reconcileIfDue_cases
    · exact hkept.trans hidle
    · exact absurd (hknown.symm.trans hidle) (Option.some_ne_none known)

end Conductor

/-! ## Clients -/

section

variable {ν : Type}

/-- The operation asks for the session to be followed. -/
def Operation.asksToFollow : Operation σ β → Bool
  | .enableSync .. | .enableConfiguredSync => true
  | _ => false

/-- A call that asks for the session to be followed. -/
def Observation.asksToFollow : Observation β ν → Bool
  | .called op _ => op.asksToFollow
  | _ => false

/-- Nobody has asked for the session to be followed. -/
def Unasked (seen : List (Observation β ν)) : Prop := ∀ o ∈ seen, o.asksToFollow = false

instance (seen : List (Observation β ν)) : Decidable (Unasked seen) :=
  inferInstanceAs (Decidable (∀ o ∈ seen, o.asksToFollow = false))

theorem Unasked.of_append {seen rest : List (Observation β ν)} (h : Unasked (seen ++ rest)) :
    Unasked seen := fun o ho => h o (List.mem_append_left rest ho)

namespace Operation

theorem follows_mapSession (φ : σ → τ) {op : Operation σ β} (h : op.asksToFollow = false)
    (c : Conductor τ β) : (op.mapSession φ).follows c = none := by
  cases op with
  | enableSync | enableConfiguredSync => simp [asksToFollow] at h
  | _ => rfl

variable [Transport σ] [Transport τ]

omit [Transport τ] in
/-- As long as nothing is followed, nothing will be, unless the operation asks for it. -/
theorem idle_apply {op : Operation σ β} {c : Conductor σ β} (hidle : c.following = none)
    (h : op.follows c = none) : (op.apply c).following = none := by
  have hrefollows := op.refollows c
  generalize (op.apply c).following = left at hrefollows ⊢
  cases hrefollows with
  | kept => exact hidle
  | left => rfl
  | jumped => rw [hidle, Option.map_none]
  | joined hop | changed hop => exact nomatch h.symm.trans hop
  | reconciled hknown => exact nomatch hidle.symm.trans hknown

/-- Calling an operation is alike if it does not ask for the session to be followed. -/
theorem alike_callBy (φ : σ → τ) (op : Operation Offline β) :
    Alike (Unasked (ν := ν)) φ op.callBy op.callBy := by
  intro s hquiet
  refine ⟨hquiet.of_append, fun hidle => ?_⟩
  -- The call is the last thing in the journal, where nobody asks.
  have hasks : op.asksToFollow = false := hquiet _ (List.mem_append_right _ (List.mem_singleton_self _))
  have hfollows := op.follows_mapSession (fun _ => s.1.follower.session) hasks s.1
  obtain ⟨happly, hanswer⟩ := apply_mapSession (φ := φ) (.inr ⟨hidle, hfollows⟩)
  rw [mapSession_mapSession] at happly hanswer
  refine ⟨idle_apply hidle hfollows, ?_⟩
  unfold callBy
  simp only [Conductor.follower_mapSession, Follower.session_mapSession]
  exact congrArg₂ (fun answer c => (answer, c, s.2 ++ [.called op answer])) hanswer happly

end Operation

namespace Client

variable [Transport σ] [Transport τ] {φ : σ → τ}

/-- Clients are alike if the bodies of the actions are. -/
theorem alike_run {P : Performer σ β (List (Observation β ν))}
    {Q : Performer τ β (List (Observation β ν))}
    (h : ∀ body, Alike Unasked φ (P body) (Q body)) (client : Client β ν) :
    Alike Unasked φ (client.run P) (client.run Q) := by
  induction client with
  | done outcome => exact .pure outcome
  | look next ih =>
    -- What is seen of the clock is the same, because the session is left out.
    exact fun s => ih (s.1.mapSession fun _ => {}) s.2 s
  | note text next ih =>
    exact (Alike.around (· ++ [.noted text]) fun _ => Unasked.of_append).bind fun _ => ih
  | call op next ih => exact (op.alike_callBy φ).bind ih
  | tick next ih =>
    exact (Conductor.alike_tick h).bind fun report =>
      (Alike.around (· ++ [.ticked report]) fun _ => Unasked.of_append).bind fun _ => ih report

/-- Bodies of actions are alike. -/
theorem alike_performer (bodies : β → Client β ν) (depth : ℕ) (body : β) :
    Alike Unasked φ (performer (σ := σ) bodies depth body) (performer (σ := τ) bodies depth body) := by
  induction depth generalizing body with
  | zero => exact .pure _
  | succ depth ih => exact alike_run ih (bodies body)

/-- A client plays the same with two sessions. -/
theorem play_mapSession (φ : σ → τ) (client : Client β ν) (bodies : β → Client β ν) (depth : ℕ)
    (config : Config) (time : WallTime) {session : σ}
    (h : ∀ run, client.play bodies depth config time session = .ok run → Unasked run.2.2) :
    client.play bodies depth config time (φ session) =
      (client.play bodies depth config time session).map fun run =>
        (run.1, run.2.1.mapSession φ, run.2.2) := by
  unfold play at h ⊢
  rw [Conductor.create_mapSession]
  cases hcreate : Conductor.create config time session with
  | error fault => rfl
  | ok c =>
    rw [hcreate] at h
    obtain ⟨-, -, hfollower, -⟩ := Conductor.create_cases hcreate
    have hidle : c.following = none := congrArg Follower.following hfollower
    have halike := alike_run (φ := φ) (alike_performer bodies depth) client
    obtain ⟨-, hsame⟩ := halike (c, []) (h _ rfl)
    exact congrArg Except.ok (hsame hidle).2

end Client

/-- **A session that is not followed.** A client that nowhere asks for the session to be followed, nor has
an action that does, cannot tell two sessions apart. If it is run on two clocks with the same settings, but
different sessions, then it ends the same way, all that is answered on the way is the same, and the clocks
that are left are the same but for the session. No call is ever made on the session, and what it is called
makes no difference either. -/
theorem unfollowed_session_unseen [Transport σ] [Transport τ] (client : Client β ν)
    (bodies : β → Client β ν) (depth : ℕ) (config : Config) (time : WallTime) (s : σ) (t : τ)
    (h : ∀ run, client.play bodies depth config time s = .ok run → Unasked run.2.2) :
    client.play bodies depth config time t =
        (client.play bodies depth config time s).map (fun run =>
          (run.1, run.2.1.mapSession fun _ => t, run.2.2)) ∧
      ∀ run, client.play bodies depth config time (Recorded.fresh s) = .ok run →
        run.2.1.follower.session = Recorded.fresh s := by
  refine ⟨client.play_mapSession (fun _ => t) bodies depth config time h, fun run hrun => ?_⟩
  -- The fresh record is a session like any other, so it is left as it was.
  rw [client.play_mapSession (fun _ => Recorded.fresh s) bodies depth config time h] at hrun
  cases hplay : client.play bodies depth config time s with
  | error fault => exact nomatch hplay ▸ hrun
  | ok plain =>
    rw [hplay] at hrun
    rw [← Except.ok.inj hrun]
    rfl

end

/-- A client that never asks for the session, but could run into it in many places: a tempo is set at the
next bar line and another in an action, the state of the follower is read, and it is told to leave. -/
def Client.unconcerned : Client Unit Unit :=
  .call (.setBpmAtNextBar 90.0) fun _ => .call (.scheduleAt 1.0 ⟨"hasten", ()⟩) fun _ =>
    .call (.moveTo 3000000) fun _ => .tick fun _ => .call .syncStatus fun _ => .call .disableSync fun _ =>
      .look fun clock _ => if clock.bpm = 90.0 then .done (.ok ()) else .done (.error "late")

/-- The bodies of its actions change the tempo. -/
def Client.hastening (_ : Unit) : Client Unit Unit := .call (.setBpm 100.0) fun _ => .done (.ok ())

/-- With a partner that would take over the tempo it is as with none. -/
theorem unconcerned_unseen :
    ∃ run, Client.unconcerned.play .hastening 1 {} ⟨0⟩ ({} : Partner) = .ok run ∧
      Client.unconcerned.play .hastening 1 {} ⟨0⟩ Offline.mk =
        .ok (run.1, run.2.1.mapSession fun _ => Offline.mk, run.2.2) ∧
      run.1 = .ok () ∧ run.2.1.bpm = 90.0 ∧ run.2.2.length = 7 := by
  have hplay := Conductor.eq_ok_get
    (Client.unconcerned.play Client.hastening 1 {} ⟨0⟩ ({} : Partner)) (by decide +kernel)
  have hunasked : ∀ run, Client.unconcerned.play Client.hastening 1 {} ⟨0⟩ ({} : Partner) = .ok run →
      Unasked run.2.2 := by
    intro run hrun
    rw [← Except.ok.inj (hplay.symm.trans hrun)]
    decide +kernel
  obtain ⟨hsame, -⟩ := unfollowed_session_unseen Client.unconcerned Client.hastening 1 {} ⟨0⟩
    ({} : Partner) Offline.mk hunasked
  rw [hplay] at hsame
  exact ⟨_, hplay, hsame, by decide +kernel, by decide +kernel, by decide +kernel⟩

end Cadence
