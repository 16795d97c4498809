import Mathlib
import Cadence.Proofs.Number.Cycle
import Cadence.Proofs.Run.Program
import Cadence.Proofs.Session.Recorded

/-!
# Failed reconciliations

A reconciliation fails if the session cannot be read, or reports a tempo that cannot be adopted. Failures
in a row are counted, from the call that starts to follow the session or from the last reconciliation that
succeeded, and every so many of them there is a warning. A failure changes nothing but the count and the
beat of the next reconciliation. The follower is looked at by itself here: whatever is called on it, and
whatever happens to the playhead and to the session in between.

- `Correction.plan?_isSome`: there is an answer to every session that was read, if the limit is a bound;
- `Follower.reconcile_of_unreadable`, `Follower.reconcile_of_readable`: what one reconciliation does;
- `Follower.Counts.called`: a call keeps the count right;
- `Follower.failures_counted`: the count, and what every failure and every success leaves behind.
-/

namespace Cadence

open Number

/-! ## A limit that is a bound -/

/-- The bounds of a limited correction are in order if the limit is not below zero. -/
theorem neg_le_self {limit : Float} (h : 0.0 ≤ limit) : -limit ≤ limit := by
  obtain ⟨-, hnan, hle⟩ := le_iff.mp h
  obtain ⟨hplace, hnan'⟩ := place_neg hnan
  refine le_iff.mpr ⟨hnan', hnan, ?_⟩
  rw [hplace]
  rw [place_zero] at hle
  exact (EReal.neg_le_neg_iff.mpr hle).trans (by simpa using hle)

/-- There is an answer to every phase if the limit is not below zero. -/
theorem Correction.plan?_isSome {rules : CorrectionRules Float} (h : 0.0 ≤ rules.limit)
    (localBpm localBeat : Float) (target : CorrectionTarget Float) :
    (plan? rules localBpm localBeat target).isSome = true := by
  have hbounds : Measure.atMost (-rules.limit) rules.limit = true := decide_eq_true (neg_le_self h)
  unfold plan? nudge? clamp?
  simp only [Option.isSome_map]
  split_ifs <;> rfl

/-! ## One reconciliation -/

/-- A session was read, and its tempo can be adopted. -/
def readable : Except Refusal Snapshot → Bool
  | .ok remote => remote.tempo.isFinite && decide (0.0 < remote.tempo)
  | .error _ => false

namespace Follower

theorem usable_of_unreadable {captured : Except Refusal Snapshot} (h : readable captured = false) :
    ∃ refusal, usable captured = .error refusal := by
  cases captured with
  | error refusal => exact ⟨refusal, rfl⟩
  | ok remote =>
    have hnot : isPositive remote.tempo = false := h
    exact ⟨_, by simp only [usable, bind, Except.bind, hnot]; rfl⟩

theorem usable_of_readable {captured : Except Refusal Snapshot} (h : readable captured = true) :
    ∃ remote, captured = .ok remote ∧ usable captured = .ok remote := by
  cases captured with
  | error refusal => cases h
  | ok remote =>
    have hpositive : isPositive remote.tempo = true := h
    exact ⟨remote, rfl, by simp only [usable, bind, Except.bind, hpositive]; rfl⟩

variable {σ : Type} [Transport σ] {f : Follower σ} {p : Playhead} {known : Following}

/-- A reconciliation that fails counts the failure, sets the next one an interval later and logs one
message. -/
theorem reconcile_of_unreadable (hknown : f.following = some known)
    (h : readable (Transport.capture f.session (f.quantum p)).1 = false) :
    ∃ message, f.reconcile p =
        ⟨.skipped, p, { f with
          session := (Transport.capture f.session (f.quantum p)).2
          following := some { known with
            nextResync := p.now + known.resyncInterval, failures := known.failures + 1 } },
          [.logged message]⟩ ∧
      message.level =
        if (known.failures + 1) % max f.settings.failureWarnThreshold 1 = 0 then .warn else .debug := by
  obtain ⟨refusal, hrefusal⟩ := usable_of_unreadable h
  unfold reconcile
  simp only [hknown, hrefusal, recordFailure]
  split_ifs
  · exact ⟨_, rfl, rfl⟩
  · exact ⟨_, rfl, rfl⟩

/-- A reconciliation that succeeds takes the count back to zero, sets the next one an interval after the
beat that it read, and answers a correction. -/
theorem reconcile_of_readable (hlimit : 0.0 ≤ f.settings.maxCorrection)
    (hknown : f.following = some known)
    (h : readable (Transport.capture f.session (f.quantum p)).1 = true) :
    ∃ correction playhead peers outputs, f.reconcile p =
      ⟨.corrected correction, playhead, { f with
        session := (Transport.capture f.session (f.quantum p)).2
        following := some { known with
          nextResync := p.now + known.resyncInterval, failures := 0, peers := peers } }, outputs⟩ := by
  obtain ⟨remote, -, hremote⟩ := usable_of_readable h
  unfold reconcile
  simp only [hknown, hremote, adopt]
  -- The limit is a bound, so there is a correction.
  have hrules : 0.0 ≤ f.settings.rules.limit := hlimit
  have hplan := Correction.plan?_isSome hrules p.bpm p.now
    ⟨remote.tempo, remote.phase, known.phaseOffset, f.quantum p⟩
  obtain ⟨correction, hcorrection⟩ := Option.isSome_iff_exists.mp hplan
  split
  · rename_i hnone
    exact absurd (hcorrection.symm.trans hnone) (Option.some_ne_none _)
  · exact ⟨_, _, _, _, rfl⟩

/-! ## The settings -/

theorem settings_status (f : Follower σ) (p : Playhead) : (f.status p).2.settings = f.settings := by
  unfold status
  split <;> rfl

theorem settings_withStatus (f : Follower σ) (p : Playhead) (outputs : List Output) :
    (Outcome.withStatus p f outputs).follower.settings = f.settings :=
  settings_status f p

theorem settings_enable (f : Follower σ) (p : Playhead) (offset interval : Float) :
    (f.enable p offset interval).follower.settings = f.settings := by
  have henabled := f.enabled p offset interval
  generalize f.enable p offset interval = outcome at henabled ⊢
  cases henabled with
  | refused | unjoined => rfl
  | changed | joined => exact settings_withStatus _ p _

theorem settings_reconcile (f : Follower σ) (p : Playhead) :
    (f.reconcile p).follower.settings = f.settings := by
  unfold reconcile
  split
  · rfl
  · simp only [recordFailure, adopt]
    split
    · rfl
    · split <;> rfl

/-! ## Calls on a follower -/

/-- A call on a follower. -/
inductive Call where
  /-- Starts to follow the session, or changes how it is followed. -/
  | enable (offset interval : Float)
  /-- Stops following the session. -/
  | disable
  /-- Asks for the state of the follower. -/
  | status
  /-- Makes the next reconciliation due at once. -/
  | resetSchedule
  /-- Reconciles if a session is followed. -/
  | reconcile
  /-- Reconciles if a session is followed and the next reconciliation is due. -/
  | reconcileIfDue
  /-- Passes a tempo on to the session. -/
  | propose (bpm : Float)

namespace Call

/-- What a call leaves behind. The answer is that of the reconciliation, if the call is for one. -/
def outcome (call : Call) (f : Follower σ) (p : Playhead) : Outcome σ (Option Reconciliation) :=
  match call with
  | .enable offset interval =>
    ⟨none, p, (f.enable p offset interval).follower, (f.enable p offset interval).outputs⟩
  | .disable => ⟨none, p, (f.disable p).follower, (f.disable p).outputs⟩
  | .status => ⟨none, p, (f.status p).2, []⟩
  | .resetSchedule => ⟨none, p, f.resetSchedule p, []⟩
  | .reconcile => { f.reconcile p with answer := some (f.reconcile p).answer }
  | .reconcileIfDue => { f.reconcileIfDue p with answer := some (f.reconcileIfDue p).answer }
  | .propose bpm => ⟨none, p, (f.propose bpm).1, (f.propose bpm).2⟩

/-- The call makes the follower reconcile. -/
def reconciles (call : Call) (f : Follower σ) (p : Playhead) : Bool :=
  match call with
  | .reconcile => f.isEnabled
  | .reconcileIfDue => f.following.any (·.nextResync ≤ p.now)
  | _ => false

/-- The call makes the follower reconcile, and the session cannot be read. -/
def fails (call : Call) (f : Follower σ) (p : Playhead) : Bool :=
  call.reconciles f p && !readable (Transport.capture f.session (f.quantum p)).1

/-- The call makes the follower reconcile, and the session can be read. -/
def succeeds (call : Call) (f : Follower σ) (p : Playhead) : Bool :=
  call.reconciles f p && readable (Transport.capture f.session (f.quantum p)).1

/-- The call makes the follower follow a session, which it did not before. -/
def turnsOn (call : Call) (f : Follower σ) (p : Playhead) : Bool :=
  match call with
  | .enable offset interval =>
    !f.isEnabled && (f.enable p offset interval).follower.isEnabled
  | _ => false

/-- A call that makes the follower reconcile does what a reconciliation does. -/
theorem outcome_of_reconciles {call : Call} (h : call.reconciles f p = true) :
    (∃ known, f.following = some known) ∧
      call.outcome f p = { f.reconcile p with answer := some (f.reconcile p).answer } := by
  cases call with
  | reconcile => exact ⟨Option.isSome_iff_exists.mp h, rfl⟩
  | reconcileIfDue =>
    have hdue : f.following.any (·.nextResync ≤ p.now) = true := h
    refine ⟨?_, ?_⟩
    · cases hknown : f.following with
      | none => simp [hknown] at hdue
      | some known => exact ⟨known, rfl⟩
    · simp only [outcome, Follower.reconcileIfDue, if_pos hdue]
  | enable | disable | status | resetSchedule | propose => cases h

/-- A call that does not make the follower reconcile, and does not make it follow a session, leaves the
count alone. -/
theorem failures_of_idle {call : Call} (hreconciles : call.reconciles f p = false)
    (hon : call.turnsOn f p = false) {known' : Following}
    (h : (call.outcome f p).follower.following = some known') :
    ∃ known, f.following = some known ∧ known'.failures = known.failures := by
  cases call with
  | enable offset interval =>
    rcases f.enable_following p offset interval with
      hkept | ⟨-, ⟨hidle, peers, hjoined⟩ | ⟨known, hknown, hchanged⟩⟩
    · exact ⟨known', hkept.symm.trans h, rfl⟩
    · -- The follower would follow a session from now on.
      simp [turnsOn, isEnabled, hidle, hjoined] at hon
    · cases h.symm.trans hchanged
      exact ⟨known, hknown, rfl⟩
  | disable => cases h.symm.trans (f.disable_following p)
  | status =>
    have hsame : (f.status p).2.following = f.following := by
      unfold Follower.status
      split <;> rename_i hknown <;> simp [hknown]
    exact ⟨known', hsame.symm.trans h, rfl⟩
  | resetSchedule =>
    obtain ⟨known, hknown, rfl⟩ := Option.map_eq_some_iff.mp h
    exact ⟨known, hknown, rfl⟩
  | reconcile =>
    have hidle : f.following = none := Option.not_isSome_iff_eq_none.mp (Bool.not_eq_true _ ▸ hreconciles)
    simp [outcome, Follower.reconcile, hidle] at h
  | reconcileIfDue =>
    have hearly : ¬ f.following.any (·.nextResync ≤ p.now) = true := Bool.not_eq_true _ ▸ hreconciles
    simp only [outcome, Follower.reconcileIfDue, if_neg hearly] at h
    exact ⟨known', h, rfl⟩
  | propose bpm =>
    have hsame : (f.propose bpm).1.following = f.following := by
      unfold Follower.propose
      split_ifs
      · split <;> rfl
      · rfl
    exact ⟨known', hsame.symm.trans h, rfl⟩

/-- A follower that starts to follow a session has no failures to count. -/
theorem failures_of_turnsOn {call : Call} (hon : call.turnsOn f p = true) {known' : Following}
    (h : (call.outcome f p).follower.following = some known') : known'.failures = 0 := by
  cases call with
  | enable offset interval =>
    have hidle : f.following = none := by
      simp only [turnsOn, Bool.and_eq_true, Bool.not_eq_true', isEnabled] at hon
      exact Option.isSome_eq_false_iff.mp hon.1 |> Option.isNone_iff_eq_none.mp
    rcases f.enable_following p offset interval with
      hkept | ⟨-, ⟨-, peers, hjoined⟩ | ⟨known, hknown, -⟩⟩
    · cases hidle.symm.trans (hkept.symm.trans h)
    · cases h.symm.trans hjoined
      rfl
    · cases hidle.symm.trans hknown
  | disable | status | resetSchedule | reconcile | reconcileIfDue | propose => cases hon

/-- A call that makes the follower reconcile finds it following already. -/
theorem turnsOn_of_reconciles {call : Call} (h : call.reconciles f p = true) :
    call.turnsOn f p = false := by
  cases call with
  | enable => cases h
  | disable | status | resetSchedule | reconcile | reconcileIfDue | propose => rfl

/-- The settings stay as they are. -/
theorem settings_outcome (call : Call) (f : Follower σ) (p : Playhead) :
    (call.outcome f p).follower.settings = f.settings := by
  cases call with
  | enable offset interval => exact settings_enable f p offset interval
  | status => exact settings_status f p
  | disable =>
    simp only [outcome, Follower.disable]
    split <;> rfl
  | resetSchedule => rfl
  | reconcile => exact settings_reconcile f p
  | reconcileIfDue =>
    simp only [outcome, Follower.reconcileIfDue]
    split_ifs
    · exact settings_reconcile f p
    · rfl
  | propose bpm =>
    simp only [outcome, Follower.propose]
    split_ifs
    · split <;> rfl
    · rfl

end Call

/-! ## Runs of a follower -/

/-- A follower, and the playhead that it moves. -/
structure Scene (σ : Type) where
  /-- The playhead. -/
  playhead : Playhead
  /-- The follower. -/
  follower : Follower σ

/-- Something that happens to a follower or around it. -/
inductive Doing (σ : Type) where
  /-- Something is called on the follower. -/
  | called (call : Call)
  /-- The playhead and the session change by themselves. -/
  | around (playhead : Playhead) (session : σ)

/-- What is there after something happened. -/
def Doing.apply (doing : Doing σ) (s : Scene σ) : Scene σ :=
  match doing with
  | .called call =>
    ⟨(call.outcome s.follower s.playhead).playhead, (call.outcome s.follower s.playhead).follower⟩
  | .around playhead session => ⟨playhead, { s.follower with session }⟩

/-- Something that happened, with what was there before it. -/
structure Happening (σ : Type) where
  /-- What was there. -/
  before : Scene σ
  /-- What happened. -/
  doing : Doing σ

namespace Happening

/-- A reconciliation failed. -/
def failed (h : Happening σ) : Bool :=
  match h.doing with
  | .called call => call.fails h.before.follower h.before.playhead
  | .around _ _ => false

/-- A reconciliation succeeded. -/
def succeeded (h : Happening σ) : Bool :=
  match h.doing with
  | .called call => call.succeeds h.before.follower h.before.playhead
  | .around _ _ => false

/-- The follower started to follow a session. -/
def turnedOn (h : Happening σ) : Bool :=
  match h.doing with
  | .called call => call.turnsOn h.before.follower h.before.playhead
  | .around _ _ => false

end Happening

namespace Scene

/-- What is there after several things happened. -/
def after (s : Scene σ) (doings : List (Doing σ)) : Scene σ :=
  doings.foldl (fun s doing => doing.apply s) s

/-- Several things that happen, each with what was there before it. -/
def happenings : Scene σ → List (Doing σ) → List (Happening σ)
  | _, [] => []
  | s, doing :: rest => ⟨s, doing⟩ :: happenings (doing.apply s) rest

theorem after_append (s : Scene σ) (doings doings' : List (Doing σ)) :
    s.after (doings ++ doings') = (s.after doings).after doings' :=
  List.foldl_append

theorem happenings_append (s : Scene σ) (doings doings' : List (Doing σ)) :
    s.happenings (doings ++ doings') = s.happenings doings ++ (s.after doings).happenings doings' := by
  induction doings generalizing s with
  | nil => rfl
  | cons doing rest ih => exact congrArg (_ :: ·) (ih _)

end Scene

/-- The reconciliations that failed since the last one that succeeded, or since the follower started to
follow the session. -/
def failuresSince (happenings : List (Happening σ)) : ℕ :=
  (happenings.reverse.takeWhile fun h => !(h.succeeded || h.turnedOn)).countP Happening.failed

theorem failuresSince_concat (happenings : List (Happening σ)) (h : Happening σ) :
    failuresSince (happenings ++ [h]) =
      if h.succeeded || h.turnedOn then 0
      else failuresSince happenings + if h.failed then 1 else 0 := by
  unfold failuresSince
  rw [List.reverse_concat, List.takeWhile_cons]
  cases h.succeeded || h.turnedOn with
  | true => rfl
  | false => exact List.countP_cons

theorem failuresSince_le (happenings : List (Happening σ)) :
    failuresSince happenings ≤ happenings.countP Happening.failed := by
  unfold failuresSince
  rw [← List.countP_reverse (l := happenings)]
  exact (List.takeWhile_sublist _).countP_le

/-! ## The count over a run -/

/-- What is remembered while a session is followed counts the failures. -/
def Counts (s : Scene σ) (happenings : List (Happening σ)) : Prop :=
  ∀ known, s.follower.following = some known → known.failures.toNat = failuresSince happenings

/-- One more call keeps the count right, unless it overflows. -/
theorem Counts.called {s : Scene σ} {happenings : List (Happening σ)} (h : Counts s happenings)
    (hlimit : 0.0 ≤ s.follower.settings.maxCorrection) (call : Call)
    (hfew : failuresSince (happenings ++ [⟨s, .called call⟩]) < 2 ^ 32) :
    Counts ((Doing.called call).apply s) (happenings ++ [⟨s, .called call⟩]) := by
  intro known' hknown'
  change (call.outcome s.follower s.playhead).follower.following = some known' at hknown'
  rw [failuresSince_concat] at hfew ⊢
  simp only [Happening.succeeded, Happening.failed, Happening.turnedOn, Call.succeeds, Call.fails]
    at hfew ⊢
  by_cases hreconciles : call.reconciles s.follower s.playhead = true
  · obtain ⟨⟨known, hknown⟩, houtcome⟩ := Call.outcome_of_reconciles hreconciles
    rw [houtcome] at hknown'
    simp only [hreconciles, Call.turnsOn_of_reconciles hreconciles] at hfew ⊢
    -- It reconciles. The count starts over if the session can be read.
    by_cases hreadable :
      readable (Transport.capture s.follower.session (s.follower.quantum s.playhead)).1 = true
    · obtain ⟨_, _, _, _, hreconcile⟩ := reconcile_of_readable hlimit hknown hreadable
      simp only [hreconcile, Option.some.injEq] at hknown'
      simp [← hknown', hreadable]
    · -- Otherwise it is one more, and there is room for that.
      rw [Bool.not_eq_true] at hreadable
      obtain ⟨_, hreconcile, -⟩ := reconcile_of_unreadable hknown hreadable
      simp only [hreconcile, Option.some.injEq] at hknown'
      have hcount := h known hknown
      have hbound : known.failures.toNat + 1 < 2 ^ 32 := by simpa [hreadable, hcount] using hfew
      simpa [← hknown', hreadable, ← hcount, UInt32.toNat_add] using hbound
  · -- It does not reconcile. The count is zero if the session is followed from now on, and stays otherwise.
    rw [Bool.not_eq_true] at hreconciles
    by_cases hon : call.turnsOn s.follower s.playhead = true
    · simp [Call.failures_of_turnsOn hon hknown', hreconciles, hon]
    · rw [Bool.not_eq_true] at hon
      obtain ⟨known, hknown, hsame⟩ := Call.failures_of_idle hreconciles hon hknown'
      simp [hsame, h known hknown, hreconciles, hon]

/-- What happens around the follower does not count. -/
theorem Counts.around {s : Scene σ} {happenings : List (Happening σ)} (h : Counts s happenings)
    (playhead : Playhead) (session : σ) :
    Counts ((Doing.around playhead session).apply s)
      (happenings ++ [⟨s, .around playhead session⟩]) := by
  intro known hknown
  rw [failuresSince_concat]
  exact h known hknown

namespace Scene

/-- The settings stay as they are over a run. -/
theorem settings_after (s : Scene σ) (doings : List (Doing σ)) :
    (s.after doings).follower.settings = s.follower.settings := by
  induction doings generalizing s with
  | nil => rfl
  | cons doing rest ih =>
    refine (ih _).trans ?_
    cases doing with
    | called call => exact Call.settings_outcome call _ _
    | around => rfl

/-- The count is right over a run from an idle follower in which there are not too many failures. -/
theorem counts_after {s : Scene σ} (hidle : s.follower.following = none)
    (hlimit : 0.0 ≤ s.follower.settings.maxCorrection) {doings : List (Doing σ)}
    (hfew : (s.happenings doings).countP Happening.failed < 2 ^ 32) :
    Counts (s.after doings) (s.happenings doings) := by
  induction doings using List.reverseRecOn with
  | nil =>
    intro known hknown
    cases hidle.symm.trans hknown
  | append_singleton before doing ih =>
    rw [happenings_append, List.countP_append] at hfew
    have hbefore := ih (Nat.lt_of_add_right_lt hfew)
    rw [after_append, happenings_append]
    cases doing with
    | around playhead session => exact hbefore.around playhead session
    | called call =>
      refine hbefore.called ?_ call ?_
      · rwa [settings_after]
      · refine (failuresSince_le _).trans_lt ?_
        rwa [List.countP_append]

end Scene

/-! ## What a reconciliation leaves behind -/

/-- What a call that fails to reconcile leaves behind, if that is so many failures in a row. -/
structure Failure (s : Scene (Recorded σ)) (call : Call) (known : Following) (count : ℕ) : Prop where
  /-- There is no correction. -/
  answer : (call.outcome s.follower s.playhead).answer = some .skipped
  /-- The playhead stays where it is. -/
  playhead : (call.outcome s.follower s.playhead).playhead = s.playhead
  /-- There is one more failure, and the next reconciliation is an interval later. The offset, the
  interval and the peers stay. -/
  following : ∃ failures : UInt32, failures.toNat = count ∧
    (call.outcome s.follower s.playhead).follower.following = some { known with
      nextResync := s.playhead.now + known.resyncInterval, failures := failures }
  /-- There is one message, which is a warning every so many failures. -/
  logged : ∃ message, (call.outcome s.follower s.playhead).outputs = [.logged message] ∧
    message.level =
      if max s.follower.settings.failureWarnThreshold.toNat 1 ∣ count then .warn else .debug
  /-- The session is read, and nothing else is asked of it. -/
  calls : (call.outcome s.follower s.playhead).follower.session.calls = s.follower.session.calls ++
    [.capture (s.follower.quantum s.playhead)
      (Transport.capture s.follower.session (s.follower.quantum s.playhead)).1]

/-- What a call that reconciles leaves behind. -/
structure Success (s : Scene (Recorded σ)) (call : Call) (known : Following) : Prop where
  /-- There is a correction. -/
  answer : ∃ correction,
    (call.outcome s.follower s.playhead).answer = some (.corrected correction)
  /-- There are no failures any more, and the next reconciliation is an interval later than the beat that
  was read before the correction. -/
  following : ∃ peers, (call.outcome s.follower s.playhead).follower.following = some { known with
    nextResync := s.playhead.now + known.resyncInterval, failures := 0, peers := peers }
  /-- The session is read, and nothing else is asked of it. -/
  calls : (call.outcome s.follower s.playhead).follower.session.calls = s.follower.session.calls ++
    [.capture (s.follower.quantum s.playhead)
      (Transport.capture s.follower.session (s.follower.quantum s.playhead)).1]

/-- A warning is due by the count as it is stored, or by the count of the failures. -/
theorem warns_iff {failures : UInt32} (h : failures.toNat + 1 < 2 ^ 32) (threshold : UInt32) :
    (failures + 1) % max threshold 1 = 0 ↔ max threshold.toNat 1 ∣ failures.toNat + 1 := by
  have hmax : (max threshold 1).toNat = max threshold.toNat 1 := by
    change (if threshold ≤ 1 then (1 : UInt32) else threshold).toNat = _
    rw [Nat.max_def, apply_ite UInt32.toNat]
    exact if_congr UInt32.le_iff_toNat_le rfl rfl
  have hcount : (failures + 1).toNat = failures.toNat + 1 := by
    simpa [UInt32.toNat_add] using h
  rw [← UInt32.toNat_inj, UInt32.toNat_mod, hmax, hcount, Nat.dvd_iff_mod_eq_zero]
  rfl

/-- A call that fails to reconcile is one more failure in a row. -/
theorem failuresSince_of_fails {s : Scene σ} {call : Call}
    (h : call.fails s.follower s.playhead = true) (happenings : List (Happening σ)) :
    failuresSince (happenings ++ [⟨s, .called call⟩]) = failuresSince happenings + 1 := by
  have hfailed : (⟨s, .called call⟩ : Happening σ).failed = true := h
  obtain ⟨hreconciles, hreadable⟩ := Bool.and_eq_true_iff.mp h
  rw [Bool.not_eq_true'] at hreadable
  have hother : ((⟨s, .called call⟩ : Happening σ).succeeded ||
      (⟨s, .called call⟩ : Happening σ).turnedOn) = false := by
    simp [Happening.succeeded, Happening.turnedOn, Call.succeeds, hreadable,
      Call.turnsOn_of_reconciles hreconciles]
  rw [failuresSince_concat, hfailed, hother]
  rfl

theorem failure_of_fails {s : Scene (Recorded σ)} {call : Call} {known : Following}
    (hknown : s.follower.following = some known)
    (hfails : call.fails s.follower s.playhead = true) {count : ℕ}
    (hcount : known.failures.toNat = count) (hfew : count + 1 < 2 ^ 32) :
    Failure s call known (count + 1) := by
  obtain ⟨hreconciles, hreadable⟩ := Bool.and_eq_true_iff.mp hfails
  rw [Bool.not_eq_true'] at hreadable
  obtain ⟨-, houtcome⟩ := Call.outcome_of_reconciles hreconciles
  obtain ⟨message, hreconcile, hlevel⟩ := reconcile_of_unreadable hknown hreadable
  rw [hreconcile] at houtcome
  subst hcount
  refine ⟨?_, ?_, ⟨known.failures + 1, ?_, ?_⟩, ⟨message, ?_, ?_⟩, ?_⟩
  · rw [houtcome]
  · rw [houtcome]
  · simpa [UInt32.toNat_add] using hfew
  · rw [houtcome]
  · rw [houtcome]
  · simp only [hlevel, warns_iff hfew]
  · rw [houtcome]
    rfl

theorem success_of_succeeds {s : Scene (Recorded σ)} {call : Call} {known : Following}
    (hlimit : 0.0 ≤ s.follower.settings.maxCorrection) (hknown : s.follower.following = some known)
    (hsucceeds : call.succeeds s.follower s.playhead = true) : Success s call known := by
  obtain ⟨hreconciles, hreadable⟩ := Bool.and_eq_true_iff.mp hsucceeds
  obtain ⟨-, houtcome⟩ := Call.outcome_of_reconciles hreconciles
  obtain ⟨correction, playhead, peers, outputs, hreconcile⟩ :=
    reconcile_of_readable hlimit hknown hreadable
  rw [hreconcile] at houtcome
  refine ⟨⟨correction, ?_⟩, ⟨peers, ?_⟩, ?_⟩
  · rw [houtcome]
  · rw [houtcome]
  · rw [houtcome]
    rfl

/-- Over any calls on a follower that was idle, with any changes of the playhead and the session in
between, it reports the number of reconciliations that failed since the last one that succeeded, or since
it started to follow the session. One that fails changes nothing but that number and the beat of the next
one, and logs a warning if the number is a multiple of the threshold. One that succeeds starts the count
over. -/
theorem failures_counted {start : Scene (Recorded σ)} (hidle : start.follower.following = none)
    (hlimit : 0.0 ≤ start.follower.settings.maxCorrection) {doings : List (Doing (Recorded σ))}
    (hfew : (start.happenings doings).countP Happening.failed < 2 ^ 32) :
    ((start.after doings).follower.status
        (start.after doings).playhead).1.consecutiveFailures.toNat =
        (if (start.after doings).follower.isEnabled then failuresSince (start.happenings doings)
          else 0) ∧
      ∀ before call later s, doings = before ++ .called call :: later → s = start.after before →
        (call.fails s.follower s.playhead = true → ∃ known, s.follower.following = some known ∧
          Failure s call known (failuresSince (start.happenings (before ++ [.called call])))) ∧
        (call.succeeds s.follower s.playhead = true → ∃ known, s.follower.following = some known ∧
          Success s call known) := by
  refine ⟨?_, ?_⟩
  · -- The count that is reported is the one that is remembered.
    have hcounts := Scene.counts_after hidle hlimit hfew
    generalize start.after doings = final at hcounts ⊢
    cases hknown : final.follower.following with
    | none => simp [status, isEnabled, hknown, localStatus]
    | some known =>
      simp only [isEnabled, hknown, Option.isSome_some, if_true, ← hcounts known hknown, status]
      split <;> rfl
  · rintro before call later s hdoings rfl
    -- The calls up to this one fail no more often than all of them.
    have hsplit : doings = (before ++ [.called call]) ++ later := by simp [hdoings]
    rw [hsplit, Scene.happenings_append, List.countP_append] at hfew
    have hupto := Nat.lt_of_add_right_lt hfew
    have hcounts : Counts (start.after before) (start.happenings before) := by
      rw [Scene.happenings_append, List.countP_append] at hupto
      exact Scene.counts_after hidle hlimit (Nat.lt_of_add_right_lt hupto)
    have hone := (failuresSince_le _).trans_lt hupto
    rw [Scene.happenings_append] at hone ⊢
    rw [← start.settings_after before] at hlimit
    generalize start.after before = s at hcounts hlimit hone ⊢
    refine ⟨fun hfails => ?_, fun hsucceeds => ?_⟩
    · obtain ⟨known, hknown⟩ := (Call.outcome_of_reconciles (Bool.and_eq_true_iff.mp hfails).1).1
      have hcount := failuresSince_of_fails hfails (start.happenings before)
      change failuresSince (_ ++ [⟨s, .called call⟩]) < _ at hone
      rw [hcount] at hone
      refine ⟨known, hknown, ?_⟩
      change Failure s call known (failuresSince (_ ++ [⟨s, .called call⟩]))
      rw [hcount]
      exact failure_of_fails hknown hfails (hcounts known hknown) hone
    · obtain ⟨known, hknown⟩ := (Call.outcome_of_reconciles (Bool.and_eq_true_iff.mp hsucceeds).1).1
      exact ⟨known, hknown, success_of_succeeds hlimit hknown hsucceeds⟩

/-- A partner that can be joined but not read, with a warning after every second failure. -/
def unread : Scene (Recorded Partner) :=
  ⟨Conductor.offline.playhead, idle { failureWarnThreshold := 2 } (.fresh { reachable := false })⟩

/-- It is joined, and two reconciliations fail. The second one is worth a warning. -/
theorem unread_failures_counted :
    ((unread.after [.called (.enable 0.5 1.0), .called .reconcile, .called .reconcile]).follower.status
        unread.playhead).1.consecutiveFailures.toNat = 2 ∧
      ∃ known,
        Failure (unread.after [.called (.enable 0.5 1.0), .called .reconcile]) .reconcile known 2 := by
  obtain ⟨hreported, hcalls⟩ := failures_counted (show unread.follower.following = none from rfl)
    (show 0.0 ≤ unread.follower.settings.maxCorrection by decide +kernel)
    (show (unread.happenings [.called (.enable 0.5 1.0), .called .reconcile,
      .called .reconcile]).countP Happening.failed < 2 ^ 32 by decide +kernel)
  refine ⟨hreported.trans (by decide +kernel), ?_⟩
  obtain ⟨known, -, hfailure⟩ := (hcalls [.called (.enable 0.5 1.0), .called .reconcile] .reconcile []
    _ rfl rfl).1 (by decide +kernel)
  have hcount : failuresSince (unread.happenings ([.called (.enable 0.5 1.0), .called .reconcile] ++
      [.called .reconcile])) = 2 := by decide +kernel
  exact ⟨known, hcount ▸ hfailure⟩

end Follower

end Cadence
