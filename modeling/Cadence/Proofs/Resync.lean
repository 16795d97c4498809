import Mathlib
import Cadence.Proofs.Punctuality
import Cadence.Proofs.Run.Following
import Cadence.Proofs.Run.Nudge

/-!
# When the next reconciliation is due

While a session is followed, the beat of the next reconciliation is remembered. It is set when a session
is joined, by a jump, and by a reconciliation, and nothing else touches it. So the next reconciliation is
no further ahead than the interval in force when it was set, as long as the clock has not been taken back
behind the beat that was read then. The reconciliation itself can take it back, but only by a nudge.

- `Event.Schedules.withinNudge`: the event that sets it leaves the clock within a nudge of that beat;
- `Step.schedule`: what a step does to the remembered beat and interval;
- `History.scheduled`: the remembered beat is that of the last event that sets it;
- `reconciliation_within_interval`: hence how far ahead the next reconciliation is;
- `shorter_interval_waits`: a new interval is not applied to a reconciliation that is set already.
-/

namespace Cadence

open Number

variable {σ β : Type} [Transport σ]

/-! ## Events that set the next reconciliation -/

/-- The event reads a beat and sets the next reconciliation, while an interval is in force. -/
inductive Event.Schedules : Event σ β → (reading next interval : Float) → Prop
  /-- A session is joined, and the first reconciliation is due at once. -/
  | joined {op : Operation σ β} {c : Conductor σ β} {interval : Float}
      (hop : op.follows c = some interval) (hidle : c.following = none)
      (hjoined : (op.apply c).following ≠ none) :
      Schedules (.called op c) c.now c.now interval
  /-- After a jump the next reconciliation is due at once. -/
  | jumped {beat : Float} {c : Conductor σ β} {known : Following}
      (hok : (c.setTime beat).1 = .ok ()) (hknown : c.following = some known) :
      Schedules (.called (.setTime beat) c) (c.setTime beat).2.now (c.setTime beat).2.now
        known.resyncInterval
  /-- After a reconciliation the next one is an interval later. -/
  | reconciled {c : Conductor σ β} {known : Following} (hknown : c.following = some known)
      (hdue : known.nextResync ≤ c.now) :
      Schedules (.called .reconcile c) c.now (c.now + known.resyncInterval) known.resyncInterval

/-- The event sets the next reconciliation. -/
def Event.SetsSchedule (event : Event σ β) : Prop :=
  ∃ reading next interval, event.Schedules reading next interval

/-- The clock is at a beat, has reached it, or was nudged back from it by at most half the bar over which
the phase is aligned. -/
inductive Conductor.WithinNudge (c : Conductor σ β) (beat : Float) : Prop
  /-- The clock is at the beat. -/
  | same (h : c.now = beat)
  /-- The clock has reached the beat. -/
  | reached (h : beat ≤ c.now)
  /-- A playhead that had reached the beat was nudged. -/
  | nudged {p : Playhead} {nudge : Float} (hreached : beat ≤ p.now) (hfinite : nudge.isFinite = true)
      (hnudge : -(c.follower.quantum c.playhead / 2.0) ≤ nudge) (hshift : c.playhead = p.shift nudge)

/-- The settings of the follower correct at most the whole of a phase error, as they do once they are
validated. -/
def Conductor.Moderate (c : Conductor σ β) : Prop :=
  isPositive c.follower.settings.rules.gain = true ∧ c.follower.settings.rules.gain ≤ 1.0

/-- The event asks for the session to be followed. -/
def Event.Follows : Event σ β → Prop
  | .called op c => op.follows c ≠ none
  | _ => False

/-- What an event that sets the next reconciliation leaves is what it says. -/
theorem Event.Schedules.following {op : Operation σ β} {c : Conductor σ β}
    {reading next interval : Float} (h : (Event.called op c).Schedules reading next interval)
    {known : Following} (hknown : (op.apply c).following = some known) :
    known.nextResync = next ∧ known.resyncInterval = interval := by
  cases h with
  | joined hop hidle hjoined =>
    have hrefollows := op.refollows c
    rw [hknown] at hrefollows
    generalize hresult : some known = result at hrefollows
    cases hrefollows with
    | kept => exact absurd (hresult.trans hidle) (Option.some_ne_none _)
    | joined hop' =>
      cases hresult
      exact ⟨rfl, Option.some.inj (hop'.symm.trans hop)⟩
    | changed _ _ hknown' => exact absurd (hknown'.symm.trans hidle) (Option.some_ne_none _)
    | left | jumped | reconciled => cases hop
  | @jumped beat c known' hok hknown' =>
    rcases c.setTime_cases beat with ⟨fault, hrefused⟩ | ⟨-, hjumped⟩
    · rw [hrefused] at hok
      cases hok
    · rw [hknown'] at hjumped
      cases hknown.symm.trans hjumped
      exact ⟨rfl, rfl⟩
  | @reconciled c known' hknown' hdue =>
    rcases c.reconcileIfDue_cases with ⟨hnot, -⟩ | ⟨known'', _, _, heq, -, hset⟩
    · exact absurd ⟨known', hknown', hdue⟩ hnot
    · cases hknown'.symm.trans heq
      cases hknown.symm.trans hset
      exact ⟨rfl, rfl⟩

/-- A reconciliation leaves the clock within a nudge of the beat that it read. -/
theorem Conductor.withinNudge_reconcileIfDue {c : Conductor σ β} (hnow : c.now.isNaN = false)
    (h : c.reconcileIfDue.2.Moderate) : c.reconcileIfDue.2.WithinNudge c.now := by
  have hplayhead : c.reconcileIfDue.2.playhead = (c.follower.reconcileIfDue c.playhead).playhead :=
    c.adopt_playhead _
  have hfollower : c.reconcileIfDue.2.follower = (c.follower.reconcileIfDue c.playhead).follower :=
    emitAll_follower _ _
  obtain ⟨hsettings, hmeter⟩ := c.follower.settings_reconcileIfDue c.playhead
  unfold Moderate at h
  rw [hfollower, hsettings] at h
  rcases Follower.now_le_reconcileIfDue (p := c.playhead) hnow h.1 h.2 with
    hle | ⟨p, nudge, hle, hfinite, hnudge, hshift⟩
  · refine .reached ?_
    rw [now, now, hplayhead]
    exact hle
  · refine .nudged hle hfinite ?_ (hplayhead.trans hshift)
    -- The bar is that of before, since the settings and the meter are.
    rw [hfollower, hplayhead, Follower.quantum_congr hsettings hmeter]
    exact hnudge

/-- An event that sets the next reconciliation leaves the clock within a nudge of the beat that was
read. -/
theorem Event.Schedules.withinNudge {op : Operation σ β} {c : Conductor σ β}
    {reading next interval : Float} (h : (Event.called op c).Schedules reading next interval)
    (hmoderate : (op.apply c).Moderate) : (op.apply c).WithinNudge reading := by
  cases h with
  | joined hop =>
    refine .same ?_
    have hmoves : op.movesPlayhead = false := by
      cases op <;> first | rfl | cases hop
    rw [Conductor.now, Conductor.now, op.playhead_apply c hmoves]
  | jumped => exact .same rfl
  | reconciled _ hdue => exact c.withinNudge_reconcileIfDue (le_iff.mp hdue).2.1 hmoderate

/-- What an operation that does not set the next reconciliation leaves of it. -/
theorem Operation.keeps_schedule {op : Operation σ β} {c : Conductor σ β}
    (h : ¬ (Event.called op c).SetsSchedule) {known : Following}
    (hknown : (op.apply c).following = some known) :
    ∃ earlier, c.following = some earlier ∧ known.nextResync = earlier.nextResync ∧
      (op.follows c = none → known.resyncInterval = earlier.resyncInterval) := by
  have hrefollows := op.refollows c
  rw [hknown] at hrefollows
  generalize hresult : some known = result at hrefollows
  cases hrefollows with
  | kept => exact ⟨known, hresult.symm, rfl, fun _ => rfl⟩
  | joined hop hinterval hidle =>
    exact absurd ⟨_, _, _, .joined hop hidle (by simp [hknown])⟩ h
  | changed hop hinterval hearlier =>
    cases hresult
    exact ⟨_, hearlier, rfl, fun hnone => nomatch hnone.symm.trans hop⟩
  | left => cases hresult
  | jumped hok =>
    obtain ⟨earlier, hearlier, -⟩ := Option.map_eq_some_iff.mp hresult.symm
    exact absurd ⟨_, _, _, .jumped hok hearlier⟩ h
  | reconciled hearlier hdue => exact absurd ⟨_, _, _, .reconciled hearlier hdue⟩ h

/-- A step sets the next reconciliation, or leaves it alone. -/
theorem Step.schedule {m m' : Moment σ β} {event : Event σ β} (hstep : Step m event m')
    {known : Following} (hknown : m'.clock.following = some known) :
    (∃ reading, event.Schedules reading known.nextResync known.resyncInterval ∧
        (m'.clock.Moderate → m'.clock.WithinNudge reading)) ∨
      ¬ event.SetsSchedule ∧
        ∃ earlier, m.clock.following = some earlier ∧ known.nextResync = earlier.nextResync ∧
          (¬ event.Follows → known.resyncInterval = earlier.resyncInterval) := by
  cases hstep with
  | @call c u op permitted =>
    by_cases hsets : (Event.called op c).SetsSchedule
    · obtain ⟨reading, next, interval, hschedules⟩ := hsets
      obtain ⟨rfl, rfl⟩ := hschedules.following hknown
      exact .inl ⟨reading, hschedules, hschedules.withinNudge⟩
    · obtain ⟨earlier, hearlier, hnext, hinterval⟩ := Operation.keeps_schedule hsets hknown
      exact .inr ⟨hsets, earlier, hearlier, hnext, fun hnot => hinterval (not_not.mp hnot)⟩
  | @start c u reading e rest =>
    refine .inr ⟨fun ⟨_, _, _, h⟩ => (nomatch h), known, ?_, rfl, fun _ => rfl⟩
    exact (e.task.following_carry c).symm.trans hknown
  | measure | fail | pass =>
    exact .inr ⟨fun ⟨_, _, _, h⟩ => (nomatch h), known, hknown, rfl, fun _ => rfl⟩

/-- An operation leaves an interval that is accepted as one. -/
theorem Operation.isPositive_interval {op : Operation σ β} {c : Conductor σ β}
    (h : ∀ known, c.following = some known → isPositive known.resyncInterval = true)
    {known : Following} (hknown : (op.apply c).following = some known) :
    isPositive known.resyncInterval = true := by
  have hrefollows := op.refollows c
  rw [hknown] at hrefollows
  generalize hresult : some known = result at hrefollows
  cases hrefollows with
  | kept => exact h known hresult.symm
  | joined _ hinterval | changed _ hinterval =>
    cases hresult
    exact hinterval
  | left => cases hresult
  | jumped =>
    obtain ⟨earlier, hearlier, rfl⟩ := Option.map_eq_some_iff.mp hresult.symm
    exact h earlier hearlier
  | @reconciled earlier _ _ hearlier =>
    cases hresult
    exact h earlier hearlier

omit [Transport σ] in
/-- A clock that was just created follows nothing. -/
theorem following_create {config : Config} {time : WallTime} {session : σ} {c : Conductor σ β}
    (h : Conductor.create config time session = .ok c) : c.following = none := by
  obtain ⟨playhead, -, hresult⟩ := bind_ok h
  rw [← Except.ok.inj hresult]
  rfl

namespace History

variable {events : List (Event σ β)} {m : Moment σ β} {known : Following}

/-- The interval in force is one that is accepted as an interval. -/
theorem isPositive_interval (h : History events m) (hknown : m.clock.following = some known) :
    isPositive known.resyncInterval = true := by
  induction h using History.induction generalizing known with
  | created hcreate =>
    rw [following_create hcreate] at hknown
    cases hknown
  | @stepped events m event m' h hstep ih =>
    cases hstep with
    | @call c u op permitted => exact op.isPositive_interval (fun _ => ih) hknown
    | @start c u reading e rest => exact ih ((e.task.following_carry c).symm.trans hknown)
    | measure | fail | pass => exact ih hknown

/-- What is remembered of the next reconciliation was set by the last event that sets it, with the
interval in force then. -/
theorem scheduled (h : History events m) (hknown : m.clock.following = some known) :
    ∃ before event after m₁ reading interval, events = before ++ event :: after ∧
      History (before ++ [event]) m₁ ∧ Run m₁ after m ∧
      event.Schedules reading known.nextResync interval ∧
      (m₁.clock.Moderate → m₁.clock.WithinNudge reading) ∧ isPositive interval = true ∧
      (∀ event ∈ after, ¬ event.SetsSchedule) ∧
      ((∀ event ∈ after, ¬ event.Follows) → interval = known.resyncInterval) := by
  induction h using History.induction generalizing known with
  | created hcreate =>
    rw [following_create hcreate] at hknown
    cases hknown
  | @stepped events m event m' h hstep ih =>
    have hnow := h.append (.single hstep)
    -- Either this step set it, or the step before left it as it is.
    rcases hstep.schedule hknown with
      ⟨reading, hschedules, hnudge⟩ | ⟨hnot, earlier, hearlier, hnext, hinterval⟩
    · exact ⟨events, event, [], m', reading, known.resyncInterval, rfl, hnow, .nil, hschedules,
        hnudge, hnow.isPositive_interval hknown, by simp, fun _ => rfl⟩
    · -- The event before that set it still is the last one.
      obtain ⟨before, last, after, m₁, reading, interval, rfl, hbefore, hafter, hschedules,
        hnudge, hpositive, hsets, hsame⟩ := ih hearlier
      rw [← hnext] at hschedules
      refine ⟨before, last, after ++ [event], m₁, reading, interval, by simp, hbefore,
        hafter.snoc hstep, hschedules, hnudge, hpositive, ?_, fun hfollows => ?_⟩
      · simpa [or_imp, forall_and] using ⟨hsets, hnot⟩
      · rw [List.forall_mem_append] at hfollows
        rw [hinterval (hfollows.2 event (.head _)), hsame hfollows.1]

end History

/-! ## How far ahead the next reconciliation is -/

/-- A beat that was reached stays reached over steady steps. -/
theorem Run.le_now {m m' : Moment σ β} {events : List (Event σ β)} (h : Run m events m')
    {earlier : List (Event σ β)} (hhistory : History earlier m) {r : Float} (hbot : place r ≠ ⊥)
    (hsteady : ∀ event ∈ events, event.Steady r) (hr : r ≤ m.clock.now) : r ≤ m'.clock.now := by
  induction h with
  | nil => exact hr
  | snoc hrun hstep ih =>
    rw [List.forall_mem_append] at hsteady
    exact hstep.le_now (hhistory.append hrun).isPositive_bpm (hsteady.2 _ (.head _)) hbot
      (ih hsteady.1)

/-- The next reconciliation is set for the beat that was read when it was set, or for an interval after
it. -/
theorem Event.Schedules.next_le {event : Event σ β} {reading next interval : Float}
    (h : event.Schedules reading next interval) (hinterval : isPositive interval = true) {beat : Float}
    (hle : reading ≤ beat) : next ≤ beat + interval := by
  obtain ⟨hfinite, hpos⟩ := value_pos_of_isPositive hinterval
  have hgrows := atMost_trans hle (le_add_finite (le_iff.mp hle).2.1 hfinite hpos.le)
  cases h with
  | joined | jumped => exact hgrows
  | reconciled => exact add_le_add_finite hle hfinite

/-- While a session is followed, the next reconciliation is the one that the last event set that sets
it: a session that was joined, a jump, or a reconciliation that was due. It is at most one interval, the
one in force then, ahead of the clock, with any slack by which the clock has fallen behind the beat that
was read then. The interval is the one in force now unless somebody has asked to follow the session since.
The event itself leaves the clock behind that beat by one nudge at most, of no more than half the bar over
which the phase is aligned, and steady events do not take the clock back any further. -/
theorem reconciliation_within_interval {events : List (Event σ β)} {m : Moment σ β} {known : Following}
    (h : History events m) (hknown : m.clock.following = some known) :
    ∃ before event after m₁ reading interval, events = before ++ event :: after ∧
      History (before ++ [event]) m₁ ∧ Run m₁ after m ∧
      event.Schedules reading known.nextResync interval ∧
      (∀ event ∈ after, ¬ event.SetsSchedule) ∧
      ((∀ event ∈ after, ¬ event.Follows) → interval = known.resyncInterval) ∧
      (m₁.clock.Moderate → m₁.clock.WithinNudge reading) ∧
      (∀ slack, reading ≤ m.clock.now + slack →
        known.nextResync ≤ m.clock.now + slack + interval) ∧
      ∀ slack, slack.isFinite = true → m₁.clock.now.isFinite = true →
        reading ≤ m₁.clock.now + slack → (∀ event ∈ after, event.Steady m₁.clock.now) →
          reading ≤ m.clock.now + slack := by
  obtain ⟨before, event, after, m₁, reading, interval, hevents, hbefore, hafter, hschedules,
    hnudge, hpositive, hsets, hsame⟩ := h.scheduled hknown
  refine ⟨before, event, after, m₁, reading, interval, hevents, hbefore, hafter, hschedules, hsets,
    hsame, hnudge, fun slack hle => hschedules.next_le hpositive hle, ?_⟩
  intro slack hslack hfinite hle hsteady
  have hnan := isNaN_of_isFinite hfinite
  have hbot : place m₁.clock.now ≠ ⊥ := by
    rw [place_eq_value hfinite]
    exact EReal.coe_ne_bot _
  -- Steady events do not take the clock back behind the beat that the event left it at.
  have hreached := hafter.le_now hbefore hbot hsteady (le_iff.mpr ⟨hnan, hnan, le_rfl⟩)
  exact atMost_trans hle (add_le_add_finite hreached hslack)

/-! ## Rehearsals with a partner -/

/-- A clock of the default configuration, with a partner to follow. -/
def Conductor.partnered : Conductor Partner Unit :=
  (create {} ⟨0⟩ ({} : Partner)).toOption.get (by decide +kernel)

theorem Conductor.history_partnered (ops : List (Operation Partner Unit))
    (h : PermittedAll partnered ops) :
    History (callEvents partnered ops) ⟨partnered.applyAll ops, []⟩ := by
  have hcreate : create {} ⟨0⟩ ({} : Partner) = .ok (partnered : Conductor Partner Unit) :=
    eq_ok_get _ _
  exact (History.create hcreate).append (run_calls h)

/-- A partner is joined and reconciled with at beat 5, then the tempo is changed, and the clock is taken two
beats back. -/
def Conductor.settling : List (Operation Partner Unit) :=
  [.enableSync 0.0 4.0, .moveTo 2500000, .reconcile, .setBpm 90.0, .moveTo 2600000, .shift (-2.0)]

/-- The clock has fallen behind the beat of the reconciliation, so the next one is more than an interval ahead,
but no more than an interval and the two beats and a half that the clock is behind at most. -/
theorem settled_within_interval :
    ∃ known, (Conductor.partnered.applyAll Conductor.settling).following = some known ∧
      (Conductor.partnered.applyAll Conductor.settling).now + known.resyncInterval < known.nextResync ∧
      known.nextResync ≤
        (Conductor.partnered.applyAll Conductor.settling).now + 2.5 + known.resyncInterval := by
  have hahead : ∀ known ∈ (Conductor.partnered.applyAll Conductor.settling).following,
      (Conductor.partnered.applyAll Conductor.settling).now + known.resyncInterval < known.nextResync := by
    decide +kernel
  have hsome : (Conductor.partnered.applyAll Conductor.settling).following.isSome = true := by decide +kernel
  obtain ⟨known, hknown⟩ := Option.isSome_iff_exists.mp hsome
  obtain ⟨before, event, after, m₁, reading, interval, hevents, -, -, hschedules, -, hsame, -, hle, -⟩ :=
    reconciliation_within_interval (Conductor.history_partnered Conductor.settling (by decide +kernel)) hknown
  refine ⟨known, hknown, hahead known hknown, ?_⟩
  -- Only the first event joins, so the interval has been the same since.
  have hafter : ∀ other ∈ after, ¬ other.Follows := by
    intro other hother
    have htail : other ∈ (callEvents Conductor.partnered Conductor.settling).tail := by
      rw [hevents]
      cases before <;> simp [hother]
    simp only [Conductor.settling, callEvents, List.tail_cons, List.mem_cons, List.not_mem_nil,
      or_false] at htail
    rcases htail with rfl | rfl | rfl | rfl | rfl <;> exact fun hfollows => hfollows rfl
  -- No beat that was read is more than two beats and a half ahead of the clock.
  have hreached : reading ≤ (Conductor.partnered.applyAll Conductor.settling).now + 2.5 := by
    have hmem : event ∈ callEvents Conductor.partnered Conductor.settling := by simp [hevents]
    have hjoined : Conductor.partnered.now ≤ (Conductor.partnered.applyAll Conductor.settling).now + 2.5 := by
      decide +kernel
    have hreconciled : (Conductor.partnered.applyAll (Conductor.settling.take 2)).now ≤
        (Conductor.partnered.applyAll Conductor.settling).now + 2.5 := by decide +kernel
    generalize (Conductor.partnered.applyAll Conductor.settling).now + 2.5 = bound at hjoined hreconciled ⊢
    generalize known.nextResync = next at hschedules
    simp only [Conductor.settling, callEvents, List.mem_cons, List.not_mem_nil, or_false] at hmem
    rcases hmem with rfl | rfl | rfl | rfl | rfl | rfl
    · cases hschedules with
      | joined => exact hjoined
    · cases hschedules with
      | joined hop => cases hop
    · cases hschedules with
      | joined hop => cases hop
      | reconciled => exact hreconciled
    all_goals
      cases hschedules with
      | joined hop => cases hop
  rw [← hsame hafter]
  exact hle 2.5 hreached
/-- A partner is followed every hundred beats, and after the first reconciliation every beat. -/
def Conductor.hurried : List (Operation Partner Unit) :=
  [.enableSync 0.0 100.0, .reconcile, .enableSync 0.0 1.0]

/-- The next reconciliation is set already, so it is further ahead than the interval in force and half the
bar over which the phase is aligned. -/
theorem shorter_interval_waits :
    History (callEvents Conductor.partnered Conductor.hurried)
        ⟨Conductor.partnered.applyAll Conductor.hurried, []⟩ ∧
      (Conductor.partnered.applyAll Conductor.hurried).following.any (fun known =>
        (Conductor.partnered.applyAll Conductor.hurried).now +
          (known.resyncInterval + (Conductor.partnered.applyAll Conductor.hurried).follower.quantum
            (Conductor.partnered.applyAll Conductor.hurried).playhead / 2.0) < known.nextResync) =
        true :=
  ⟨Conductor.history_partnered _ (by decide +kernel), by decide +kernel⟩

end Cadence
