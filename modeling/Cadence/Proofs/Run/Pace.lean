import Mathlib
import Cadence.Proofs.Number.Arithmetic
import Cadence.Proofs.Recurrence
import Cadence.Proofs.Run.Turn

/-!
# Ticks that keep pace with a recurring point

A pass of a tick moves a recurring point on once at most, and a tick makes a limited number of passes. This
file proves that ticks which are at most a period apart keep pace with the point all the same.

- `cycleBeat_mono` and `below_cycleBeat_succ` order the beats of a recurring point;
- `LawfulPerformer.passes_reach`: with enough passes left, one of them begins when the point has moved on
  to every beat up to the reading;
- `Ticking.reached` says so for the last one of any number of ticks.
-/

namespace Cadence

variable {σ β γ ω : Type}

/-! ## The order of the beats -/

section Beats

variable {b period : Float} (hb : b.isFinite = true) (hperiod : period.isFinite = true)
  (hpos : 0.0 < period)

include hb hperiod

theorem isNaN_cycleBeat (k : ℕ) : (cycleBeat b period k).isNaN = false := by
  induction k with
  | zero => exact Number.isNaN_of_isFinite hb
  | succ k ih => exact (Number.place_add_left ih hperiod).2

include hpos

theorem cycleBeat_le_succ (k : ℕ) : cycleBeat b period k ≤ cycleBeat b period (k + 1) :=
  Number.le_add_finite (isNaN_cycleBeat hb hperiod k) hperiod (Number.value_pos hperiod hpos).le

theorem cycleBeat_mono {j k : ℕ} (h : j ≤ k) : cycleBeat b period j ≤ cycleBeat b period k := by
  induction h with
  | refl => exact Number.atMost_refl (isNaN_cycleBeat hb hperiod j)
  | step _ ih => exact Number.atMost_trans ih (cycleBeat_le_succ hb hperiod hpos _)

/-- Where the period is lost to rounding, the beats get no further. -/
theorem cycleBeat_stuck {j : ℕ} (h : cycleBeat b period (j + 1) ≤ cycleBeat b period j) (k : ℕ) :
    cycleBeat b period k ≤ cycleBeat b period j := by
  induction k with
  | zero => exact cycleBeat_mono hb hperiod hpos (Nat.zero_le j)
  | succ k ih => exact Number.atMost_trans (Number.add_le_add_finite ih hperiod) h

/-- As long as the beats get past a reading, the beat after one that is not below it is above it. -/
theorem below_cycleBeat_succ {r : Float} (hpast : ∃ k, r < cycleBeat b period k) {j : ℕ}
    (h : r ≤ cycleBeat b period j) : r < cycleBeat b period (j + 1) := by
  by_contra hnot
  obtain ⟨k, hk⟩ := hpast
  -- Otherwise the beats would be stuck at the reading, and get past it nowhere.
  have hle := Number.le_of_not_lt (Number.le_iff.mp h).1 (isNaN_cycleBeat hb hperiod _) hnot
  have hstuck := cycleBeat_stuck hb hperiod hpos (Number.atMost_trans hle h) k
  exact Number.not_lt_of_le (Number.atMost_trans hstuck
    (Number.atMost_trans (cycleBeat_le_succ hb hperiod hpos j) hle)) hk

end Beats

/-! ## How far a point has moved -/

/-- How often the point of the token has moved on. -/
def moved (t : Token) (events : List (Event σ β)) : ℕ :=
  (gather (Task.move? t) (startedEntries events)).length

theorem moved_append (t : Token) (events later : List (Event σ β)) :
    moved t (events ++ later) = moved t events + moved t later := by
  unfold moved
  rw [startedEntries_append, gather_append, List.length_append]

theorem Cycles.moved_eq {t : Token} {period b : Float} {attached : ℕ → List (Action β)}
    {events : List (Event σ β)} {m : Moment σ β} {n : ℕ}
    (h : Cycles t period b attached events m n) : moved t events = n := by
  rw [moved, h.moves, List.length_map, List.length_range]

/-- The event neither resets the point of the token nor drops entries with the token. -/
def Event.Keeps [Transport σ] (event : Event σ β) (t : Token) : Prop :=
  ¬ event.Resets t.point ∧ ∀ e ∈ event.dropped, e.task.token? ≠ some t

variable [Transport σ]

omit [Transport σ] in
/-- The entry that is pending for the next beat, if that is finite. -/
theorem Cycles.exists_next {t : Token} {period b : Float} {attached : ℕ → List (Action β)}
    {events : List (Event σ β)} {m : Moment σ β} {n : ℕ} (h : Cycles t period b attached events m n)
    (hfinite : (cycleBeat b period (n + 1)).isFinite = true) :
    ∃ e ∈ m.pending, e.task.move? t e.dueBeat = some (cycleBeat b period (n + 1)) ∧
      e.dueBeat = cycleBeat b period (n + 1) := by
  have hnext : cycleBeat b period (n + 1) ∈ gather (Task.move? t) m.pending := by
    rw [h.next, if_pos hfinite]
    exact .head _
  obtain ⟨e, he, hmove⟩ := List.mem_filterMap.mp hnext
  refine ⟨e, he, hmove, ?_⟩
  cases htask : e.task with
  | rearm token beat =>
    simp only [htask, Task.move?] at hmove
    split_ifs at hmove
    exact Option.some.inj hmove
  | _ => simp [htask, Task.move?] at hmove

/-- Some pass that measured a beat from `r` on began when the point had moved on to every beat up to `r`,
and no pass was under way any more when it ended. -/
def Reached (t : Token) (period b : Float) (m₀ : Moment σ β) (events : List (Event σ β))
    (r : Float) : Prop :=
  ∃ earlier c later rest m₁ m₂, events = earlier ++ (.measured c :: later) ++ rest ∧
    Run m₀ earlier m₁ ∧ Run m₁ (.measured c :: later) m₂ ∧ m₂.underway = [] ∧ r ≤ c.now ∧
    r < cycleBeat b period (moved t earlier + 1)

theorem Reached.append {t : Token} {period b : Float} {m₀ : Moment σ β}
    {events : List (Event σ β)} {r : Float} (h : Reached t period b m₀ events r)
    (later : List (Event σ β)) : Reached t period b m₀ (events ++ later) r := by
  obtain ⟨earlier, c, pass, rest, m₁, m₂, rfl, hbefore, hpass, hidle, hreading, hlag⟩ := h
  exact ⟨earlier, c, pass, rest ++ later, m₁, m₂, List.append_assoc _ _ _, hbefore, hpass, hidle,
    hreading, hlag⟩

namespace LawfulPerformer

open Conductor

variable {L : LawfulPerformer σ β ω} {m₀ : Moment σ β} {t : Token} {period b r : Float}
  {attached : ℕ → List (Action β)}
  (hs : Sound m₀) (hopen : Cycles t period b attached [] m₀ 0) (hb : b.isFinite = true)
  (hperiod : period.isFinite = true) (hpos : 0.0 < period)
  (hpast : ∃ k, r < cycleBeat b period k)

include hs hopen hb hperiod hpos hpast

/-- A pass that the point is behind moves it on. -/
theorem moved_pos_of_pass {earlier later : List (Event σ β)} {c : Conductor σ β} {m : Moment σ β}
    (hrun : Run m₀ earlier ⟨c, []⟩) (hkept : ∀ event ∈ earlier, event.Keeps t)
    (hreading : r ≤ c.now) (hbehind : cycleBeat b period (moved t earlier + 1) ≤ r)
    (hpass : Run ⟨c, []⟩ (.measured c :: later) m) (hidle : m.underway = []) :
    c.drain.1 ≠ [] ∧ 0 < moved t (.measured c :: later) := by
  obtain ⟨_, n, -, hcycles⟩ := hopen.run hs hrun hkept
  rw [List.nil_append] at hcycles
  rw [hcycles.moved_eq] at hbehind
  -- The next beat lies between the last one and the reading, so it is finite.
  have hfinite : (cycleBeat b period (n + 1)).isFinite = true := by
    obtain ⟨k, hk⟩ := hpast
    exact Number.isFinite_of_between (hcycles.finite n le_rfl)
      (cycleBeat_le_succ hb hperiod hpos n) hbehind hk
  obtain ⟨e, he, hmove, hdue⟩ := hcycles.exists_next hfinite
  have hreached : e.dueBeat ≤ c.now := hdue ▸ Number.atMost_trans hbehind hreading
  have hnow := hrun.sound hs
  have hstarted := hpass.mem_started_of_measured hnow hidle he hreached
  refine ⟨List.ne_nil_of_mem (Queue.mem_drainDue_of_le hnow.valid ?_ hreached),
    List.length_pos_of_mem (List.mem_filterMap.mpr ⟨e, hstarted, hmove⟩)⟩
  simpa [Moment.pending, Moment.flying] using he

/-- With enough passes left, one of them begins when the point has moved on to every beat up to the
reading. -/
theorem passes_reach (n : ℕ) (s : Conductor σ β × ω) {earlier : List (Event σ β)}
    (hrun : Run m₀ earlier ⟨s.1, []⟩) (hheld : ∀ id ∈ L.handles s.2, s.1.points.Has id)
    (hkept : ∀ event ∈ earlier ++ (passes L.perform (n + 1) s).flatMap L.firstPass, event.Keeps t)
    (hreading : ∀ c, Event.measured c ∈ (passes L.perform (n + 1) s).flatMap L.firstPass → r ≤ c.now)
    (hlag : r < cycleBeat b period (moved t earlier + (n + 1))) :
    Reached t period b m₀ (earlier ++ (passes L.perform (n + 1) s).flatMap L.firstPass) r := by
  induction n generalizing earlier s with
  | zero =>
    rw [passes, List.flatMap_cons] at hreading ⊢
    exact ⟨earlier, s.1, _, _, _, _, (List.append_assoc _ _ _).symm, hrun,
      (run_pass (hrun.sound hs) hheld).1, rfl, hreading s.1 (List.mem_append_left _ (.head _)), hlag⟩
  | succ n ih =>
    obtain ⟨hpass, hafter⟩ := run_pass (hrun.sound hs) hheld
    rw [passes, List.flatMap_cons] at hkept hreading ⊢
    have hnow := hreading s.1 (List.mem_append_left _ (.head _))
    by_cases hcaught : r < cycleBeat b period (moved t earlier + 1)
    · exact ⟨earlier, s.1, _, _, _, _, (List.append_assoc _ _ _).symm, hrun, hpass, rfl, hnow, hcaught⟩
    · -- The pass moves the point on, and one pass less is left.
      have hbehind := Number.le_of_not_lt (Number.le_iff.mp hnow).1
        (isNaN_cycleBeat hb hperiod _) hcaught
      obtain ⟨hfound, hmoved⟩ := moved_pos_of_pass hs hopen hb hperiod hpos hpast hrun
        (fun event hevent => hkept event (List.mem_append_left _ hevent)) hnow hbehind hpass rfl
      rw [if_neg hfound] at hkept hreading ⊢
      rw [← List.append_assoc] at hkept ⊢
      refine ih _ (hrun.append hpass) hafter hkept
        (fun c' hc' => hreading c' (List.mem_append_right _ hc')) ?_
      have hmoved' : 0 < moved t (L.firstPass s) := hmoved
      rw [moved_append]
      refine Number.below_of_below_of_atMost hlag (cycleBeat_mono hb hperiod hpos ?_)
      omega

end LawfulPerformer

/-! ## Ticks -/

/-- Ticks that are called one after another since a moment, of which none reads a beat more than a period
after the one before. Anything may happen in between. Of each tick a beat is kept that all its passes have
reached, latest first; the last one in the list is the beat of the moment. -/
inductive Ticking (L : LawfulPerformer σ β ω) (period : Float) (m₀ : Moment σ β) :
    List (Event σ β) → Moment σ β → List Float → Prop where
  /-- No tick yet. -/
  | begin : Ticking L period m₀ [] m₀ [m₀.clock.now]
  /-- Something happens between ticks. -/
  | between {events later m m' readings} : Ticking L period m₀ events m readings →
      Run m later m' → Ticking L period m₀ (events ++ later) m' readings
  /-- One more tick. -/
  | tick {events} {c : Conductor σ β} {w : ω} {r r' : Float} {readings} :
      Ticking L period m₀ events ⟨c, []⟩ (r :: readings) →
      (∀ id ∈ L.handles w, c.points.Has id) →
      (Conductor.tick L.perform (c, w)).1.isSome = true →
      (∀ c', Event.measured c' ∈ L.tickEvents (c, w) → r' ≤ c'.now) → r' ≤ r + period →
      Ticking L period m₀ (events ++ L.tickEvents (c, w))
        ⟨(Conductor.tick L.perform (c, w)).2.1, []⟩ (r' :: r :: readings)

/-- A tick that makes a report reconciles and then makes its passes. -/
theorem LawfulPerformer.tickEvents_eq {L : LawfulPerformer σ β ω} {s : Conductor σ β × ω}
    (h : (Conductor.tick L.perform s).1.isSome = true) :
    L.tickEvents s = .called .reconcile s.1 :: L.dueEvents (s.1.reconcileIfDue.2, s.2) := by
  unfold tickEvents
  unfold Conductor.tick at h
  rcases hanswer : s.1.reconcileIfDue with ⟨answer, c⟩
  rw [hanswer] at h
  cases answer with
  | unbounded => simp at h
  | _ => rfl

namespace Ticking

variable {L : LawfulPerformer σ β ω} {period b : Float} {m₀ m : Moment σ β}
  {events : List (Event σ β)} {readings : List Float}

theorem run (h : Ticking L period m₀ events m readings) (hs : Sound m₀) : Run m₀ events m := by
  induction h with
  | begin => exact .nil
  | between _ hlater ih => exact ih.append hlater
  | @tick events c w r r' readings _ hheld _ _ _ ih =>
    exact ih.append (LawfulPerformer.run_tick (s := (c, w)) (ih.sound hs) hheld).1

/-- Every tick has a pass that begins when the point has moved on to every beat up to the reading, if the
point is not too far behind at the start. -/
theorem reached {t : Token} {attached : ℕ → List (Action β)}
    (h : Ticking L period m₀ events m readings) (hs : Sound m₀)
    (hopen : Cycles t period b attached [] m₀ 0) (hb : b.isFinite = true)
    (hperiod : period.isFinite = true) (hpos : 0.0 < period)
    (hlag : m₀.clock.now < cycleBeat b period 30) (hkept : ∀ event ∈ events, event.Keeps t)
    (hpast : ∀ r ∈ readings, ∃ k, r < cycleBeat b period k) :
    ∃ r rest, readings = r :: rest ∧ r < cycleBeat b period (moved t events + 30) ∧
      (rest ≠ [] → Reached t period b m₀ events r) := by
  induction h with
  | begin => exact ⟨_, [], rfl, by simpa [moved, startedEntries, gather] using hlag, fun h => absurd rfl h⟩
  | @between events later m m' readings _ hlater ih =>
    rw [List.forall_mem_append] at hkept
    obtain ⟨r, rest, rfl, hr, hreached⟩ := ih hkept.1 hpast
    refine ⟨r, rest, rfl, ?_, fun hrest => (hreached hrest).append later⟩
    rw [moved_append]
    exact Number.below_of_below_of_atMost hr (cycleBeat_mono hb hperiod hpos (by omega))
  | @tick events c w r r' readings hbefore hheld hreport hreadings hapart ih =>
    rw [List.forall_mem_append] at hkept
    obtain ⟨hpast', hpasts⟩ := List.forall_mem_cons.mp hpast
    obtain ⟨_, _, heq, hr, -⟩ := ih hkept.1 hpasts
    cases heq
    -- The reading is not past the beat after the next thirty, so the passes of the tick suffice.
    have hnext := below_cycleBeat_succ hb hperiod hpos hpast' (j := moved t events + 31)
      (Number.atMost_trans hapart (Number.add_le_add_finite (Number.atMost_of_below hr) hperiod))
    have hrun := hbefore.run hs
    have hreconcile : Step ⟨c, []⟩ (.called .reconcile c) ⟨c.reconcileIfDue.2, []⟩ := .call trivial
    have hreached : Reached t period b m₀ (events ++ L.tickEvents (c, w)) r' := by
      rw [LawfulPerformer.tickEvents_eq hreport, LawfulPerformer.dueEvents_eq] at hkept hreadings ⊢
      rw [List.append_cons]
      refine LawfulPerformer.passes_reach hs hopen hb hperiod hpos hpast' 31
        (c.reconcileIfDue.2, w) (hrun.snoc hreconcile) ?_ ?_ ?_ ?_
      · exact fun id hid => (Run.single hreconcile).has (hrun.sound hs) (hheld id hid)
      · rw [List.append_assoc]
        exact List.forall_mem_append.mpr hkept
      · exact fun c' hc' => hreadings c' (.tail _ hc')
      · rw [moved_append]
        exact Number.below_of_below_of_atMost hnext (cycleBeat_mono hb hperiod hpos (by omega))
    -- So the point is behind the reading by less than one cycle, and has thirty to spare.
    obtain ⟨earlier, c', later, rest, m₁, m₂, hsplit, hfirst, hpass, hidle, hreading, hcaught⟩ :=
      id hreached
    refine ⟨r', _, rfl, ?_, fun _ => hreached⟩
    rw [hsplit, moved_append, moved_append]
    exact Number.below_of_below_of_atMost hcaught (cycleBeat_mono hb hperiod hpos (by omega))

end Ticking

end Cadence
