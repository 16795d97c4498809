import Mathlib
import Cadence.Proofs.Number.Exact
import Cadence.Proofs.Timeline

/-!
# The timeline under exact arithmetic

A timeline keeps its last anchor and nothing of what was before. Read with exact numbers, it still says how
many beats have passed since the beginning: every stretch under one tempo counts for its length times its
tempo. A tempo change carries the beat that was reached over to the new anchor, so it moves nothing at the
instant it comes, and a tempo that is refused leaves no trace.

- `Cursor`: a timeline with the date at which it is read, in any system of numbers. The playhead is one on
  binary64 numbers (`Playhead.cursor_start`, `Playhead.cursor_setBpm`, `Playhead.cursor_moveTime`);
- `Cursor.now_step`: what one act does to the beat;
- `Cursor.now_after`: the beat after a run of acts, counted over its segments;
- `exact_timeline`: so time moves the beat forward, and nothing else moves it.
-/

namespace Cadence

open Number

variable {α τ : Type}

/-- A timeline, and the date at which it is read. -/
structure Cursor (α : Type) where
  /-- The current date. -/
  time : WallTime
  /-- The current segment of the timeline. -/
  timeline : Timeline α

/-- What is done to a timeline: wall-clock time moves, or somebody asks for a tempo. -/
inductive Act (τ : Type) where
  /-- Wall-clock time moves. -/
  | moveTime (move : WallTime → WallTime)
  /-- A tempo is asked for. -/
  | setBpm (asked : τ)

namespace Cursor

section Measure

variable [Measure α]

/-- The current beat. -/
def now (c : Cursor α) : α := c.timeline.beatAt c.time.micros

/-- A timeline that reads `beat` now, if the tempo that is asked for is accepted as a number. -/
def start? (check : τ → Option α) (time : WallTime) (asked : τ) (beat : α) : Option (Cursor α) := do
  let bpm ← check asked
  pure ⟨time, { bpm, origin := beat, startedAt := time.micros }⟩

/-- Changes the tempo now, if what is asked for is accepted as a number, and answers the beat at which that
happened. -/
def setBpm? (check : τ → Option α) (c : Cursor α) (asked : τ) : Option (α × Cursor α) := do
  let bpm ← check asked
  pure (c.now, { c with timeline := c.timeline.changeTempo c.time.micros bpm })

/-- Carries out one act. A tempo that is not accepted changes nothing. -/
def step (check : τ → Option α) (c : Cursor α) : Act τ → Cursor α
  | .moveTime move => { c with time := move c.time }
  | .setBpm asked => ((c.setBpm? check asked).map (·.2)).getD c

/-- Carries out several acts. -/
def after (check : τ → Option α) (c : Cursor α) (acts : List (Act τ)) : Cursor α :=
  acts.foldl (step check) c

end Measure

end Cursor

/-! ## The playhead as a cursor -/

/-- The number that a tempo is accepted as. -/
def acceptedTempo (bpm : Float) : Option Float := (checkTempo bpm).toOption

theorem isPositive_of_acceptedTempo {asked bpm : Float} (h : acceptedTempo asked = some bpm) :
    isPositive bpm = true := by
  cases hcheck : checkTempo asked with
  | error fault => simp [acceptedTempo, hcheck, Except.toOption] at h
  | ok accepted =>
    obtain ⟨hasked, rfl⟩ := checkTempo_ok hcheck
    simp only [acceptedTempo, hcheck, Except.toOption, Option.some.injEq] at h
    rwa [← h]

namespace Playhead

/-- The timeline of the playhead, read at its date. -/
def cursor (p : Playhead) : Cursor Float := ⟨p.time, p.timeline⟩

/-- Both start at the same beat, if it is finite. -/
theorem cursor_start (time : WallTime) (bpm : Float) (meter : Meter) {beat : Float}
    (h : beat.isFinite = true) :
    (start time bpm meter beat).toOption.map cursor = Cursor.start? acceptedTempo time bpm beat := by
  unfold start Cursor.start? acceptedTempo
  rw [checkBeat, if_pos h]
  cases checkTempo bpm <;> rfl

/-- A tempo change on the playhead is one on its timeline, and it answers the same beat. -/
theorem cursor_setBpm (p : Playhead) (bpm : Float) :
    (p.setBpm bpm).toOption.map (fun (beat, p) => (beat, p.cursor)) =
      p.cursor.setBpm? acceptedTempo bpm := by
  unfold setBpm Cursor.setBpm? acceptedTempo
  cases checkTempo bpm <;> rfl

/-- Wall-clock time moves on the timeline as it does on the playhead. -/
theorem cursor_moveTime (p : Playhead) (move : WallTime → WallTime) :
    (p.moveTime move).cursor = p.cursor.step acceptedTempo (.moveTime move) :=
  rfl

end Playhead

/-- The exact number that a tempo is accepted as. -/
def exactTempo (bpm : Float) : Option ℚ := (acceptedTempo bpm).map exact

/-- It is above zero. -/
theorem exactTempo_pos {asked : Float} {bpm : ℚ} (h : exactTempo asked = some bpm) : 0 < bpm := by
  obtain ⟨accepted, haccepted, rfl⟩ := Option.map_eq_some_iff.mp h
  exact exact_pos (value_pos_of_isPositive (isPositive_of_acceptedTempo haccepted)).2

/-! ## Segments -/

/-- A stretch of time under one tempo. -/
structure Segment where
  /-- The tempo in beats per minute. -/
  bpm : ℚ
  /-- The date at which it begins. -/
  first : UInt64
  /-- The date at which it ends. -/
  last : UInt64

namespace Segment

/-- The microseconds from its beginning to its end. -/
def elapsed (s : Segment) : ℚ := (s.last.toNat : ℚ) - s.first.toNat

/-- The beats that pass in it. -/
def beats (s : Segment) : ℚ := s.elapsed * s.bpm / 60000000

/-- The segments that acts run through, from a tempo and the date at which it came into force. A new one
begins where a tempo is accepted. -/
def ofActs (check : τ → Option ℚ) : ℚ → UInt64 → WallTime → List (Act τ) → List Segment
  | bpm, first, time, [] => [⟨bpm, first, time.micros⟩]
  | bpm, first, time, .moveTime move :: acts => ofActs check bpm first (move time) acts
  | bpm, first, time, .setBpm asked :: acts =>
    match check asked with
    | some next => ⟨bpm, first, time.micros⟩ :: ofActs check next time.micros time acts
    | none => ofActs check bpm first time acts

section Accepting

variable {check : τ → Option ℚ} {asked : τ} {bpm next : ℚ} {first : UInt64} {time : WallTime}
  {acts : List (Act τ)}

theorem ofActs_of_refused (h : check asked = none) :
    ofActs check bpm first time (.setBpm asked :: acts) = ofActs check bpm first time acts := by
  rw [ofActs, h]

theorem ofActs_of_accepted (h : check asked = some next) :
    ofActs check bpm first time (.setBpm asked :: acts) =
      ⟨bpm, first, time.micros⟩ :: ofActs check next time.micros time acts := by
  rw [ofActs, h]

end Accepting

end Segment

/-- Wall-clock time does not go back in a run of acts. -/
def Act.Forward : WallTime → List (Act τ) → Prop
  | _, [] => True
  | time, .moveTime move :: acts => time.micros ≤ (move time).micros ∧ Forward (move time) acts
  | time, .setBpm _ :: acts => Forward time acts

/-- Moving to a date never goes back. -/
theorem WallTime.le_moveTo (t : WallTime) (date : UInt64) : t.micros ≤ (t.moveTo date).micros := by
  change t.micros ≤ if t.micros ≤ date then date else t.micros
  split
  case isTrue h => exact h
  case isFalse h => exact UInt64.le_refl _

/-! ## Exact readings -/

namespace Cursor

variable {check : τ → Option ℚ} {c : Cursor ℚ}

/-- The beat is that of the anchor and the beats of the segment since. -/
theorem now_eq (c : Cursor ℚ) :
    c.now = c.timeline.origin +
      (⟨c.timeline.bpm, c.timeline.startedAt, c.time.micros⟩ : Segment).beats :=
  rfl

theorem setBpm?_of_refused {asked : τ} (h : check asked = none) : c.setBpm? check asked = none := by
  simp [setBpm?, h]

theorem step_of_refused {asked : τ} (h : check asked = none) : c.step check (.setBpm asked) = c := by
  simp [step, setBpm?_of_refused h]

theorem setBpm?_of_accepted {asked : τ} {bpm : ℚ} (h : check asked = some bpm) :
    c.setBpm? check asked =
      some (c.now, { c with timeline := c.timeline.changeTempo c.time.micros bpm }) := by
  simp [setBpm?, h]

theorem step_of_accepted {asked : τ} {bpm : ℚ} (h : check asked = some bpm) :
    c.step check (.setBpm asked) =
      { c with timeline := c.timeline.changeTempo c.time.micros bpm } := by
  simp [step, setBpm?_of_accepted h]

/-- No beats pass at the instant of a tempo change. -/
theorem now_changeTempo (c : Cursor ℚ) (bpm : ℚ) :
    now { c with timeline := c.timeline.changeTempo c.time.micros bpm } = c.now := by
  rw [now_eq]
  simp [Timeline.changeTempo, Segment.beats, Segment.elapsed, now]

theorem now_setBpm (check : τ → Option ℚ) (c : Cursor ℚ) (asked : τ) :
    (c.step check (.setBpm asked)).now = c.now := by
  cases h : check asked with
  | none => rw [step_of_refused h]
  | some bpm => rw [step_of_accepted h, now_changeTempo]

/-- The tempo in force stays above zero. -/
theorem bpm_step_pos (hcheck : ∀ asked bpm, check asked = some bpm → 0 < bpm)
    (hbpm : 0 < c.timeline.bpm) (act : Act τ) : 0 < (c.step check act).timeline.bpm := by
  cases act with
  | moveTime move => exact hbpm
  | setBpm asked =>
    cases h : check asked with
    | none => rwa [step_of_refused h]
    | some bpm =>
      rw [step_of_accepted h]
      exact hcheck asked bpm h

/-- As time moves forward, so does the beat. -/
theorem now_le_moveTime (hbpm : 0 < c.timeline.bpm) {move : WallTime → WallTime}
    (h : c.time.micros ≤ (move c.time).micros) :
    c.now ≤ (c.step check (.moveTime move)).now := by
  have hmicros : (c.time.micros.toNat : ℚ) ≤ (move c.time).micros.toNat := by
    exact_mod_cast UInt64.le_iff_toNat_le.mp h
  rw [now_eq, now_eq]
  simp only [step, Segment.beats, Segment.elapsed]
  gcongr

/-- The tempo in force after acts is above zero. -/
theorem bpm_after_pos (hcheck : ∀ asked bpm, check asked = some bpm → 0 < bpm)
    (hbpm : 0 < c.timeline.bpm) (acts : List (Act τ)) : 0 < (c.after check acts).timeline.bpm := by
  induction acts generalizing c with
  | nil => exact hbpm
  | cons act acts ih => exact ih (bpm_step_pos hcheck hbpm act)

/-- The beat after acts is that of the anchor, and the beats of the segments that they run through. -/
theorem now_after (check : τ → Option ℚ) (c : Cursor ℚ) (acts : List (Act τ)) :
    (c.after check acts).now = c.timeline.origin +
      ((Segment.ofActs check c.timeline.bpm c.timeline.startedAt c.time acts).map
        Segment.beats).sum := by
  induction acts generalizing c with
  | nil => simp [after, Segment.ofActs, now_eq]
  | cons act acts ih =>
    refine (ih (c.step check act)).trans ?_
    cases act with
    | moveTime move => rfl
    | setBpm asked =>
      cases h : check asked with
      | none => rw [step_of_refused h, Segment.ofActs_of_refused h]
      | some bpm =>
        -- The new anchor stands at the beat that the segment so far has led to.
        rw [step_of_accepted h, Segment.ofActs_of_accepted h, List.map_cons, List.sum_cons,
          ← add_assoc]
        rfl

/-- As long as time does not go back, neither does the beat. -/
theorem now_le_after (hcheck : ∀ asked bpm, check asked = some bpm → 0 < bpm)
    (hbpm : 0 < c.timeline.bpm) {acts : List (Act τ)} (h : Act.Forward c.time acts) :
    c.now ≤ (c.after check acts).now := by
  induction acts generalizing c with
  | nil => exact le_rfl
  | cons act acts ih =>
    cases act with
    | moveTime move => exact (now_le_moveTime hbpm h.1).trans (ih hbpm h.2)
    | setBpm asked =>
      have htime : (c.step check (.setBpm asked)).time = c.time := by
        cases hasked : check asked with
        | none => rw [step_of_refused hasked]
        | some bpm => rw [step_of_accepted hasked]
      rw [← now_setBpm check c asked]
      refine ih (bpm_step_pos hcheck hbpm _) ?_
      rw [htime]
      exact h

end Cursor

/-- Under exact arithmetic, whatever is asked of a timeline that starts at a beat, and however it is checked,
as long as tempos that are accepted are above zero: the beat is the first one and what has passed in the
segments since, each counting its microseconds times its tempo. As long as time does not go back, neither
does the beat, and asking for a tempo does not move it. A tempo that is accepted comes with the beat that is
read just before, and after one that is refused everything goes on as if nobody had asked. -/
theorem exact_timeline {check : τ → Option ℚ} {time : WallTime} {first : τ} {beat bpm : ℚ}
    {start : Cursor ℚ} (hcheck : ∀ asked bpm, check asked = some bpm → 0 < bpm)
    (hfirst : check first = some bpm) (hstart : Cursor.start? check time first beat = some start)
    (acts : List (Act τ)) :
    let clock := start.after check acts
    clock.now = beat + ((Segment.ofActs check bpm time.micros time acts).map Segment.beats).sum ∧
      (∀ later, Act.Forward clock.time later → clock.now ≤ (clock.after check later).now) ∧
      (∀ asked, (clock.step check (.setBpm asked)).now = clock.now) ∧
      (∀ asked bpm, check asked = some bpm →
        clock.setBpm? check asked = some (clock.now, clock.step check (.setBpm asked))) ∧
      ∀ asked, check asked = none → clock.setBpm? check asked = none ∧
        ∀ later, clock.after check (.setBpm asked :: later) = clock.after check later := by
  intro clock
  have heq : start = ⟨time, ⟨bpm, time.micros, beat⟩⟩ := by
    simpa [Cursor.start?, hfirst] using hstart.symm
  have hbpm : 0 < start.timeline.bpm := by
    rw [heq]
    exact hcheck first bpm hfirst
  refine ⟨?_, fun later h => ?_, clock.now_setBpm check, fun asked bpm h => ?_, fun asked h => ?_⟩
  · rw [Cursor.now_after, heq]
  · exact Cursor.now_le_after hcheck (Cursor.bpm_after_pos hcheck hbpm acts) h
  · rw [Cursor.setBpm?_of_accepted h, Cursor.step_of_accepted h]
  · exact ⟨Cursor.setBpm?_of_refused h,
      fun later => congrArg (Cursor.after check · later) (Cursor.step_of_refused h)⟩

/-- A timeline that runs at 120 beats per minute for two seconds, is then asked for a tempo that is no number,
and runs at 60 for another second. -/
theorem slowed_timeline_exact :
    let acts : List (Act Float) :=
      [.moveTime (·.moveTo 2000000), .setBpm (0.0 / 0.0), .setBpm 60.0, .moveTime (·.moveTo 3000000)]
    ∃ start, exactTempo 120.0 = some 120 ∧ exactTempo (0.0 / 0.0) = none ∧
      Cursor.start? exactTempo ⟨0⟩ 120.0 0 = some start ∧ (start.after exactTempo acts).now = 5 ∧
      ∀ date, (start.after exactTempo acts).now ≤
        ((start.after exactTempo acts).after exactTempo [.moveTime (·.moveTo date)]).now := by
  intro acts
  have hfirst : exactTempo 120.0 = some 120 := by
    rw [exactTempo, show acceptedTempo 120.0 = some 120.0 by decide +kernel, Option.map_some, exact,
      show (120.0 : Float).toModel.unpack = .finite .positive (15 * 2 ^ 49) (-46) (by norm_num)
        from rfl]
    norm_num [Float.Model.UnpackedFloat.Sign.apply]
  have hslower : exactTempo 60.0 = some 60 := by
    rw [exactTempo, show acceptedTempo 60.0 = some 60.0 by decide +kernel, Option.map_some, exact,
      show (60.0 : Float).toModel.unpack = .finite .positive (15 * 2 ^ 49) (-47) (by norm_num)
        from rfl]
    norm_num [Float.Model.UnpackedFloat.Sign.apply]
  have hrefused : exactTempo (0.0 / 0.0) = none := by
    rw [exactTempo, show acceptedTempo (0.0 / 0.0) = none by decide +kernel, Option.map_none]
  have hstart : Cursor.start? exactTempo ⟨0⟩ 120.0 0 = some ⟨⟨0⟩, ⟨120, 0, 0⟩⟩ := by
    rw [Cursor.start?, hfirst]
    rfl
  obtain ⟨hnow, hforward, -⟩ :=
    exact_timeline (fun asked bpm (h : exactTempo asked = some bpm) => exactTempo_pos h) hfirst
      hstart acts
  refine ⟨_, hfirst, hrefused, hstart, ?_, fun date => hforward _ ⟨WallTime.le_moveTo _ _, trivial⟩⟩
  rw [hnow]
  have hsegments : Segment.ofActs exactTempo 120 0 ⟨0⟩ acts =
      [⟨120, 0, 2000000⟩, ⟨60, 2000000, 3000000⟩] := by
    simp only [acts, Segment.ofActs, hrefused, hslower]
    rfl
  rw [hsegments]
  norm_num [Segment.beats, Segment.elapsed, show (2000000 : UInt64).toNat = 2000000 from rfl,
    show (3000000 : UInt64).toNat = 3000000 from rfl]

end Cadence
