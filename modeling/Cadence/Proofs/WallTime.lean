import Mathlib
import Cadence.WallTime

/-!
# How far wall-clock time moves forward

Wall-clock time is a count of 64 bits. Moving to a date never takes it back, but an amount that is added to
it can go past the end of the count, which then starts over. This is the only way in which time goes back.

- `Move.run_lt_iff`: a call takes time back exactly if the amount that it adds does not fit;
- `readings_ascend_iff`: the readings of any calls ascend exactly as long as every amount fits;
- `fits_of_sum_lt`: they all do if the latest date and the sum of the amounts do.
-/

namespace Cadence.WallTime

/-- A call that moves time. -/
inductive Move where
  /-- Moves time on by a duration. -/
  | advance (seconds nanoseconds : ℕ)
  /-- Moves time on by a number of microseconds. -/
  | advanceMicros (micros : UInt64)
  /-- Moves time forward to a date. -/
  | moveTo (date : UInt64)
deriving Repr, DecidableEq

namespace Move

/-- Makes a call. -/
def run : Move → WallTime → WallTime
  | .advance seconds nanoseconds, t => t.advance seconds nanoseconds
  | .advanceMicros micros, t => t.advanceMicros micros
  | .moveTo date, t => t.moveTo date

/-- The microseconds that a call adds. Of those in a duration the low 64 bits count. -/
def added : Move → ℕ
  | .advance seconds nanoseconds => (seconds * 1000000 + nanoseconds / 1000) % 2 ^ 64
  | .advanceMicros micros => micros.toNat
  | .moveTo _ => 0

/-- What the call adds goes past the end of the count. -/
def Overruns (move : Move) (t : WallTime) : Prop := 2 ^ 64 ≤ t.micros.toNat + move.added

instance (move : Move) (t : WallTime) : Decidable (move.Overruns t) := Nat.decLe _ _

/-- A count starts over at its end. -/
theorem toNat_advanceMicros (t : WallTime) (micros : UInt64) :
    (t.advanceMicros micros).micros.toNat = (t.micros.toNat + micros.toNat) % 2 ^ 64 :=
  UInt64.toNat_add _ _

theorem toNat_moveTo (t : WallTime) (date : UInt64) :
    (t.moveTo date).micros.toNat = max t.micros.toNat date.toNat := by
  change (if t.micros ≤ date then date else t.micros).toNat = _
  split_ifs with h
  · exact (max_eq_right (UInt64.le_iff_toNat_le.mp h)).symm
  · rw [UInt64.not_le, UInt64.lt_iff_toNat_lt] at h
    exact (max_eq_left h.le).symm

/-- A call that moves to no date adds its amount, and the count starts over at its end. -/
theorem toNat_run {move : Move} (h : ∀ date, move ≠ .moveTo date) (t : WallTime) :
    (move.run t).micros.toNat = (t.micros.toNat + move.added) % 2 ^ 64 := by
  cases move with
  | advance seconds nanoseconds =>
    refine (toNat_advanceMicros t _).trans ?_
    rw [UInt64.toNat_ofNat', added]
  | advanceMicros micros => exact toNat_advanceMicros t micros
  | moveTo date => exact absurd rfl (h date)

theorem added_lt (move : Move) : move.added < 2 ^ 64 := by
  cases move with
  | advance => exact Nat.mod_lt _ (by decide)
  | advanceMicros micros => exact micros.toNat_lt
  | moveTo => exact Nat.two_pow_pos 64

/-- A call takes time back exactly if what it adds goes past the end of the count. -/
theorem run_lt_iff (move : Move) (t : WallTime) : (move.run t).micros < t.micros ↔ move.Overruns t := by
  rw [UInt64.lt_iff_toNat_lt, Overruns]
  have hcount := t.micros.toNat_lt
  by_cases hdate : ∃ date, move = .moveTo date
  · obtain ⟨date, rfl⟩ := hdate
    have hlater := le_max_left t.micros.toNat date.toNat
    rw [run, toNat_moveTo, added]
    omega
  · have hadded := move.added_lt
    rw [toNat_run (fun date h => hdate ⟨date, h⟩)]
    omega

theorem le_run_iff (move : Move) (t : WallTime) : t.micros ≤ (move.run t).micros ↔ ¬ move.Overruns t := by
  rw [← move.run_lt_iff, UInt64.not_lt]

end Move

/-- What time reads, at the start and after each of several calls. -/
def readings (t : WallTime) : List Move → List UInt64
  | [] => [t.micros]
  | move :: moves => t.micros :: (move.run t).readings moves

/-- What each of several calls adds fits into the count. -/
def Fits (t : WallTime) : List Move → Prop
  | [] => True
  | move :: moves => ¬ move.Overruns t ∧ (move.run t).Fits moves

/-- It can be tested whether what several calls add fits. -/
def decidableFits : ∀ (t : WallTime) (moves : List Move), Decidable (t.Fits moves)
  | _, [] => .isTrue trivial
  | t, move :: moves =>
    letI := decidableFits (move.run t) moves
    inferInstanceAs (Decidable (¬ move.Overruns t ∧ (move.run t).Fits moves))

instance (t : WallTime) (moves : List Move) : Decidable (t.Fits moves) := decidableFits t moves

/-- The first reading is that of the start. -/
theorem exists_readings_eq_cons (t : WallTime) (moves : List Move) :
    ∃ rest, t.readings moves = t.micros :: rest := by
  cases moves <;> exact ⟨_, rfl⟩

/-- Readings ascend exactly as long as what is added fits. -/
theorem readings_ascend_iff (t : WallTime) (moves : List Move) :
    (t.readings moves).Pairwise (· ≤ ·) ↔ t.Fits moves := by
  rw [← List.isChain_iff_pairwise]
  induction moves generalizing t with
  | nil => exact iff_of_true (List.isChain_singleton _) trivial
  | cons move moves ih =>
    -- The reading at the start is followed by the one after the first call.
    obtain ⟨rest, hrest⟩ := (move.run t).exists_readings_eq_cons moves
    have hnext := ih (move.run t)
    rw [hrest] at hnext
    rw [readings, hrest, List.isChain_cons_cons, hnext, move.le_run_iff, Fits]

/-- What is added fits if all of it fits on top of every date. -/
theorem fits_of_sum_lt {t : WallTime} {moves : List Move} {latest : ℕ} (hstart : t.micros.toNat ≤ latest)
    (hdates : ∀ date, Move.moveTo date ∈ moves → date.toNat ≤ latest)
    (hsum : latest + (moves.map Move.added).sum < 2 ^ 64) : t.Fits moves := by
  induction moves generalizing t latest with
  | nil => trivial
  | cons move moves ih =>
    rw [List.map_cons, List.sum_cons] at hsum
    have hroom : ¬ move.Overruns t := by
      unfold Move.Overruns
      omega
    have hrest (date : UInt64) (hdate : Move.moveTo date ∈ moves) : date.toNat ≤ latest + move.added :=
      (hdates date (.tail _ hdate)).trans (Nat.le_add_right _ _)
    refine ⟨hroom, ih ?_ hrest (by omega)⟩
    by_cases hdate : ∃ date, move = .moveTo date
    · obtain ⟨date, rfl⟩ := hdate
      rw [Move.run, Move.toNat_moveTo]
      exact max_le hstart (hdates date (.head _))
    · rw [Move.toNat_run (fun date h => hdate ⟨date, h⟩)]
      exact (Nat.mod_le _ _).trans (Nat.add_le_add_right hstart _)

/-- Whatever calls move time, no reading is below an earlier one exactly as long as nothing that is added
goes past the end of the count. It never does while the start and every date that time is moved to, with all
that is added on top, stay below `2 ^ 64` microseconds. -/
theorem time_moves_forward (t : WallTime) (moves : List Move) :
    ((t.readings moves).Pairwise (· ≤ ·) ↔ t.Fits moves) ∧
      ∀ latest : ℕ, t.micros.toNat ≤ latest →
        (∀ date, Move.moveTo date ∈ moves → date.toNat ≤ latest) →
        latest + (moves.map Move.added).sum < 2 ^ 64 → (t.readings moves).Pairwise (· ≤ ·) :=
  ⟨t.readings_ascend_iff moves, fun _ hstart hdates hsum =>
    (t.readings_ascend_iff moves).mpr (fits_of_sum_lt hstart hdates hsum)⟩

/-- A date that is past already, a duration whose microseconds take more than 64 bits, and a date ahead. -/
theorem long_duration_moves_forward :
    let t : WallTime := ⟨1000⟩
    let moves : List Move :=
      [.advance 0 2000999, .moveTo 500, .advance 18446744073709 551617000, .advanceMicros 7, .moveTo 9000]
    t.readings moves = [1000, 3000, 3000, 3001, 3008, 9000] ∧ t.Fits moves ∧
      9000 + (moves.map Move.added).sum < 2 ^ 64 ∧ (t.readings moves).Pairwise (· ≤ ·) := by
  intro t moves
  have hdates : ∀ date, Move.moveTo date ∈ moves → date.toNat ≤ 9000 := by
    intro date hdate
    have hcases : date = 500 ∨ date = 9000 := by simpa [moves] using hdate
    rcases hcases with rfl | rfl <;> decide
  have hascend := (time_moves_forward t moves).2 9000 (by decide) hdates (by decide)
  exact ⟨by decide, (time_moves_forward t moves).1.mp hascend, by decide, hascend⟩

/-- At the last microsecond of the count, one more takes time back to its origin. -/
theorem last_microsecond_starts_over :
    let t : WallTime := ⟨18446744073709551615⟩
    t.readings [.advanceMicros 1] = [18446744073709551615, 0] ∧
      ¬ (t.readings [.advanceMicros 1]).Pairwise (· ≤ ·) := by
  decide

end Cadence.WallTime
