import Mathlib
import Cadence.Proofs.Number.Remainder
import Cadence.Proofs.Run.Nudge

/-!
# The short way round

The phase error is a position within the quantum, less half a quantum. It is no further from zero than half a
quantum, and it is half a quantum only if the position comes out as the quantum itself. That happens when the
lag is the number right before minus half a quantum and the quantum less one bit is rounded to the quantum,
which no power of two is. A quantum among the smallest numbers has no exact half, and by one among the largest
numbers the sum with the half can overflow.

- `ShortWay`: a distance that makes up for a lag on the short way;
- `Halved.shortWay_of_not_behind`, `Halved.shortWay_of_behind`: the two cases of the lag;
- `phase_error_takes_short_way`: the phase error for every finite input.
-/

namespace Cadence

open Number

/-! ## Making up for a lag -/

/-- The way from a lag to the nearest place where there is none, a whole number of periods away. -/
def wrapped (lag half quantum : Float) : Float := cycleRemainder (lag + half) quantum - half

/-- A distance is on the short way round. -/
structure ShortWay (lag quantum distance : ℝ) : Prop where
  /-- It does not go back by more than half a period. -/
  low : -(quantum / 2) ≤ distance
  /-- It does not go on by more than half a period. -/
  high : distance ≤ quantum / 2
  /-- It goes on by as much only for the lag right before half a period, if the period less this bit rounds to
  the period. -/
  top_iff : distance = quantum / 2 ↔
    lag = -(quantum / 2) - (2 : ℝ) ^ gridExponent (quantum / 2) ∧
      nearest (quantum - (2 : ℝ) ^ gridExponent (quantum / 2)) = quantum
  /-- It makes up for the lag, a whole number of periods apart and up to rounding. -/
  near : ∃ n : ℤ, |distance - (lag + n * quantum)| ≤ 4 * roundoff * quantum

section Wrapped

variable {lag half quantum : Float}

/-- A period with its half. -/
structure Halved (half quantum : Float) : Prop where
  /-- The period is finite. -/
  finite : quantum.isFinite = true
  /-- It is not among the smallest numbers. -/
  large : (2 : ℝ) ^ (-1021 : ℤ) ≤ value quantum
  /-- So its half is a number, too. -/
  half_finite : half.isFinite = true
  /-- The half is exact. -/
  half_eq : value half = value quantum / 2

namespace Halved

theorem pos (h : Halved half quantum) : 0 < value quantum := lt_of_lt_of_le (by positivity) h.large

theorem half_pos (h : Halved half quantum) : 0 < value half := by
  rw [h.half_eq]
  linarith [h.pos]

theorem two_half (h : Halved half quantum) : value quantum = value half + value half := by
  rw [h.half_eq, add_halves]

/-- Numbers of at least half a period are multiples of its last bit. -/
theorem onGrid {x : Float} (h : Halved half quantum) (hx : value half ≤ |value x|) :
    OnGrid (gridExponent (value half)) (value x) := onGrid_value h.half_pos hx

theorem onGrid_half (h : Halved half quantum) : OnGrid (gridExponent (value half)) (value half) :=
  h.onGrid (le_abs_self _)

/-- A result that is no larger than half a period is exact on that grid. -/
theorem value_eq (h : Halved half quantum) {r : Float} {p : ℝ} (hnan : r.isNaN = false)
    (hplace : place r = rounded p) (hgrid : OnGrid (gridExponent (value half)) p) (hle : |p| ≤ value half) :
    r.isFinite = true ∧ value r = p := by
  obtain ⟨hfinite, hvalue⟩ := value_of_rounded hnan hplace
    ((inRange_value h.half_finite).of_abs_le (hle.trans (le_abs_self _)))
  exact ⟨hfinite, hvalue.trans (hgrid.nearestSigned_eq_of_le hle)⟩

/-- Half a period is taken off a position. -/
theorem sub_spec (h : Halved half quantum) {c : Float} (hc : c.isFinite = true) (hnonneg : 0 ≤ value c)
    (hle : value c ≤ value quantum) : (c - half).isFinite = true ∧ -value half ≤ value (c - half) ∧
      (value half ≤ value c → value (c - half) = value c - value half) ∧
      (value c < value half → value (c - half) ≤ 0) ∧
      |value (c - half) - (value c - value half)| ≤ roundoff * value quantum := by
  have hhalf := h.half_pos
  have htwo := h.two_half
  obtain ⟨hplace, hnan⟩ := place_sub hc h.half_finite
  have hsize : |value c - value half| ≤ value half := abs_le.mpr ⟨by linarith, by linarith⟩
  have hin : InRange (value c - value half) :=
    (inRange_value h.half_finite).of_abs_le (hsize.trans (le_abs_self _))
  obtain ⟨hfinite, hvalue⟩ := value_of_rounded hnan hplace hin
  obtain ⟨-, herror⟩ := value_sub_error hc h.half_finite hin
  refine ⟨hfinite, ?_, fun hlarge => ?_, fun hsmall => ?_, ?_⟩
  · have hneg := nearestSigned_mono (show -value half ≤ value c - value half by linarith)
    rwa [← hvalue, (h.onGrid_half.neg).nearestSigned_eq_of_le (by rw [abs_neg, abs_of_pos hhalf])] at hneg
  · -- From half a period on the position is on the grid of the half, and so is what is left of it.
    exact (h.value_eq hnan hplace ((h.onGrid (hlarge.trans (le_abs_self _))).sub h.onGrid_half) hsize).2
  · have hneg := nearestSigned_mono (show value c - value half ≤ 0 by linarith)
    rwa [← hvalue, nearestSigned_zero] at hneg
  · refine herror.trans (mul_le_mul_of_nonneg_left ?_ roundoff_pos.le)
    linarith

/-- A lag behind half a period leads to a sum below zero, which is exact. -/
theorem value_add_of_behind (h : Halved half quantum) (hlag : lag.isFinite = true)
    (hlow : -value quantum ≤ value lag) (hbehind : value lag < -value half) :
    (lag + half).isFinite = true ∧ value (lag + half) = value lag + value half ∧
      OnGrid (gridExponent (value half)) (value lag + value half) := by
  have htwo := h.two_half
  have hgrid : OnGrid (gridExponent (value half)) (value lag + value half) := by
    rw [← sub_neg_eq_add]
    exact (h.onGrid (le_abs.mpr (.inr (by linarith)))).sub h.onGrid_half.neg
  obtain ⟨hplace, hnan⟩ := place_add hlag h.half_finite
  obtain ⟨hfinite, hvalue⟩ := h.value_eq hnan hplace hgrid (abs_le.mpr ⟨by linarith, by linarith [h.half_pos]⟩)
  exact ⟨hfinite, hvalue, hgrid⟩

/-- The period, and what two last bits of its half are less than it, are exact. -/
theorem nearestSigned_sub_two (h : Halved half quantum) :
    nearestSigned (value quantum - 2 * (2 : ℝ) ^ gridExponent (value half)) =
      value quantum - 2 * (2 : ℝ) ^ gridExponent (value half) := by
  have hunit : 2 * (2 : ℝ) ^ gridExponent (value half) = (2 : ℝ) ^ gridExponent (value quantum) := by
    rw [gridExponent_half h.large, ← h.half_eq, zpow_add_one₀ two_ne_zero, mul_comm]
  rw [hunit]
  have hgrid := onGrid_value (x := quantum) h.pos (le_abs_self _)
  have hbit := hgrid.two_zpow_le h.pos
  refine (hgrid.sub (.two_zpow _)).nearestSigned_eq_of_le (q := value quantum) (abs_le.mpr ⟨?_, ?_⟩)
  · linarith [h.pos]
  · linarith [zpow_pos (two_pos (α := ℝ)) (gridExponent (value quantum))]

/-- A period is added to a sum below zero without any loss to it, unless the sum is the last bit. -/
theorem nearestSigned_add_eq_iff (h : Halved half quantum) {s : ℝ} (hs : s < 0)
    (hgrid : OnGrid (gridExponent (value half)) s) : nearestSigned (s + value quantum) = value quantum ↔
      s = -(2 : ℝ) ^ gridExponent (value half) ∧
        nearestSigned (value quantum - (2 : ℝ) ^ gridExponent (value half)) = value quantum := by
  have hbit : (0 : ℝ) < (2 : ℝ) ^ gridExponent (value half) := by positivity
  constructor
  · intro hfull
    obtain rfl : s = -(2 : ℝ) ^ gridExponent (value half) := by
      by_contra hne
      -- From two bits on the sum is a number below the period.
      have hmore : s ≤ -(2 * (2 : ℝ) ^ gridExponent (value half)) := by
        obtain ⟨n, rfl⟩ := hgrid
        have hneg : (n : ℝ) < 0 := neg_of_mul_neg_left hs hbit.le
        have hn : n ≠ -1 := fun hn => hne (by rw [hn]; push_cast; ring)
        have hn' : (n : ℝ) ≤ -2 := by
          have hlt : n < 0 := by exact_mod_cast hneg
          exact_mod_cast (show n ≤ -2 by omega)
        linarith [mul_le_mul_of_nonneg_right hn' hbit.le]
      have hle := nearestSigned_mono (show s + value quantum ≤
        value quantum - 2 * (2 : ℝ) ^ gridExponent (value half) by linarith)
      rw [hfull, h.nearestSigned_sub_two] at hle
      linarith
    rw [neg_add_eq_sub] at hfull
    exact ⟨rfl, hfull⟩
  · rintro ⟨rfl, hfull⟩
    rwa [neg_add_eq_sub]

/-- A lag that is not behind half a period is made up for by less than half a period. -/
theorem shortWay_of_not_behind (h : Halved half quantum) (hlag : lag.isFinite = true)
    (hle : value lag ≤ value quantum) (hsum : (lag + half).isFinite = true)
    (hahead : -value half ≤ value lag) : (wrapped lag half quantum).isFinite = true ∧
      ShortWay (value lag) (value quantum) (value (wrapped lag half quantum)) := by
  have hhalf := h.half_pos
  have htwo := h.two_half
  have hbit : (0 : ℝ) < (2 : ℝ) ^ gridExponent (value half) := by positivity
  have hin := (isFinite_add_iff hlag h.half_finite).mp hsum
  obtain ⟨-, hvalue⟩ := value_of_rounded (place_add hlag h.half_finite).2 (place_add hlag h.half_finite).1 hin
  obtain ⟨-, herror⟩ := value_add_error hlag h.half_finite hin
  have hnonneg : 0 ≤ value (lag + half) := hvalue ▸ nearestSigned_nonneg (by linarith)
  obtain ⟨hc, hposition⟩ := isPosition_cycleRemainder hsum h.finite h.pos
  obtain ⟨he, hlow, hexact, hbelow, hlast⟩ := h.sub_spec hc hposition.nonneg hposition.le
  -- The sum is not below zero, so its position comes before the period.
  have hlt : value (wrapped lag half quantum) < value half := by
    rcases le_or_gt (value half) (value (cycleRemainder (lag + half) quantum)) with hlarge | hsmall
    · rw [wrapped, hexact hlarge]
      linarith [hposition.lt hnonneg]
    · exact (hbelow hsmall).trans_lt hhalf
  refine ⟨he, ?_, ?_, ?_, ?_⟩
  · rw [← h.half_eq]
    exact hlow
  · rw [← h.half_eq]
    exact hlt.le
  · rw [← h.half_eq]
    refine ⟨fun heq => absurd heq hlt.ne, fun ⟨heq, _⟩ => ?_⟩
    linarith
  · obtain ⟨n, hn⟩ := hposition.near
    refine ⟨n, ?_⟩
    have hsize : |value lag + value half| ≤ 3 / 2 * value quantum := abs_le.mpr ⟨by linarith, by linarith⟩
    have hstart := herror.trans (mul_le_mul_of_nonneg_left hsize roundoff_pos.le)
    have hroom := mul_nonneg roundoff_pos.le h.pos.le
    rw [abs_le] at hn hlast hstart ⊢
    unfold wrapped
    constructor <;> linarith

/-- A lag behind half a period is made up for by going on, and by half a period only if the sum with a period
rounds. -/
theorem shortWay_of_behind (h : Halved half quantum) (hlag : lag.isFinite = true)
    (hlow : -value quantum ≤ value lag) (hbehind : value lag < -value half) :
    (wrapped lag half quantum).isFinite = true ∧
      ShortWay (value lag) (value quantum) (value (wrapped lag half quantum)) := by
  have hhalf := h.half_pos
  have htwo := h.two_half
  obtain ⟨hsum, hvalue, hgrid⟩ := h.value_add_of_behind hlag hlow hbehind
  obtain ⟨hc, hposition⟩ := isPosition_cycleRemainder hsum h.finite h.pos
  -- The sum is exact and below zero, so that only adding a period to it rounds.
  have hrounded := hposition.below (by linarith) (by linarith)
  have hlarge : value half ≤ value (cycleRemainder (lag + half) quantum) := by
    have hmono := nearestSigned_mono (show value half ≤ value (lag + half) + value quantum by linarith)
    rwa [nearestSigned_value, ← hrounded] at hmono
  obtain ⟨he, -, hexact, -, -⟩ := h.sub_spec hc hposition.nonneg hposition.le
  have hdistance : value (wrapped lag half quantum) =
      value (cycleRemainder (lag + half) quantum) - value half := hexact hlarge
  have hbits := h.nearestSigned_add_eq_iff (s := value lag + value half) (by linarith) hgrid
  refine ⟨he, ?_, ?_, ?_, ?_⟩
  · linarith
  · linarith [hposition.le, h.half_eq]
  · have hbit := h.onGrid_half.two_zpow_le hhalf
    have hunsigned : nearestSigned (value quantum - (2 : ℝ) ^ gridExponent (value half)) =
        nearest (value quantum - (2 : ℝ) ^ gridExponent (value half)) := if_neg (by linarith)
    have hfull : value (wrapped lag half quantum) = value half ↔
        nearestSigned (value lag + value half + value quantum) = value quantum := by
      rw [hdistance, hrounded, hvalue, sub_eq_iff_eq_add, ← htwo]
    have hlag : value lag + value half = -(2 : ℝ) ^ gridExponent (value half) ↔
        value lag = -value half - (2 : ℝ) ^ gridExponent (value half) := by
      constructor <;> intro heq <;> linarith
    rw [← h.half_eq, ← hunsigned, hfull, hbits, hlag]
  · obtain ⟨n, hn⟩ := hposition.near
    have hroom := mul_nonneg roundoff_pos.le h.pos.le
    refine ⟨n, ?_⟩
    rw [abs_le] at hn ⊢
    constructor <;> linarith

/-- Whatever the lag, the distance is on the short way round. -/
theorem shortWay_wrapped (h : Halved half quantum) (hlag : lag.isFinite = true)
    (hle : |value lag| ≤ value quantum) (hsum : (lag + half).isFinite = true) :
    (wrapped lag half quantum).isFinite = true ∧
      ShortWay (value lag) (value quantum) (value (wrapped lag half quantum)) := by
  obtain ⟨hlow, hhigh⟩ := abs_le.mp hle
  rcases le_or_gt (-value half) (value lag) with hahead | hbehind
  · exact h.shortWay_of_not_behind hlag hhigh hsum hahead
  · exact h.shortWay_of_behind hlag hlow hbehind

end Halved

/-- By a power of two it is always less than half a period. -/
theorem ShortWay.lt_of_two_zpow {lag quantum distance : ℝ} (h : ShortWay lag quantum distance)
    (hlarge : (2 : ℝ) ^ (-1021 : ℤ) ≤ quantum) (hpower : ∃ k : ℤ, quantum = (2 : ℝ) ^ k) :
    distance < quantum / 2 := by
  obtain ⟨k, hk⟩ := hpower
  have hpos : 0 < quantum := lt_of_lt_of_le (by positivity) hlarge
  refine lt_of_le_of_ne h.high fun htop => ?_
  obtain ⟨-, hfull⟩ := h.top_iff.mp htop
  have hlog : Int.log 2 (quantum / 2) = k - 1 := by
    rw [log_half hpos, hk]
    have := Int.log_zpow (R := ℝ) (b := 2) (by norm_num) k
    push_cast at this
    rw [this]
  have hleast : -1021 ≤ k := (zpow_le_zpow_iff_right₀ (one_lt_two (α := ℝ))).mp (hk ▸ hlarge)
  have hgrid : gridExponent (quantum / 2) = k - 53 := by
    unfold gridExponent
    omega
  rw [hgrid] at hfull
  have hbit : (2 : ℝ) ^ (k - 53) < quantum := by
    rw [hk]
    exact zpow_lt_zpow_right₀ one_lt_two (by omega)
  have hexact : nearestSigned (quantum - (2 : ℝ) ^ (k - 53)) = quantum - (2 : ℝ) ^ (k - 53) := by
    have hmultiple : OnGrid (k - 53) quantum := by
      rw [hk]
      exact (OnGrid.two_zpow k).finer (by omega)
    refine (hmultiple.sub (.two_zpow _)).nearestSigned_eq fun _ => ?_
    -- What is below a power of two has a bit more.
    rw [abs_of_pos (sub_pos.mpr hbit)]
    have hlt : quantum - (2 : ℝ) ^ (k - 53) < (2 : ℝ) ^ k := by
      rw [hk]
      exact sub_lt_self _ (by positivity)
    have := (Int.lt_zpow_iff_log_lt (b := 2) (by norm_num) (sub_pos.mpr hbit)).mp (by exact_mod_cast hlt)
    unfold gridExponent
    omega
  rw [nearestSigned, if_neg (by linarith), hfull] at hexact
  have hpositive : (0 : ℝ) < (2 : ℝ) ^ (k - 53) := by positivity
  linarith

end Wrapped

/-! ## The phase error -/

/-- The lag of the local beat behind the target phase. -/
def phaseLag (localBeat phase offset quantum : Float) : Float :=
  cycleRemainder (phase + offset) quantum - cycleRemainder localBeat quantum

theorem phaseDistance_eq_wrapped (localBeat phase offset quantum : Float) :
    phaseDistance localBeat phase offset quantum =
      wrapped (phaseLag localBeat phase offset quantum) (quantum / 2.0) quantum := rfl

variable {localBeat phase offset quantum : Float}

/-- The lag is no larger than a period, and up to rounding and whole periods the distance between the phases. -/
theorem phaseLag_spec (hlocal : localBeat.isFinite = true) (htarget : (phase + offset).isFinite = true)
    (hquantum : quantum.isFinite = true) (hpos : 0 < value quantum) :
    (phaseLag localBeat phase offset quantum).isFinite = true ∧
      |value (phaseLag localBeat phase offset quantum)| ≤ value quantum ∧
      ∃ n : ℤ, |value (phaseLag localBeat phase offset quantum) -
        (value (phase + offset) - value localBeat + n * value quantum)| ≤ 3 * roundoff * value quantum := by
  obtain ⟨ht, htposition⟩ := isPosition_cycleRemainder htarget hquantum hpos
  obtain ⟨hl, hlposition⟩ := isPosition_cycleRemainder hlocal hquantum hpos
  have hsize : |value (cycleRemainder (phase + offset) quantum) - value (cycleRemainder localBeat quantum)| ≤
      value quantum := by
    rw [abs_le]
    constructor <;> linarith [htposition.nonneg, htposition.le, hlposition.nonneg, hlposition.le]
  have hin := (inRange_value hquantum).of_abs_le (hsize.trans (le_abs_self _))
  obtain ⟨hplace, hnan⟩ := place_sub ht hl
  obtain ⟨hfinite, hvalue⟩ := value_of_rounded hnan hplace hin
  obtain ⟨-, herror⟩ := value_sub_error ht hl hin
  refine ⟨hfinite, ?_, ?_⟩
  · rw [phaseLag, hvalue, abs_nearestSigned, ← nearestSigned_of_nonneg (abs_nonneg _)]
    conv_rhs => rw [← nearestSigned_value (x := quantum)]
    exact nearestSigned_mono hsize
  · obtain ⟨m, hm⟩ := htposition.near
    obtain ⟨n, hn⟩ := hlposition.near
    refine ⟨m - n, ?_⟩
    have hlast := herror.trans (mul_le_mul_of_nonneg_left hsize roundoff_pos.le)
    rw [abs_le] at hm hn hlast ⊢
    unfold phaseLag
    push_cast
    constructor <;> linarith

/-- Among the smallest numbers a period has a half only up to rounding, and nothing else is rounded. -/
theorem wrapped_of_small {lag half : Float} (hlag : lag.isFinite = true) (hle : |value lag| ≤ value quantum)
    (hquantum : quantum.isFinite = true) (hpos : 0 < value quantum)
    (hsmall : value quantum < (2 : ℝ) ^ (-1021 : ℤ)) (hhalf : half.isFinite = true) (hnonneg : 0 ≤ value half)
    (hhalfle : value half ≤ value quantum) : (wrapped lag half quantum).isFinite = true ∧
      -value half ≤ value (wrapped lag half quantum) ∧
      value (wrapped lag half quantum) < value quantum - value half := by
  have hin : InRange (value lag + value half) := by
    refine inRange_of_abs_le (k := 1) (by norm_num) ((abs_add_le _ _).trans ?_)
    have hone : (2 : ℝ) ^ (-1021 : ℤ) ≤ 1 := zpow_le_one_of_nonpos₀ (by norm_num) (by norm_num)
    rw [abs_of_nonneg hnonneg, zpow_one]
    linarith
  obtain ⟨hc, hposition⟩ := isPosition_cycleRemainder ((isFinite_add_iff hlag hhalf).mpr hin) hquantum hpos
  have hlt := hposition.lt_of_small hsmall
  obtain ⟨hplace, hnan⟩ := place_sub hc hhalf
  have hsize : |value (cycleRemainder (lag + half) quantum) - value half| ≤ value quantum :=
    abs_le.mpr ⟨by linarith [hposition.nonneg], by linarith⟩
  obtain ⟨hfinite, hvalue⟩ := value_of_rounded hnan hplace
    ((inRange_value hquantum).of_abs_le (hsize.trans (le_abs_self _)))
  -- The difference stays on the least grid, where nothing is rounded.
  have hgrid := onLeastGrid_value.add onLeastGrid_value.neg (p := value (cycleRemainder (lag + half) quantum))
    (q := -value half)
  rw [← sub_eq_add_neg] at hgrid
  rw [nearestSigned_of_small hgrid (hsize.trans_lt hsmall)] at hvalue
  refine ⟨hfinite, ?_, ?_⟩
  · rw [wrapped, hvalue]
    linarith [hposition.nonneg]
  · rw [wrapped, hvalue]
    linarith

/-- The sum that a position is taken of overflows, and then there is none. -/
theorem isNaN_wrapped {lag half : Float} (h : (lag + half).isFinite = false) :
    (wrapped lag half quantum).isNaN = true := isNaN_sub (isNaN_cycleRemainder h)

/-- One and a half of a period that is not among the largest numbers does not overflow. -/
theorem inRange_of_halved {lag half period : ℝ} (hle : |lag| ≤ period) (hnonneg : 0 ≤ half)
    (hhalf : half ≤ period) (hexact : (2 : ℝ) ^ (-1021 : ℤ) ≤ period → half = period / 2)
    (hroom : period ≤ (2 : ℝ) ^ (1023 : ℤ)) : InRange (lag + half) := by
  have hsum : |lag + half| ≤ period + half := (abs_add_le _ _).trans (by rw [abs_of_nonneg hnonneg]; linarith)
  rcases le_or_gt period ((2 : ℝ) ^ (1022 : ℤ)) with hsmall | hlarge
  · refine inRange_of_abs_le_two_zpow (hsum.trans ?_)
    rw [show (1023 : ℤ) = 1 + 1022 by norm_num, zpow_one_add₀ two_ne_zero]
    linarith
  · -- Here the half is exact, and one and a half of the period is below the bound.
    rw [hexact ((zpow_le_zpow_right₀ (by norm_num) (by norm_num)).trans hlarge.le)] at hsum ⊢
    have hbound : overflowBound = 2 * (2 : ℝ) ^ (1023 : ℤ) - (2 : ℝ) ^ (970 : ℤ) := by
      rw [← zpow_one_add₀ two_ne_zero]
      rfl
    have hless : 2 * (2 : ℝ) ^ (970 : ℤ) < (2 : ℝ) ^ (1023 : ℤ) := by
      rw [← zpow_one_add₀ two_ne_zero]
      exact zpow_lt_zpow_right₀ (by norm_num) (by norm_num)
    rw [InRange, hbound]
    generalize (2 : ℝ) ^ (1023 : ℤ) = top at hroom hless ⊢
    generalize (2 : ℝ) ^ (970 : ℤ) = bit at hless ⊢
    linarith

/-- What is known about a phase error. -/
structure PhaseError (localBeat phase offset quantum : Float) : Prop where
  /-- It is on the short way round from the lag. -/
  short : (2 : ℝ) ^ (-1021 : ℤ) ≤ value quantum →
    (phaseLag localBeat phase offset quantum + quantum / 2.0).isFinite = true →
      (phaseDistance localBeat phase offset quantum).isFinite = true ∧
        ShortWay (value (phaseLag localBeat phase offset quantum)) (value quantum)
          (value (phaseDistance localBeat phase offset quantum))
  /-- By a period that is a power of two it is always less than half a period. -/
  strict : (2 : ℝ) ^ (-1021 : ℤ) ≤ value quantum →
    (phaseLag localBeat phase offset quantum + quantum / 2.0).isFinite = true →
      (∃ k : ℤ, value quantum = (2 : ℝ) ^ k) →
        value (phaseDistance localBeat phase offset quantum) < value quantum / 2
  /-- It leads from the local beat to the target, a whole number of periods apart and up to rounding. -/
  congruent : (2 : ℝ) ^ (-1021 : ℤ) ≤ value quantum →
    (phaseLag localBeat phase offset quantum + quantum / 2.0).isFinite = true →
      ∃ n : ℤ, |value (phaseDistance localBeat phase offset quantum) -
        (value (phase + offset) - value localBeat + n * value quantum)| ≤ 7 * roundoff * value quantum
  /-- For a period among the smallest numbers it is on one side of the half that it is computed with. -/
  small : value quantum < (2 : ℝ) ^ (-1021 : ℤ) →
    (phaseDistance localBeat phase offset quantum).isFinite = true ∧
      -value (quantum / 2.0) ≤ value (phaseDistance localBeat phase offset quantum) ∧
      value (phaseDistance localBeat phase offset quantum) < value quantum - value (quantum / 2.0)
  /-- The sum does not overflow for a period that is not among the largest numbers. -/
  inRange : value quantum ≤ (2 : ℝ) ^ (1023 : ℤ) →
    (phaseLag localBeat phase offset quantum + quantum / 2.0).isFinite = true
  /-- If it does, the error is undefined. -/
  undefined : (phaseLag localBeat phase offset quantum + quantum / 2.0).isFinite = false →
    (phaseDistance localBeat phase offset quantum).isNaN = true

/-- From every finite beat to every finite target, and for every period, the phase error is on the short way
round. It is half a period on the way on for one lag only, and by no power of two. Where a period is so large
that the sum with its half overflows the error is undefined, and where it is so small that it has no half, the
error is on one side of what the half was rounded to. -/
theorem phase_error_takes_short_way (hlocal : localBeat.isFinite = true)
    (htarget : (phase + offset).isFinite = true) (hquantum : isPositive quantum = true) :
    PhaseError localBeat phase offset quantum := by
  obtain ⟨hfinite, hpos⟩ := value_pos_of_isPositive hquantum
  obtain ⟨hlag, hle, m, hm⟩ := phaseLag_spec hlocal htarget hfinite hpos
  obtain ⟨hhalf, hhalfnonneg⟩ := isFinite_half hfinite hpos.le
  have hhalfle := value_half_le hfinite hpos.le
  have halved (hlarge) : Halved (quantum / 2.0) quantum := ⟨hfinite, hlarge, hhalf, value_half hfinite hlarge⟩
  refine ⟨fun hlarge hsum => (halved hlarge).shortWay_wrapped hlag hle hsum,
    fun hlarge hsum hpower => ((halved hlarge).shortWay_wrapped hlag hle hsum).2.lt_of_two_zpow hlarge hpower,
    fun hlarge hsum => ?_,
    fun hsmall => wrapped_of_small hlag hle hfinite hpos hsmall hhalf hhalfnonneg hhalfle, fun hroom => ?_,
    fun hsum => isNaN_wrapped hsum⟩
  · obtain ⟨-, hshort⟩ := (halved hlarge).shortWay_wrapped hlag hle hsum
    obtain ⟨n, hn⟩ := hshort.near
    refine ⟨m + n, ?_⟩
    rw [phaseDistance_eq_wrapped]
    rw [abs_le] at hm hn ⊢
    push_cast
    constructor <;> linarith
  · exact (isFinite_add_iff hlag hhalf).mpr (inRange_of_halved hle hhalfnonneg hhalfle
      (fun hlarge => value_half hfinite hlarge) hroom)

/-- In a bar of three beats, a beat and a half after the target, the way back is taken. -/
theorem three_beats_short_way :
    (-(value 3.0 / 2) ≤ value (phaseDistance (1.5 : Float) 0.0 0.0 3.0) ∧
      value (phaseDistance (1.5 : Float) 0.0 0.0 3.0) ≤ value 3.0 / 2) ∧
      phaseDistance (1.5 : Float) 0.0 0.0 3.0 = -1.5 := by
  have herror : PhaseError 1.5 0.0 0.0 3.0 :=
    phase_error_takes_short_way (by decide +kernel) (by decide +kernel) (by decide +kernel)
  have hlarge : (2 : ℝ) ^ (-1021 : ℤ) ≤ value 3.0 := by
    rw [← cast_exact, show exact 3.0 = 3 by decide +kernel]
    exact (zpow_le_one_of_nonpos₀ (by norm_num) (by norm_num)).trans (by norm_num)
  obtain ⟨-, hshort⟩ := herror.short hlarge (by decide +kernel)
  exact ⟨⟨hshort.low, hshort.high⟩, by decide +kernel⟩

/-- In a bar of three beats, a bit more than a beat and a half after the target, the way on is taken, and it is
half a bar. By a period of three times the smallest number the way back can be more than half of it, and by the
largest number it can be undefined. -/
theorem half_bar_taken :
    ¬ (∀ localBeat phase offset quantum : Float, localBeat.isFinite = true → phase.isFinite = true →
      offset.isFinite = true → (phase + offset).isFinite = true → isPositive quantum = true →
        (phaseDistance localBeat phase offset quantum).isFinite = true ∧
          -(value quantum / 2) ≤ value (phaseDistance localBeat phase offset quantum) ∧
          value (phaseDistance localBeat phase offset quantum) < value quantum / 2) ∧
      phaseDistance 1.5000000000000002 0.0 0.0 3.0 = 1.5 ∧
      (phaseDistance 0.0 1.7e308 0.0 1.7976931348623157e308).isNaN = true ∧
      exact (phaseDistance 1e-323 0.0 0.0 1.5e-323) < -(exact 1.5e-323 / 2) := by
  have hhalf : phaseDistance (1.5000000000000002 : Float) 0.0 0.0 3.0 = 1.5 := by decide +kernel
  refine ⟨fun h => ?_, hhalf, by decide +kernel, by decide +kernel⟩
  obtain ⟨-, -, hlt⟩ := h 1.5000000000000002 0.0 0.0 3.0 (by decide +kernel) (by decide +kernel)
    (by decide +kernel) (by decide +kernel) (by decide +kernel)
  rw [hhalf, ← cast_exact, ← cast_exact] at hlt
  have hle : exact 3.0 / 2 ≤ exact 1.5 := by decide +kernel
  exact absurd (by exact_mod_cast hlt) (not_lt.mpr hle)

end Cadence
