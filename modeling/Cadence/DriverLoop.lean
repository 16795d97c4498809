import Cadence.Config.Basic
import Cadence.WallTime

/-!
# The driver loop

The loop that keeps a clock going. Every turn reads the time and the date of the next thing to do,
sleeps until shortly before it, but no longer than the tick interval, waits actively for the rest,
and then pulses. A message ends the sleep: either the turn goes on at once, or the loop stops.
-/

namespace Cadence

/-- The later date, or the last one of all. -/
def countAfter (date micros : UInt64) : UInt64 :=
  if WallTime.never - date < micros then WallTime.never else date + micros

/-- How long the loop sleeps: until the next deadline or the end of the tick interval, less the time
that it waits actively. -/
def DriverSettings.sleepMicros (s : DriverSettings) (now deadline : UInt64) : UInt64 :=
  let wakeAt := min deadline (countAfter now (max s.tickIntervalMicros 1))
  countLeft (countLeft wakeAt now) s.activeWaitMicros

/-- The loop goes on waiting actively: the deadline is ahead, but close. -/
def DriverSettings.waitsActively (s : DriverSettings) (now deadline : UInt64) : Bool :=
  now < deadline && deadline - now ≤ s.activeWaitMicros

/-- What a driver loop works on. Time may pass with every call. -/
class Driven (τ : Type) where
  /-- The current date. -/
  now : τ → UInt64 × τ
  /-- The date of the next thing to do. -/
  nextDeadline : τ → UInt64 × τ
  /-- Does what is due. -/
  pulse : τ → τ

namespace DriverLoop

variable {τ : Type} [Driven τ]

/-- Reads the time until the deadline is reached. It is not waited for if it is not close. The fuel
bounds the number of readings. -/
def spin (s : DriverSettings) (deadline : UInt64) : Nat → UInt64 → τ → τ
  | 0, _, t => t
  | fuel + 1, now, t =>
    if s.waitsActively now deadline then
      let (now, t) := Driven.now t
      spin s deadline fuel now t
    else t

/-- Waits actively for the next deadline, if there is one. -/
def waitActively (s : DriverSettings) (t : τ) : τ :=
  let (deadline, t) := Driven.nextDeadline t
  if deadline = WallTime.never then t
  else
    let (now, t) := Driven.now t
    spin s deadline (s.activeWaitMicros.toNat + 1) now t

/-- The first half of a turn: reads the time and the deadline, and answers how long to sleep. -/
def beginTurn (s : DriverSettings) (t : τ) : UInt64 × τ :=
  let (now, t) := Driven.now t
  let (deadline, t) := Driven.nextDeadline t
  (s.sleepMicros now deadline, t)

/-- A whole turn that is not told to stop. -/
def turn (s : DriverSettings) (t : τ) : τ := Driven.pulse (waitActively s (beginTurn s t).2)

/-- The message at the start of the loop. -/
def startedMessage (now : UInt64) : Log.Message := Log.say .info s!"Driver loop started at {now}"

/-- The message at the end of the loop. -/
def stoppedMessage : Log.Message := Log.say .info "Driver loop stopped"

/-- The message when the end of the loop was waited for. -/
def joinedMessage : Log.Message := Log.say .debug "Driver thread joined"

/-- A whole loop that is told to stop while it pulses for the last time: it begins one more turn.
The messages are those of the loop and of whoever waits for its end. -/
def run (s : DriverSettings) (pulses : Nat) (t : τ) : List Log.Message × τ :=
  let (started, t) := Driven.now t
  let t := (List.range pulses).foldl (fun t _ => turn s t) t
  ([startedMessage started, stoppedMessage, joinedMessage], (beginTurn s t).2)

end DriverLoop

/-- What a driver loop did to its target. -/
inductive DriverCall where
  /-- It read this date. -/
  | now (date : UInt64)
  /-- It was told this deadline. -/
  | deadline (date : UInt64)
  /-- It pulsed. -/
  | pulse
deriving Repr, DecidableEq

/-- A target for rehearsing the loop. Time moves on by the same step with every reading. -/
structure DrivenScript where
  /-- The current date. -/
  time : UInt64
  /-- How far time moves on with a reading. -/
  step : UInt64
  /-- The deadlines that are still to be told. -/
  deadlines : List UInt64
  /-- The deadline that is told when no other is left. -/
  last : UInt64
  /-- What the loop did so far. -/
  trace : List DriverCall := []
deriving Repr, DecidableEq

instance : Driven DrivenScript where
  now t := (t.time, { t with time := t.time + t.step, trace := t.trace ++ [.now t.time] })
  nextDeadline t :=
    let deadline := t.deadlines.headD t.last
    (deadline,
      { t with deadlines := t.deadlines.drop 1, trace := t.trace ++ [.deadline deadline] })
  pulse t := { t with trace := t.trace ++ [.pulse] }

end Cadence
