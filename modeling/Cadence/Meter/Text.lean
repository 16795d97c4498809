import Cadence.Meter
import Cadence.Number.Read
import Cadence.Text.Blank

/-!
# Written meters

A meter as a user types it: two counts with a slash between them, and blanks around them at will.
-/

namespace Cadence

/-- Why a text is no meter. -/
inductive MeterFault where
  /-- There is no slash. -/
  | noSlash (text : String)
  /-- What stands before the slash or after it is no count. -/
  | count (fault : Number.CountFault)
  /-- One of the counts is zero. -/
  | meter (fault : Fault)
deriving Repr

/-- The wording of a refused meter. -/
def MeterFault.message : MeterFault → String
  | .noSlash text => s!"expected NUMERATOR/DENOMINATOR, got '{text}'"
  | .count fault => fault.message
  | .meter fault => fault.message

/-- One of the counts of a meter. -/
def readMeterPart (cs : List Char) : Except MeterFault UInt32 :=
  match Number.readCount (UInt32.size - 1) (Text.trim cs) with
  | .ok n => .ok (UInt32.ofNat n)
  | .error fault => .error (.count fault)

/-- The meter that a text stands for. The first slash divides it. -/
def Meter.ofText (text : String) : Except MeterFault Meter := do
  let cs := text.toList
  match cs.dropWhile (· ≠ '/') with
  | [] => .error (.noSlash text)
  | _ :: after =>
    let numerator ← readMeterPart (cs.takeWhile (· ≠ '/'))
    let denominator ← readMeterPart after
    match Meter.make numerator denominator with
    | .ok meter => .ok meter
    | .error fault => .error (.meter fault)

end Cadence
