import Cadence.Text.Extending
import Cadence.Text.Unprintable

/-!
# Quoted texts

A text between double quotes, in which every character that would not show by itself is written in
another way: the usual ones by a letter, all others by their number.
-/

namespace Cadence.Text

/-- The character does not show by itself. -/
def isHidden (c : Char) : Bool := isExtending c || isUnprintable c

/-- A character as it stands in a quoted text. -/
def escaped (c : Char) : List Char :=
  if c = '"' ∨ c = '\\' then ['\\', c]
  else if c = '\n' then ['\\', 'n']
  else if c = '\r' then ['\\', 'r']
  else if c = '\t' then ['\\', 't']
  else if c.toNat = 0 then ['\\', '0']
  else if isHidden c then ['\\', 'u', '\x7b'] ++ Nat.toDigits 16 c.toNat ++ ['\x7d']
  else [c]

/-- A text between double quotes. -/
def quoted (text : String) : String :=
  String.ofList (['"'] ++ text.toList.flatMap escaped ++ ['"'])

end Cadence.Text
