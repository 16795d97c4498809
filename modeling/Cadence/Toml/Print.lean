import Cadence.Number.Notation
import Cadence.Toml.Scalar

/-!
# Writing TOML documents

A document is written as sections of assignments, one a line, with an empty line between two
sections. A list has one item a line. An integer that 64 bits with a sign do not hold cannot be
written.
-/

namespace Cadence.Toml

/-- A named section of a document. -/
structure Section where
  /-- The name in the header. -/
  name : String
  /-- What is assigned, in order. -/
  entries : List (String × Value)
deriving Repr, Inhabited

/-- A character in a text in double quotes. -/
def escaped (c : Char) : List Char :=
  if c = '"' then ['\\', '"']
  else if c = '\\' then ['\\', '\\']
  else [c]

/-- A scalar as it is written. Lists and tables are no scalars, and the digits of a date are not
known. -/
def Value.scalarChars? : Value → Option (List Char)
  | .text value => some (['"'] ++ value.toList.flatMap escaped ++ ['"'])
  | .integer n => if isInteger n then some (toString n).toList else none
  | .float x => some (Number.Layout.settings.render x).toList
  | .bool true => some "true".toList
  | .bool false => some "false".toList
  | .date | .array _ | .table _ => none

/-- A value as it is written after the sign of an assignment. -/
def Value.chars? : Value → Option (List Char)
  | .array items => do
    let lines ← items.mapM fun item => do
      pure ("    ".toList ++ (← item.scalarChars?) ++ [',', '\n'])
    pure (['[', '\n'] ++ lines.flatten ++ [']'])
  | v => v.scalarChars?

/-- The line, or lines, of an assignment. -/
def assignmentChars? (entry : String × Value) : Option (List Char) := do
  pure (entry.1.toList ++ " = ".toList ++ (← entry.2.chars?) ++ ['\n'])

/-- The lines of a section. -/
def Section.chars? (s : Section) : Option (List Char) := do
  let lines ← s.entries.mapM assignmentChars?
  pure (['['] ++ s.name.toList ++ [']', '\n'] ++ lines.flatten)

/-- The text of a document. -/
def print? (sections : List Section) : Option String := do
  let written ← sections.mapM Section.chars?
  pure (String.ofList (List.intercalate ['\n'] written))

end Cadence.Toml
