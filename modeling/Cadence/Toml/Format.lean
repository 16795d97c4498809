import Cadence.Toml.Document
import Cadence.Toml.Print

/-!
# Writing and reading TOML documents

What is asked of TOML to keep settings in it: that sections are written, and that a document is read. How a
document looks is left open.
-/

namespace Cadence.Toml

/-- A way to write documents and to read them. -/
structure Format where
  /-- The text of a document, unless it holds what cannot be written. -/
  print? : List Section → Option String
  /-- The table that a text describes, if it is a document. -/
  parse? : String → Option (List (String × Value))

/-- One assignment a line, with the sections one after the other. -/
def Format.byLine : Format where
  print? := Toml.print?
  parse? := Toml.parse?

end Cadence.Toml
