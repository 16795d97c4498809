import Cadence.Json.Fields
import Cadence.Json.Parse

/-!
# Writing and reading JSON documents

What is asked of JSON to exchange values in it: that a value has a text, and that a document is read. How a text
looks is left open.
-/

namespace Cadence.Json

/-- A way to write values and to read them. -/
structure Format where
  /-- The text of a value. -/
  print : Value → String
  /-- The value of a document, if the whole text is one. -/
  parse? : String → Option Value

namespace Format

/-- The text of what has a JSON form. -/
def write {α : Type} [Codec α] (J : Format) (a : α) : String := J.print (Codec.encode a)

/-- Reads what has a JSON form from its text. -/
def read? (J : Format) (α : Type) [Codec α] (text : String) : Option α := do Codec.decode? (← J.parse? text)

/-- Texts without blanks, of any depth. -/
def compact : Format where
  print := Value.text
  parse? := Json.parse?

end Format

end Cadence.Json
