import Cadence.Json.Token

/-!
# Reading JSON values

The tokens of a document are consumed one by one, with a stack of the lists and objects that are
still open. So a document may nest as deep as it likes.
-/

namespace Cadence.Json

/-- A list or object that is still open, with what it holds so far, the last item first. -/
inductive Frame where
  /-- A list. -/
  | array (items : List Value)
  /-- An object, with the name whose value is being read. -/
  | object (fields : List (Option String × Value)) (name : Option String)
deriving Repr, Inhabited

/-- What may come next. -/
inductive Expectation where
  /-- A value. -/
  | value
  /-- A value, or the end of a list that was just opened. -/
  | valueOrEnd
  /-- The name of a field. -/
  | name
  /-- The name of a field, or the end of an object that was just opened. -/
  | nameOrEnd
  /-- The mark after the name of a field. -/
  | colon
  /-- The mark before another item, or the end of what is open. -/
  | commaOrEnd
deriving Repr, DecidableEq, Inhabited

/-- The state between two tokens. -/
structure Reading where
  /-- What is open, the innermost first. -/
  stack : List Frame
  /-- What may come next. -/
  expects : Expectation
  /-- The value of the document, once it is complete. -/
  result : Option Value
deriving Repr, Inhabited

namespace Reading

/-- Nothing was read. -/
def start : Reading := ⟨[], .value, none⟩

/-- Puts a complete value into the innermost open list or object. With nothing open it is the value
of the document. -/
def complete (stack : List Frame) (value : Value) : Reading :=
  match stack with
  | [] => ⟨[], .commaOrEnd, some value⟩
  | .array items :: rest => ⟨.array (value :: items) :: rest, .commaOrEnd, none⟩
  | .object fields name :: rest =>
    ⟨.object ((name, value) :: fields) none :: rest, .commaOrEnd, none⟩

/-- Reads one token, if it may come next. -/
def step (r : Reading) (token : Token) : Option Reading :=
  match r.expects, token, r.stack with
  | .value, .scalar value, stack => some (complete stack value)
  | .value, .openArray, stack => some ⟨.array [] :: stack, .valueOrEnd, none⟩
  | .value, .openObject, stack => some ⟨.object [] none :: stack, .nameOrEnd, none⟩
  | .valueOrEnd, .scalar value, stack => some (complete stack value)
  | .valueOrEnd, .openArray, stack => some ⟨.array [] :: stack, .valueOrEnd, none⟩
  | .valueOrEnd, .openObject, stack => some ⟨.object [] none :: stack, .nameOrEnd, none⟩
  | .valueOrEnd, .closeArray, .array items :: rest => some (complete rest (.array items.reverse))
  | .name, .scalar (.string name), .object fields _ :: rest =>
    some ⟨.object fields name :: rest, .colon, none⟩
  | .nameOrEnd, .scalar (.string name), .object fields _ :: rest =>
    some ⟨.object fields name :: rest, .colon, none⟩
  | .nameOrEnd, .closeObject, .object fields _ :: rest =>
    some (complete rest (.object fields.reverse))
  | .colon, .colon, stack => some ⟨stack, .value, none⟩
  | .commaOrEnd, .comma, .array items :: rest => some ⟨.array items :: rest, .value, none⟩
  | .commaOrEnd, .comma, .object fields name :: rest =>
    some ⟨.object fields name :: rest, .name, none⟩
  | .commaOrEnd, .closeArray, .array items :: rest => some (complete rest (.array items.reverse))
  | .commaOrEnd, .closeObject, .object fields _ :: rest =>
    some (complete rest (.object fields.reverse))
  | _, _, _ => none

end Reading

/-- The value of a document, if the whole text is one. -/
def parse? (text : String) : Option Value := do
  let cs := text.toList
  let tokens ← tokens? (cs.length + 1) cs
  let reading ← tokens.foldlM Reading.step Reading.start
  reading.result

end Cadence.Json
