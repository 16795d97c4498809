import Cadence.Number.Notation

/-!
# JSON values

A JSON value as it is written: numbers keep their literal, objects their fields in order and with
repetitions. A string that holds half of a surrogate pair names no text; it stays in the tree,
because a value that nobody looks at may hold one.
-/

namespace Cadence.Json

/-- A JSON value. -/
inductive Value where
  /-- The word `null`. -/
  | null
  /-- A truth value. -/
  | bool (value : Bool)
  /-- A number, as its literal. -/
  | number (literal : String)
  /-- A string, absent if its escapes name no text. -/
  | string (text : Option String)
  /-- A list. -/
  | array (items : List Value)
  /-- Named fields. -/
  | object (fields : List (Option String × Value))
deriving Repr, Inhabited

/-- The lower-case hexadecimal digit of a number below 16. -/
def hexDigit (n : Nat) : Char := Char.ofNat (if n < 10 then 48 + n else 87 + n)

/-- A character as it stands in a JSON string. Quotes, backslashes and control characters are
escaped, everything else stands for itself. -/
def escaped (c : Char) : List Char :=
  if c = '"' then ['\\', '"']
  else if c = '\\' then ['\\', '\\']
  else if c = '\n' then ['\\', 'n']
  else if c = '\r' then ['\\', 'r']
  else if c = '\t' then ['\\', 't']
  else if c.toNat = 8 then ['\\', 'b']
  else if c.toNat = 12 then ['\\', 'f']
  else if c.toNat < 32 then
    ['\\', 'u', '0', '0', hexDigit (c.toNat / 16), hexDigit (c.toNat % 16)]
  else [c]

/-- A text in quotes. -/
def quoted (text : String) : List Char :=
  ['"'] ++ text.toList.flatMap escaped ++ ['"']

mutual

/-- The compact text of a value, without blanks. -/
def Value.chars : Value → List Char
  | .null => "null".toList
  | .bool true => "true".toList
  | .bool false => "false".toList
  | .number literal => literal.toList
  | .string text => quoted (text.getD "")
  | .array items => ['['] ++ Value.itemChars items ++ [']']
  | .object fields => ['\x7b'] ++ Value.fieldChars fields ++ ['\x7d']

/-- The items of a list, divided by commas. -/
def Value.itemChars : List Value → List Char
  | [] => []
  | [item] => item.chars
  | item :: rest => item.chars ++ [','] ++ Value.itemChars rest

/-- The fields of an object, divided by commas. -/
def Value.fieldChars : List (Option String × Value) → List Char
  | [] => []
  | [(name, value)] => quoted (name.getD "") ++ [':'] ++ value.chars
  | (name, value) :: rest =>
    quoted (name.getD "") ++ [':'] ++ value.chars ++ [','] ++ Value.fieldChars rest

end

/-- The compact text of a value. -/
def Value.text (v : Value) : String := String.ofList v.chars

/-- A text as a value. -/
def ofText (text : String) : Value := .string (some text)

/-- A count as a value. -/
def ofNat (n : Nat) : Value := .number (toString n)

/-- A number as a value; `null` if it is not finite. -/
def ofFloat (x : Float) : Value :=
  if x.isFinite then .number (Number.Layout.json.render x) else .null

/-- An object with the given fields. -/
def ofFields (fields : List (String × Value)) : Value :=
  .object (fields.map fun (name, value) => (some name, value))

end Cadence.Json
