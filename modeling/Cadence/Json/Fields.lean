import Cadence.Json.Number

/-!
# Shapes of JSON values

How the values of the clock appear in JSON. A record is an object of its fields, or the list of
their values in order; fields of other names are passed over. A choice is the name of one of its
cases, or an object that gives the case its content.
-/

namespace Cadence.Json

/-- A type with a JSON form. -/
class Codec (α : Type) where
  /-- The JSON form. -/
  encode : α → Value
  /-- Reads a JSON form. -/
  decode? : Value → Option α

/-- A finite number. -/
def float? : Value → Option Float
  | .number literal => floatOf? literal
  | _ => none

/-- A count not above a limit. -/
def count? (limit : Nat) : Value → Option Nat
  | .number literal => countOf? limit literal
  | _ => none

/-- A 64-bit count. -/
def uint64? (v : Value) : Option UInt64 := (count? Number.countLimit v).map UInt64.ofNat

/-- A 32-bit count. -/
def uint32? (v : Value) : Option UInt32 := (count? (UInt32.size - 1) v).map UInt32.ofNat

/-- A truth value. -/
def bool? : Value → Option Bool
  | .bool value => some value
  | _ => none

/-- A text. -/
def text? : Value → Option String
  | .string text => text
  | _ => none

/-- A value that may be `null`. -/
def nullable? {α : Type} (read : Value → Option α) : Value → Option (Option α)
  | .null => some none
  | v => (read v).map some

/-- The fields that were found for a record. -/
structure Fields where
  /-- The values of the fields that are there. -/
  found : List (String × Value)
  /-- The record was given as a list. -/
  positional : Bool
deriving Repr

namespace Fields

/-- No name occurs twice. -/
def distinct : List (String × Value) → Bool
  | [] => true
  | (name, _) :: rest => !rest.any (·.1 = name) && distinct rest

/-- Looks the fields of a record up. A field given twice, and a list longer than the record, are
refused. -/
def of? (names : List String) : Value → Option Fields
  | .object fields => do
    let named ← fields.mapM fun (name, value) => name.map (·, value)
    let found := named.filter (·.1 ∈ names)
    if distinct found then some ⟨found, false⟩ else none
  | .array items =>
    if items.length ≤ names.length then some ⟨names.zip items, true⟩ else none
  | _ => none

/-- A field by its name. -/
def get? (f : Fields) (name : String) : Option Value := f.found.lookup name

/-- A field that has to be there. -/
def required? {α : Type} (f : Fields) (name : String) (read : Value → Option α) : Option α :=
  f.get? name >>= read

/-- A field that may be left out. -/
def withDefault? {α : Type} (f : Fields) (name : String) (fallback : α)
    (read : Value → Option α) : Option α :=
  match f.get? name with
  | none => some fallback
  | some value => read value

/-- A field that may be left out of an object, but not of a list. -/
def optional? {α : Type} (f : Fields) (name : String) (read : Value → Option α) :
    Option (Option α) :=
  match f.get? name with
  | none => if f.positional then none else some none
  | some value => nullable? read value

end Fields

/-- The case that a choice names, with its content if it has any. -/
def case? : Value → Option (String × Option Value)
  | .string (some name) => some (name, none)
  | .object [(some name, value)] => some (name, some value)
  | _ => none

/-- A case without content. It may be spelled with a `null` as content. -/
def bare? {α : Type} (a : α) : Option Value → Option α
  | none | some .null => some a
  | some _ => none

/-- A case with content. -/
def content? {α : Type} (read : Value → Option α) : Option Value → Option α
  | none => none
  | some value => read value

/-- The JSON form of a case with content. -/
def case (name : String) (content : Value) : Value := ofFields [(name, content)]

end Cadence.Json
