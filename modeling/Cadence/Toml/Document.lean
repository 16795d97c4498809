import Cadence.Toml.Scalar
import Cadence.Toml.Text
import Cadence.Toml.Tree

/-!
# Reading TOML documents

A document is a sequence of statements, one a line: assignments and headers. Lists and tables in
braces nest within assignments, to a limited depth; the number of parts of a dotted key is limited
too. A byte order mark may come first.
-/

namespace Cadence.Toml

/-- The depth of nesting, and the number of parts of a dotted key, that is just too large. -/
def nestingLimit : Nat := 80

/-- A character of a key without quotes. -/
def isKeyChar (c : Char) : Bool := c.isAlphanum || c = '_' || c = '-'

/-- One part of a key, with what follows it. -/
def keyPart? (cs : List Char) : Option (String × List Char) :=
  match cs with
  | '"' :: _ | '\'' :: _ => (shortText? cs).map fun (chars, rest) => (String.ofList chars, rest)
  | _ =>
    let chars := cs.takeWhile isKeyChar
    if chars.isEmpty then none else some (String.ofList chars, cs.dropWhile isKeyChar)

/-- The parts of a dotted key, with what follows it. The fuel bounds their number. -/
def keyParts? (fuel : Nat) (cs : List Char) : Option (List String × List Char) :=
  match fuel with
  | 0 => none
  | fuel + 1 => do
    let (part, rest) ← keyPart? (skipBlanks cs)
    match skipBlanks rest with
    | '.' :: rest =>
      let (more, rest) ← keyParts? fuel rest
      pure (part :: more, rest)
    | rest => pure ([part], rest)

/-- A dotted key, with what follows it. -/
def key? (cs : List Char) : Option (List String × List Char) := keyParts? (nestingLimit - 1) cs

mutual

/-- The value at the head, with what follows it. The depth bounds the nesting, the fuel the
length. -/
def value? (fuel depth : Nat) (cs : List Char) : Option (Value × List Char) :=
  match fuel with
  | 0 => none
  | fuel + 1 =>
    match cs, depth with
    | '"' :: _, _ | '\'' :: _, _ => do
      let (chars, rest) ← text? cs
      pure (.text (String.ofList chars), rest)
    | '[' :: _, 0 | '\x7b' :: _, 0 => none
    | '[' :: rest, depth + 1 => do
      let (items, rest) ← items? fuel depth rest
      pure (.array items, rest)
    | '\x7b' :: rest, depth + 1 => do
      let (entries, rest) ← fields? fuel depth true [] rest
      pure (.table (settledEntries entries), rest)
    | cs, _ => scalar? cs

/-- The items of a list, from after its opening bracket, with what follows it. -/
def items? (fuel depth : Nat) (cs : List Char) : Option (List Value × List Char) :=
  match fuel with
  | 0 => none
  | fuel + 1 =>
    match skipGap false cs with
    | ']' :: rest => some ([], rest)
    | cs => do
      let (item, rest) ← value? fuel depth cs
      match skipGap false rest with
      | ',' :: rest =>
        let (more, rest) ← items? fuel depth rest
        pure (item :: more, rest)
      | ']' :: rest => some ([item], rest)
      | _ => none

/-- The entries of a table in braces, with what follows it. Only right after the opening brace can
the table end. -/
def fields? (fuel depth : Nat) (first : Bool) (entries : Entries) (cs : List Char) :
    Option (Entries × List Char) :=
  match fuel with
  | 0 => none
  | fuel + 1 =>
    match first, skipBlanks cs with
    | true, '\x7d' :: rest => some (entries, rest)
    | _, cs => do
      let (path, rest) ← key? cs
      let rest ← after? '=' rest
      let (value, rest) ← value? fuel depth (skipBlanks rest)
      let entries ← entries.assign? path value
      match skipBlanks rest with
      | ',' :: rest => fields? fuel depth false entries rest
      | '\x7d' :: rest => some (entries, rest)
      | _ => none

end

/-- One line of a document, apart from comments. -/
inductive Statement where
  /-- A value for a key. -/
  | assign (path : List String) (value : Value)
  /-- The header of a table. -/
  | table (path : List String)
  /-- The header of one more table of a list. -/
  | item (path : List String)
deriving Repr, Inhabited

/-- The statement at the head of a line, with what follows it; no statement if the line is
empty. -/
def statement? (cs : List Char) : Option (Option Statement × List Char) :=
  match skipBlanks cs with
  | [] => some (none, [])
  | '#' :: rest => some (none, '#' :: rest)
  | '\n' :: rest => some (none, '\n' :: rest)
  | '\r' :: rest => some (none, '\r' :: rest)
  | '[' :: '[' :: rest => do
    let (path, rest) ← key? rest
    let rest ← after? ']' rest
    pure (some (.item path), ← after? ']' rest)
  | '[' :: rest => do
    let (path, rest) ← key? rest
    pure (some (.table path), ← after? ']' rest)
  | cs => do
    let (path, rest) ← key? cs
    let rest := skipBlanks (← after? '=' rest)
    let (value, rest) ← value? (2 * rest.length + 2) (nestingLimit - 1) rest
    pure (some (.assign path value), rest)

/-- The statements of a text, one a line. The fuel bounds their number. -/
def statements? (fuel : Nat) (cs : List Char) : Option (List Statement) :=
  match fuel with
  | 0 => none
  | fuel + 1 =>
    if cs.isEmpty then some []
    else do
      let (statement, rest) ← statement? cs
      let more ← statements? fuel (← lineRest? rest)
      pure (statement.toList ++ more)

/-- A document while its statements are carried out. -/
structure Growing where
  /-- What it holds so far. -/
  entries : Entries
  /-- The header that assignments go under. -/
  header : List String
deriving Repr

/-- Carries out one statement. -/
def Growing.step (g : Growing) : Statement → Option Growing
  | .assign path value => do pure { g with entries := ← g.entries.assignIn? g.header path value }
  | .table path => do pure ⟨← g.entries.openTable? path, path⟩
  | .item path => do pure ⟨← g.entries.openItem? path, path⟩

/-- The text without a byte order mark in front. -/
def withoutMark : List Char → List Char
  | '\ufeff' :: rest => rest
  | cs => cs

/-- The table that a text describes, if it is a TOML document. -/
def parse? (text : String) : Option (List (String × Value)) := do
  let cs := withoutMark text.toList
  let statements ← statements? (cs.length + 1) cs
  let grown ← statements.foldlM Growing.step ⟨[], []⟩
  pure (settledEntries grown.entries)

end Cadence.Toml
