import Cadence.Toml.Value

/-!
# The tree of a document

Tables grow while a document is read, and how a table came to be decides how it may still grow. A
table that was opened by a header of its own, or stands in braces, is not extended by a dotted key.
A table that only lies on the way to another header can still be opened once. A name is given one
value only.
-/

namespace Cadence.Toml

/-- How a table came to be. -/
inductive Origin where
  /-- It was opened by a header, or it is the document itself. -/
  | opened
  /-- It lies on the way to a table that was opened. -/
  | implied
  /-- It lies on the way of a dotted key. -/
  | dotted
deriving Repr, DecidableEq

/-- What a name stands for while a document is read. -/
inductive Node where
  /-- A complete value. -/
  | value (v : Value)
  /-- A table that may still grow. -/
  | table (origin : Origin) (entries : List (String × Node))
  /-- A list of tables, each opened by a header. -/
  | tables (items : List (List (String × Node)))
deriving Repr, Inhabited

/-- The entries of a table that may still grow. -/
abbrev Entries : Type := List (String × Node)

namespace Entries

/-- Gives a name that is there a new meaning. -/
def replace (entries : Entries) (key : String) (node : Node) : Entries :=
  entries.map fun (name, old) => if name = key then (name, node) else (name, old)

/-- Adds a name, unless it is taken. -/
def add? (entries : Entries) (key : String) (node : Node) : Option Entries :=
  if (entries.lookup key).isSome then none else some (entries ++ [(key, node)])

/-- Changes the table at the end of a path. Tables that are missing on the way are added; of a list
of tables the last one is meant. A dotted path does not enter a table that was opened. -/
def descend? (dotted : Bool) (change : Origin → Entries → Option Entries) :
    List String → Origin → Entries → Option Entries
  | [], origin, entries => change origin entries
  | key :: path, _, entries =>
    match entries.lookup key with
    | none => do
      let origin := if dotted then .dotted else .implied
      let inner ← descend? dotted change path origin []
      pure (entries ++ [(key, .table origin inner)])
    | some (.value _) => none
    | some (.table origin inner) =>
      if dotted && origin = .opened then none
      else do
        let inner ← descend? dotted change path origin inner
        pure (entries.replace key (.table origin inner))
    | some (.tables items) => do
      let last ← descend? dotted change path .opened (← items.getLast?)
      pure (entries.replace key (.tables (items.dropLast ++ [last])))

/-- Assigns a value to a dotted key. A key without dots adds to the table itself; a key with dots
adds only to a table that dotted keys made. -/
def assign? (path : List String) (value : Value) (entries : Entries) : Option Entries := do
  let key ← path.getLast?
  let way := path.dropLast
  let put (origin : Origin) (table : Entries) : Option Entries :=
    if (origin = .dotted) = way.isEmpty then none else table.add? key (.value value)
  descend? true put way .opened entries

/-- Opens a table by its header. A table that only lay on the way to another one keeps what it
holds. -/
def openTable? (path : List String) (entries : Entries) : Option Entries := do
  let key ← path.getLast?
  let put (_ : Origin) (table : Entries) : Option Entries :=
    match table.lookup key with
    | none => some (table ++ [(key, .table .opened [])])
    | some (.table .implied inner) => some (table.replace key (.table .opened inner))
    | some _ => none
  descend? false put path.dropLast .opened entries

/-- Opens one more table of a list of tables. -/
def openItem? (path : List String) (entries : Entries) : Option Entries := do
  let key ← path.getLast?
  let put (_ : Origin) (table : Entries) : Option Entries :=
    match table.lookup key with
    | none => some (table ++ [(key, .tables [[]])])
    | some (.tables items) => some (table.replace key (.tables (items ++ [[]])))
    | some _ => none
  descend? false put path.dropLast .opened entries

/-- Assigns a value to a dotted key in the table that a header opened last. -/
def assignIn? (header path : List String) (value : Value) (entries : Entries) : Option Entries :=
  descend? false (fun _ table => table.assign? path value) header .opened entries

end Entries

mutual

/-- The value of a node that will not grow any more. -/
def Node.settled : Node → Value
  | .value v => v
  | .table _ entries => .table (settledEntries entries)
  | .tables items => .array (settledTables items)

/-- The values of the names of a table. -/
def settledEntries : List (String × Node) → List (String × Value)
  | [] => []
  | (key, node) :: rest => (key, node.settled) :: settledEntries rest

/-- The values of a list of tables. -/
def settledTables : List (List (String × Node)) → List Value
  | [] => []
  | entries :: rest => .table (settledEntries entries) :: settledTables rest

end

end Cadence.Toml
