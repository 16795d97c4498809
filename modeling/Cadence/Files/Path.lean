/-!
# Paths

A path is what a user writes to say where a file is. It stands for the pieces between its slashes,
which are followed one after another. What it leads to depends on the files, so it is kept as it was
written.
-/

namespace Cadence

/-- A place in a file system: the names on the way to it from the root. -/
abbrev Place : Type := List String

/-- A path as it is written. -/
structure FilePath where
  /-- It begins with a slash, and so at the root. -/
  isAbsolute : Bool
  /-- What stands between its slashes. -/
  pieces : List String
deriving Repr, DecidableEq

namespace FilePath

/-- The path that a text stands for. -/
def ofText (text : String) : FilePath :=
  match text.toList.splitOn '/' with
  | [] :: piece :: rest => ⟨true, (piece :: rest).map String.ofList⟩
  | pieces => ⟨false, pieces.map String.ofList⟩

/-- The text of a path. -/
def text (p : FilePath) : String :=
  (if p.isAbsolute then "/" else "") ++ "/".intercalate p.pieces

/-- The number of bytes that a name can have. -/
def nameLimit : Nat := 255

/-- The number of bytes that a path can have. -/
def pathLimit : Nat := 4095

/-- The path can be followed: it is not too long, and nothing in it ends a text. -/
def isSound (p : FilePath) : Bool :=
  p.text.utf8ByteSize ≤ pathLimit && p.text.toList.all (·.toNat ≠ 0)

/-- The piece leads to another place. Nothing and a single dot stay where they are. -/
def leadsOn (piece : String) : Bool := piece ≠ "" && piece ≠ "."

/-- The place that a piece leads to. Two dots lead back. -/
def follow (place : Place) (piece : String) : Place :=
  if !leadsOn piece then place
  else if piece = ".." then place.dropLast
  else place ++ [piece]

/-- The path without the pieces at its end that stay where they are. -/
def trimmed (p : FilePath) : FilePath :=
  { p with pieces := (p.pieces.reverse.dropWhile (!leadsOn ·)).reverse }

/-- The path without the last piece that leads on. -/
def parent (p : FilePath) : FilePath :=
  trimmed { p with pieces := p.trimmed.pieces.dropLast }

/-- The path with another name at its end. -/
def renamed (p : FilePath) (rename : String → String) : FilePath :=
  { p with pieces := p.pieces.dropLast ++ p.pieces.getLast?.toList.map rename }

end FilePath

/-- The name of a file without what stands behind its last dot. A dot in front does not count. -/
def fileStem (name : String) : String :=
  let cs := name.toList
  match cs.reverse.dropWhile (· ≠ '.') with
  | [] | [_] => name
  | _ :: stem => String.ofList stem.reverse

end Cadence
