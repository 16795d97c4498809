import Cadence.Log.Message

/-!
# The rotating log file

Messages are appended to a current file. Before a message would make it larger than the limit, the
current file becomes the first archive, every archive moves on by one, and the oldest is dropped. So
a message is never divided between two files.
-/

namespace Cadence.Log

/-- The files of a directory by their names, each with its text. -/
abbrev Directory : Type := List (String × String)

namespace Directory

/-- A file of this name is there. -/
def has (d : Directory) (name : String) : Bool := (d.lookup name).isSome

/-- Writes a file, in place of what was there. -/
def put (d : Directory) (name text : String) : Directory :=
  if d.has name then d.map fun (n, old) => if n = name then (n, text) else (n, old)
  else d ++ [(name, text)]

/-- Deletes a file, if it is there. -/
def delete (d : Directory) (name : String) : Directory := d.filter (·.1 ≠ name)

/-- Gives a file another name, in place of the file that had it. -/
def rename (d : Directory) (source target : String) : Directory :=
  match d.lookup source with
  | none => d
  | some text => ((d.delete source).delete target).put target text

end Directory

/-- The largest size of the current file in bytes. -/
def sizeLimit : Nat := 1024 * 1024

/-- The number of archives that are kept. -/
def archiveCount : Nat := 4

/-- The name of the current file. -/
def currentName : String := "tempoclock.log"

/-- The name of an archive, the first being the latest. -/
def archiveName (index : Nat) : String := s!"{currentName}.{index}"

/-- A writer of log files. -/
structure Writer where
  /-- The directory. -/
  directory : Directory
  /-- The size of the current file, while it is open. -/
  size : Option Nat
deriving Repr, DecidableEq

namespace Writer

/-- A writer that has nothing open yet. -/
def start (directory : Directory) : Writer := ⟨directory, none⟩

/-- The size of the current file, which is opened and if need be made. -/
def ensureOpen (w : Writer) : Nat × Writer :=
  match w.size with
  | some size => (size, w)
  | none =>
    let text := (w.directory.lookup currentName).getD ""
    let directory := if w.directory.has currentName then w.directory
      else w.directory.put currentName ""
    (text.utf8ByteSize, ⟨directory, some text.utf8ByteSize⟩)

/-- Moves every file on by one: the archives from the oldest to the latest, then the current
file. -/
def rotate (w : Writer) : Writer :=
  let directory := w.directory.delete (archiveName archiveCount)
  let directory := (List.range (archiveCount - 1)).reverse.foldl
    (fun d i => d.rename (archiveName (i + 1)) (archiveName (i + 2))) directory
  ⟨directory.rename currentName (archiveName 1), none⟩

/-- The line, or lines, that a message is written as. -/
def lineOf (m : Message) : String := m.display ++ "\n"

/-- Appends a text to the current file. -/
def append (w : Writer) (text : String) : Writer :=
  let (size, w) := w.ensureOpen
  let old := (w.directory.lookup currentName).getD ""
  ⟨w.directory.put currentName (old ++ text), some (size + text.utf8ByteSize)⟩

/-- A message would make the current file too large. -/
def rotatesFor (w : Writer) (m : Message) : Bool :=
  sizeLimit < w.ensureOpen.1 + (lineOf m).utf8ByteSize

/-- Writes a message, after a rotation if the current file would become too large. -/
def write (w : Writer) (m : Message) : Writer :=
  let opened := w.ensureOpen.2
  if opened.rotatesFor m then opened.rotate.append (lineOf m) else opened.append (lineOf m)

end Writer

end Cadence.Log
