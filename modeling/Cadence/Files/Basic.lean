import Cadence.Files.Path

/-!
# Files

The part of a file system that the program works on: directories and files with their bytes. A path
is followed piece by piece, and everything that it leads through has to be a directory. A file can
only be made in a directory that is there.
-/

namespace Cadence

/-- What is at a place. -/
inductive FileEntry where
  /-- A file with its bytes. -/
  | file (content : ByteArray)
  /-- A directory. -/
  | directory

/-- It is a directory. -/
def FileEntry.isDirectory : FileEntry → Bool
  | .directory => true
  | .file _ => false

/-- Two directories, or two files that hold the same bytes. -/
def FileEntry.same : FileEntry → FileEntry → Bool
  | .directory, .directory => true
  | .file a, .file b => a.data == b.data
  | _, _ => false

/-- A file system. -/
structure Files where
  /-- Everything that is there, by its place. -/
  entries : List (Place × FileEntry)
  /-- The directory where a path begins that does not begin at the root. -/
  current : Place

namespace Files

/-- Nothing is there but the root. -/
def empty : Files := ⟨[], []⟩

/-- What is at a place. The root is always there. -/
def entry? (fs : Files) (place : Place) : Option FileEntry :=
  if place.isEmpty then some .directory else fs.entries.lookup place

/-- There is a directory at the place. -/
def isDirectory (fs : Files) (place : Place) : Bool := (fs.entry? place).any (·.isDirectory)

/-- The names in a directory, in order. -/
def names (fs : Files) (directory : Place) : List String :=
  (fs.entries.filterMap fun (place, _) =>
    if place.dropLast = directory then place.getLast? else none).mergeSort fun a b => !(b < a)

/-- Puts something at a place, instead of what was there. -/
def put (fs : Files) (place : Place) (entry : FileEntry) : Files :=
  if (fs.entry? place).isSome then
    { fs with entries := fs.entries.map fun (p, old) => if p = place then (p, entry) else (p, old) }
  else { fs with entries := fs.entries ++ [(place, entry)] }

/-- The place that a piece of a path leads to, from a place where a directory has to be. -/
def step? (fs : Files) (place : Place) (piece : String) : Option Place :=
  if fs.isDirectory place && piece.utf8ByteSize ≤ FilePath.nameLimit then
    some (FilePath.follow place piece)
  else none

/-- The place where a path begins. -/
def start (fs : Files) (path : FilePath) : Place := if path.isAbsolute then [] else fs.current

/-- The place that a path leads to. There need not be anything yet. -/
def locate? (fs : Files) (path : FilePath) : Option Place :=
  if path.isSound then path.pieces.foldlM fs.step? (fs.start path) else none

/-- What a path leads to. -/
def find? (fs : Files) (path : FilePath) : Option FileEntry := (fs.locate? path).bind fs.entry?

/-- The bytes of a file. -/
def read? (fs : Files) (path : FilePath) : Option ByteArray :=
  match fs.find? path with
  | some (.file content) => some content
  | _ => none

/-- Writes a file. Its directory has to be there, and it must not be a directory itself. -/
def write? (fs : Files) (path : FilePath) (content : ByteArray) : Option Files :=
  match fs.locate? path with
  | some place => if fs.isDirectory place then none else some (fs.put place (.file content))
  | none => none

/-- Follows pieces of a path, making every directory that is missing on the way. Answers whether it
came to a directory in the end. What was made before something got in the way stays. A directory that
only dots follow has to be there already. -/
def makeOnward : List String → Place → Files → Bool × Files
  | [], place, fs => (fs.isDirectory place, fs)
  | piece :: rest, place, fs =>
    match fs.step? place piece with
    | none => (false, fs)
    | some next =>
      if (fs.entry? next).isSome then makeOnward rest next fs
      else if rest.all (· = "") || rest.any FilePath.leadsOn then
        makeOnward rest next (fs.put next .directory)
      else (false, fs)

/-- Makes a directory with every directory on the way to it. Answers whether it is there now. -/
def makeDirectories (fs : Files) (path : FilePath) : Bool × Files :=
  if path.isSound then makeOnward path.pieces (fs.start path) fs else (false, fs)

end Files

end Cadence
