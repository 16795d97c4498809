import Cadence.Config.Toml
import Cadence.Config.Validate
import Cadence.Files.Basic
import Cadence.Text.Quoted

/-!
# Stored configurations

A configuration is kept in a file. If there is none, it is made with the defaults. A file that
cannot be read as a configuration is kept under another name beside it and gives way to the defaults,
so nothing that a user wrote is lost.
-/

namespace Cadence

/-- Where a configuration is kept. -/
structure ConfigStore where
  /-- The path of the file, as it is written in messages. -/
  path : String
deriving Repr, DecidableEq

/-- Why a configuration could not be loaded or saved. -/
inductive StoreFault where
  /-- The file is there but cannot be read. -/
  | unreadable (path : String)
  /-- What the file holds could not be kept under another name. -/
  | noBackup
  /-- There is no directory for the file, and none can be made. -/
  | noDirectory
  /-- The configuration has no written form. -/
  | unwritable
  /-- The file cannot be written. -/
  | notWritten
deriving Repr, DecidableEq

/-- The wording of a fault of the store. -/
def StoreFault.message : StoreFault → String
  | .unreadable path => s!"Failed to read {path}"
  | .noBackup => "Failed to write backup"
  | .noDirectory => "Failed to create config directory"
  | .unwritable => "Failed to serialize config"
  | .notWritten => "Failed to write config file"

/-- What came of an operation of the store: the answer, the files, and what was logged. -/
structure StoreOutcome (α : Type) where
  /-- The answer, or why there is none. -/
  answer : Except StoreFault α
  /-- The files afterwards. -/
  files : Files
  /-- What was logged. -/
  messages : List Log.Message

namespace ConfigStore

/-- The path of the file. -/
def filePath (s : ConfigStore) : FilePath := FilePath.ofText s.path

/-- The name that a file is kept under when it cannot be read as a configuration. If only a dot stands
before the last dot, it becomes the name of the directory around, and nothing can be kept there. -/
def backupName (name : String) : String :=
  let stem := fileStem name
  if stem = "." then ".." else stem ++ ".toml.backup"

/-- The path that the file is kept under when it cannot be read as a configuration. -/
def backupPath (s : ConfigStore) : FilePath := s.filePath.renamed backupName

/-- Saves a configuration, making the directory of the file if it is missing. What is not saved
leaves the file as it was. -/
def save (s : ConfigStore) (files : Files) (config : Config) : StoreOutcome Unit :=
  match files.makeDirectories s.filePath.parent with
  | (false, files) => ⟨.error .noDirectory, files, []⟩
  | (true, files) =>
    match config.toText? with
    | none => ⟨.error .unwritable, files, []⟩
    | some text =>
      match files.write? s.filePath text.toUTF8 with
      | none => ⟨.error .notWritten, files, []⟩
      | some files => ⟨.ok (), files, []⟩

/-- Saves the defaults and answers them, after logging some messages. -/
def saveDefaults (s : ConfigStore) (files : Files) (before after : List Log.Message) :
    StoreOutcome Config :=
  let saved := s.save files {}
  match saved.answer with
  | .error fault => ⟨.error fault, saved.files, before⟩
  | .ok () => ⟨.ok {}, saved.files, before ++ after⟩

/-- The message about a file that is no configuration. -/
def corrupted (s : ConfigStore) : Log.Message :=
  let backup := Text.quoted s.backupPath.text
  Log.say .error
    s!"Config file corrupted: not a configuration. Backup saved to {backup}. Using defaults."

/-- Loads the configuration, and repairs it. -/
def loadFile (s : ConfigStore) (files : Files) : StoreOutcome Config :=
  match (files.read? s.filePath).bind fun content => (String.fromUTF8? content).map (content, ·) with
  | none => ⟨.error (.unreadable s.path), files, []⟩
  | some (content, text) =>
    match Config.ofText? text with
    | some config =>
      let repaired := config.validate
      ⟨.ok repaired.value, files, repaired.messages⟩
    | none =>
      match files.write? s.backupPath content with
      | none => ⟨.error .noBackup, files, []⟩
      | some files => s.saveDefaults files [s.corrupted] []

/-- Loads the configuration. If there is no file, it is made with the defaults. -/
def load (s : ConfigStore) (files : Files) : StoreOutcome Config :=
  if (files.find? s.filePath).isSome then s.loadFile files
  else s.saveDefaults files [] [Log.say .info s!"Wrote default configuration to {s.path}"]

end ConfigStore

end Cadence
