import Cadence.Program.Session

/-!
# The command line

The program on a real machine: it reads the files that its configuration is kept in, writes what
changed in them, and lets a running clock keep up with the time of the machine.
-/

namespace Cadence.Program

open CommandLine (Arguments Rejection)

/-- The text of a place on the disk. -/
def diskPath (place : Place) : String := "/" ++ "/".intercalate place

/-- What is at a place on the disk, if anything. What is there but cannot be read is taken for a
directory. -/
def diskEntry? (place : Place) : IO (Option FileEntry) := do
  try
    pure (some (.file (← IO.FS.readBinFile (diskPath place))))
  catch
    | .noFileOrDirectory .. => pure none
    | _ => pure (some .directory)

/-- The places that a path leads through from another one, both ends included. -/
def placesAlong (place : Place) (path : FilePath) : List Place :=
  (List.range (path.pieces.length + 1)).map fun n => (path.pieces.take n).foldl FilePath.follow place

/-- Reads what the paths of a configuration store lead through. -/
def readFiles (store : ConfigStore) : IO Files := do
  let working := FilePath.ofText (← IO.currentDir).toString
  let fs : Files := ⟨[], working.pieces.foldl FilePath.follow []⟩
  let places := placesAlong [] working
    ++ [store.filePath, store.backupPath].flatMap fun path => placesAlong (fs.start path) path
  let entries ← (places.eraseDups.filter (!·.isEmpty)).filterMapM fun place => do
    pure ((← diskEntry? place).map (place, ·))
  pure { fs with entries }

/-- Writes what changed. -/
def writeFiles (before after : Files) : IO Unit :=
  for (place, entry) in after.entries do
    if !(before.entry? place).any (·.same entry) then
      match entry with
      | .directory => IO.FS.createDirAll (diskPath place)
      | .file content => IO.FS.writeBinFile (diskPath place) content

/-- The directory for configurations. One that is named has to be named from the root. -/
def home : IO String := do
  match (← IO.getEnv "XDG_CONFIG_HOME").filter (·.startsWith "/"), ← IO.getEnv "HOME" with
  | some path, _ => pure path
  | none, some path => pure (path ++ "/.config")
  | none, none => pure "."

/-- The names of all log files. -/
def logNames : List String :=
  Log.currentName :: (List.range Log.archiveCount).map fun i => Log.archiveName (i + 1)

/-- Reads the log files of a directory. -/
def readLogs (directory : String) : IO Log.Writer := do
  let files ← logNames.filterMapM fun name => do
    try pure (some (name, ← IO.FS.readFile s!"{directory}/{name}")) catch _ => pure none
  pure (Log.Writer.start files)

/-- Writes a message to the log files. All of them are written anew after a rotation. -/
def writeLog (directory : String) (w : Log.Writer) (m : Log.Message) : IO Log.Writer := do
  IO.FS.createDirAll directory
  let after := w.write m
  if w.rotatesFor m then
    for (name, text) in after.directory do
      IO.FS.writeFile s!"{directory}/{name}" text
  else
    let file ← IO.FS.Handle.mk s!"{directory}/{Log.currentName}" .append
    file.putStr (Log.Writer.lineOf m)
  pure after

/-- Lets one message come out. -/
def deliver (directory : String) (w : Log.Writer) : Log.Delivery → IO Log.Writer
  | .output line => do
    IO.println line
    pure w
  | .errors line => do
    IO.eprintln line
    pure w
  | .file m => writeLog directory w m
  | .host _ => pure w

/-- Lets everything come out that has not yet. -/
def deliverAll (directory : String) (w : Log.Writer) (r : Running) : IO (Log.Writer × Running) := do
  let w ← r.deliveries.foldlM (deliver directory) w
  pure (w, { r with deliveries := [] })

/-- Keeps a running clock up with the time of the machine until its course is over. -/
partial def keepUp (settings : DriverSettings) (course : Course) (json : Bool) (directory : String)
    (started lastReport nextPoll : Nat) (w : Log.Writer) (r : Running) :
    IO (Log.Writer × Running) := do
  let now ← IO.monoNanosNow
  let elapsed := now - started
  if nextPoll ≤ elapsed ∧ !course.goesOn elapsed then pure (w, r)
  else
    let date := UInt64.ofNat (now / 1000)
    let r := Running.flush { r with clock := tick (r.clock.moveTime (·.moveTo date)) }
    let due := nextPoll ≤ elapsed ∧ course.reports (elapsed - lastReport)
    let r := if due then r.report json else r
    let (w, r) ← deliverAll directory w r
    let nextPoll := if nextPoll ≤ elapsed then elapsed + pollInterval else nextPoll
    let micros := min (settings.sleepMicros date r.clock.nextDeadline).toNat
      ((nextPoll - elapsed) / 1000)
    IO.sleep (UInt32.ofNat (micros / 1000))
    keepUp settings course json directory started (if due then elapsed else lastReport) nextPoll w r

/-- Runs the program with a configuration. -/
def runWith (a : Arguments) (config : Config) (home : String) : IO UInt32 := do
  let directory := logDirectory home
  let logger := Log.Logger.standalone.configure config.logging
  let w ← readLogs directory
  let w ← ((greeting home config.logging).flatMap logger.deliver).foldlM (deliver directory) w
  let started ← IO.monoNanosNow
  match begin a config ⟨UInt64.ofNat (started / 1000)⟩ with
  | .error fault =>
    IO.eprintln s!"Error: {fault.message}"
    pure 1
  | .ok clock =>
    let (w, r) ← deliverAll directory w (Running.flush ⟨clock, logger, []⟩)
    match Course.ofArguments a with
    | .error text =>
      let _ ← deliverAll directory w r.close
      IO.eprintln s!"Error: {text}"
      pure 1
    | .ok course =>
      let (w, r) ← keepUp config.driver course a.json directory started 0 0 w r
      let _ ← deliverAll directory w r.stop.close
      pure 0

/-- What is printed when the arguments are not carried out. -/
def explain : Rejection → IO Unit
  | .displayVersion => IO.println s!"{name} {version}"
  | .displayHelp => do
    IO.println s!"{name}: a beat clock and scheduler for live coding.\n\nOptions:"
    for p in CommandLine.Parameter.all do
      let short := match p.letter with
        | some c => s!"-{c}, "
        | none => "    "
      let value := if p.takesValue then " <VALUE>" else ""
      IO.println s!"  {short}--{p.name}{value}"
  | rejection => IO.eprintln s!"error: {rejection.name}"

/-- Runs the program. -/
def run (arguments : List String) : IO UInt32 := do
  match Arguments.parse arguments with
  | .error rejection =>
    explain rejection
    pure (UInt32.ofNat rejection.exitCode)
  | .ok a =>
    let home ← home
    let path := a.config.getD (directory home ++ "/config.toml")
    let before ← readFiles ⟨path⟩
    let loaded := load a home before
    writeFiles before loaded.files
    let deliveries := loaded.messages.flatMap Log.Logger.standalone.deliver
    let _ ← deliveries.foldlM (deliver (logDirectory home)) (Log.Writer.start [])
    match loaded.answer with
    | .error text =>
      IO.eprintln s!"Error: {text}"
      pure 1
    | .ok config => runWith a config home

end Cadence.Program

/-- The command line of the program. -/
def main (arguments : List String) : IO UInt32 := Cadence.Program.run arguments
