import Cadence.Config.Basic

/-!
# The logger

A logger lets the messages pass that are severe enough, and sends each to where its mode says. A host
that embeds the clock gets them through a channel; once it has hung up, they go to the terminal.
-/

namespace Cadence.Log

/-- Where a logger sends messages. -/
inductive Target where
  /-- Where a configuration says. -/
  | configured (mode : Mode)
  /-- Through a channel to a host, as long as the host listens. -/
  | host (listening : Bool)
deriving Repr, DecidableEq

/-- Where a message came out. -/
inductive Delivery where
  /-- On standard output. -/
  | output (line : String)
  /-- On standard error. -/
  | errors (line : String)
  /-- In the log file. -/
  | file (message : Message)
  /-- At the host. -/
  | host (message : Message)
deriving Repr, DecidableEq

namespace Delivery

/-- The lines that came out on standard output. -/
def outputLines (deliveries : List Delivery) : List String :=
  deliveries.flatMap fun
    | .output line => line.splitOn "\n"
    | _ => []

/-- The lines that came out on standard error. -/
def errorLines (deliveries : List Delivery) : List String :=
  deliveries.flatMap fun
    | .errors line => line.splitOn "\n"
    | _ => []

/-- The messages that came out in the log file. -/
def filed (deliveries : List Delivery) : List Message :=
  deliveries.filterMap fun
    | .file message => some message
    | _ => none

/-- The messages that came out at the host. -/
def received (deliveries : List Delivery) : List Message :=
  deliveries.filterMap fun
    | .host message => some message
    | _ => none

end Delivery

/-- A logger. -/
structure Logger where
  /-- Where it sends messages. -/
  target : Target
  /-- The least severity that passes. -/
  minimum : Severity := .info
  /-- A log file was asked for once. -/
  hasFile : Bool := false
deriving Repr, DecidableEq

namespace Logger

/-- A logger to the terminal. -/
def standalone : Logger := { target := .configured .standalone }

/-- A logger to a host. -/
def embedded : Logger := { target := .host true }

/-- Takes over the settings of the log. -/
def configure (l : Logger) (s : LoggingSettings) : Logger where
  target := .configured s.mode
  minimum := s.minSeverity
  hasFile := l.hasFile || s.mode.usesFile

/-- The host hangs up. -/
def hangUp (l : Logger) : Logger :=
  match l.target with
  | .host _ => { l with target := .host false }
  | .configured _ => l

/-- A message on the terminal. What is severe goes to standard error. -/
def onTerminal (m : Message) : Delivery :=
  match m.level with
  | .fatal | .error => .errors m.display
  | .warn | .info | .debug => .output m.display

/-- Where a message comes out. -/
def deliver (l : Logger) (m : Message) : List Delivery :=
  if !m.passes l.minimum then []
  else match l.target with
    | .configured .standalone => [onTerminal m]
    | .configured .file => [.file m]
    | .configured .full => [.file m, onTerminal m]
    | .configured .silent => []
    | .host true => [.host m]
    | .host false => [.errors s!"Logger channel error: {m.display}"]

end Logger

end Cadence.Log
