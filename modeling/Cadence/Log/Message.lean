import Cadence.Number.Notation

/-!
# Log messages

A message has a severity, a text, and the beat it is about if it is tied to the timeline.
Severities run from the most to the least severe, so a message passes a filter when its rank does
not exceed that of the filter.
-/

namespace Cadence.Log

/-- How serious a message is. -/
inductive Severity where
  /-- The clock cannot keep running. -/
  | fatal
  /-- Something failed, the clock keeps running. -/
  | error
  /-- A possible problem. -/
  | warn
  /-- The state of the clock. -/
  | info
  /-- Details for finding timing faults. -/
  | debug
deriving Repr, DecidableEq, Inhabited

namespace Severity

/-- All severities, the most severe first. -/
def all : List Severity := [.fatal, .error, .warn, .info, .debug]

/-- The place among the severities, the most severe first. -/
def rank : Severity → Nat
  | .fatal => 0
  | .error => 1
  | .warn => 2
  | .info => 3
  | .debug => 4

/-- The name in configuration files and JSON. -/
def name : Severity → String
  | .fatal => "fatal"
  | .error => "error"
  | .warn => "warn"
  | .info => "info"
  | .debug => "debug"

/-- The mark at the head of a logged line. -/
def mark : Severity → String
  | .fatal => "[FATAL]"
  | .error => "[ERROR]"
  | .warn => "[WARN]"
  | .info => "[INFO]"
  | .debug => "[DEBUG]"

/-- The severity of a given name. -/
def ofName? (name : String) : Option Severity := all.find? (·.name = name)

end Severity

/-- One log message. -/
structure Message where
  /-- How serious it is. -/
  level : Severity
  /-- The beat it is about. -/
  beat : Option Float
  /-- What it says. -/
  text : String
deriving Repr, DecidableEq, Inhabited

namespace Message

/-- The message passes a filter that asks for at least the given severity. -/
def passes (m : Message) (minimum : Severity) : Bool := m.level.rank ≤ minimum.rank

/-- The logged form of the message. -/
def display (m : Message) : String :=
  match m.beat with
  | some beat => s!"{m.level.mark} [beat {Number.fixed 3 beat}] {m.text}"
  | none => s!"{m.level.mark} {m.text}"

/-- The lines that the logged forms of some messages fill. A message that holds line breaks fills
several. -/
def lines (messages : List Message) : List String :=
  messages.flatMap fun m => m.display.splitOn "\n"

/-- The two messages hash alike. The beat does not take part. -/
def sameHash (m n : Message) : Bool := m.level = n.level && m.text = n.text

/-- The two messages are equal, their beats compared as numbers. -/
def same (m n : Message) : Bool :=
  m.level = n.level && m.text = n.text &&
    match m.beat, n.beat with
    | none, none => true
    | some x, some y => x == y
    | _, _ => false

end Message

/-- A message without a beat. -/
def say (level : Severity) (text : String) : Message := ⟨level, none, text⟩

end Cadence.Log
