import Cadence.Meter.Text

/-!
# Command-line arguments

Options take one value each, which follows as an argument of its own or stands behind the name;
switches take none. Each can be given once. Short names can stand together in one argument, the last
of them with its value right behind it. An argument that starts with a dash is never the value of
the option before it.

A value that is an argument of its own is only looked at when the next option or switch begins, or
at the end. So an unknown argument is found before a bad value in front of it.
-/

namespace Cadence.CommandLine

/-- What the arguments ask for. -/
structure Arguments where
  /-- The configuration file. -/
  config : Option String := none
  /-- The first tempo. -/
  tempo : Option Float := none
  /-- The meter. -/
  meter : Option Meter := none
  /-- Follow the session. -/
  link : Bool := false
  /-- Beats added to the phase of the session. -/
  phaseOffset : Option Float := none
  /-- Beats between two reconciliations. -/
  resyncInterval : Option Float := none
  /-- Log every beat. -/
  metronome : Bool := false
  /-- Seconds between two reports, zero for none. -/
  statusInterval : Float := 4.0
  /-- Print reports as JSON. -/
  json : Bool := false
  /-- Seconds until the program stops. -/
  duration : Option Float := none

/-- Something that can be given. -/
inductive Parameter where
  /-- The option for the configuration file. -/
  | config
  /-- The option for the tempo. -/
  | tempo
  /-- The option for the meter. -/
  | meter
  /-- The switch for following the session. -/
  | link
  /-- The option for the phase offset. -/
  | phaseOffset
  /-- The option for the reconciliation interval. -/
  | resyncInterval
  /-- The switch for logging every beat. -/
  | metronome
  /-- The option for the report interval. -/
  | statusInterval
  /-- The switch for JSON. -/
  | json
  /-- The option for the running time. -/
  | duration
  /-- The switch that asks for help. -/
  | help
  /-- The switch that asks for the version. -/
  | version
deriving Repr, DecidableEq

namespace Parameter

/-- All parameters. -/
def all : List Parameter :=
  [.config, .tempo, .meter, .link, .phaseOffset, .resyncInterval, .metronome, .statusInterval, .json,
    .duration, .help, .version]

/-- The long name. -/
def name : Parameter → String
  | .config => "config"
  | .tempo => "tempo"
  | .meter => "meter"
  | .link => "link"
  | .phaseOffset => "phase-offset"
  | .resyncInterval => "resync-interval"
  | .metronome => "metronome"
  | .statusInterval => "status-interval"
  | .json => "json"
  | .duration => "duration"
  | .help => "help"
  | .version => "version"

/-- The short name, if there is one. -/
def letter : Parameter → Option Char
  | .config => some 'c'
  | .tempo => some 't'
  | .meter => some 'm'
  | .link => some 'l'
  | .statusInterval => some 's'
  | .duration => some 'd'
  | .help => some 'h'
  | .version => some 'V'
  | .phaseOffset | .resyncInterval | .metronome | .json => none

/-- The parameter takes a value. -/
def takesValue : Parameter → Bool
  | .link | .metronome | .json | .help | .version => false
  | _ => true

/-- The parameter of a long name. -/
def ofName? (name : String) : Option Parameter := all.find? (·.name = name)

/-- The parameter of a short name. -/
def ofLetter? (c : Char) : Option Parameter := all.find? (·.letter = some c)

end Parameter

/-- Why arguments are not carried out. -/
inductive Rejection where
  /-- There is no such option, or no place for an argument. -/
  | unknownArgument
  /-- The value of an option is missing or empty. -/
  | invalidValue
  /-- The value of an option cannot be read. -/
  | valueValidation
  /-- An option is given twice. -/
  | argumentConflict
  /-- A switch is given a value. -/
  | tooManyValues
  /-- The help text is asked for. -/
  | displayHelp
  /-- The version is asked for. -/
  | displayVersion
deriving Repr, DecidableEq

/-- The name of a rejection. -/
def Rejection.name : Rejection → String
  | .unknownArgument => "UnknownArgument"
  | .invalidValue => "InvalidValue"
  | .valueValidation => "ValueValidation"
  | .argumentConflict => "ArgumentConflict"
  | .tooManyValues => "TooManyValues"
  | .displayHelp => "DisplayHelp"
  | .displayVersion => "DisplayVersion"

/-- The code that the program ends with. Help and version are no failures. -/
def Rejection.exitCode : Rejection → Nat
  | .displayHelp | .displayVersion => 0
  | _ => 2

/-- A number, or a rejection. -/
def float (value : String) : Except Rejection Float :=
  match Number.readFloat? value with
  | some x => .ok x
  | none => .error .valueValidation

/-- Takes the value of an option over. Only the name of a file must not be empty by itself. -/
def Arguments.assign (a : Arguments) (p : Parameter) (value : String) :
    Except Rejection Arguments := do
  match p with
  | .config => if value.isEmpty then .error .invalidValue else .ok { a with config := some value }
  | .tempo => pure { a with tempo := some (← float value) }
  | .meter =>
    match Meter.ofText value with
    | .ok meter => .ok { a with meter := some meter }
    | .error _ => .error .valueValidation
  | .phaseOffset => pure { a with phaseOffset := some (← float value) }
  | .resyncInterval => pure { a with resyncInterval := some (← float value) }
  | .statusInterval => pure { a with statusInterval := ← float value }
  | .duration => pure { a with duration := some (← float value) }
  | .link | .metronome | .json | .help | .version => .error .tooManyValues

/-- Turns a switch on. -/
def Arguments.turnOn (a : Arguments) : Parameter → Except Rejection Arguments
  | .link => .ok { a with link := true }
  | .metronome => .ok { a with metronome := true }
  | .json => .ok { a with json := true }
  | .help => .error .displayHelp
  | .version => .error .displayVersion
  | _ => .error .invalidValue

/-- The state between two arguments. -/
structure Reading where
  /-- What was taken over. -/
  arguments : Arguments := {}
  /-- What was given. -/
  given : List Parameter := []
  /-- An option that was begun, with its value once that has come. -/
  pending : Option (Parameter × Option String) := none
  /-- A double dash came: what follows is not taken for an option. -/
  plain : Bool := false

namespace Reading

/-- Notes that a parameter is given, unless it was before. -/
def give (r : Reading) (p : Parameter) : Except Rejection Reading :=
  if p ∈ r.given then .error .argumentConflict else .ok { r with given := r.given ++ [p] }

/-- Takes the value of an option over. -/
def assign (r : Reading) (p : Parameter) (value : String) : Except Rejection Reading := do
  let r ← r.give p
  pure { r with arguments := ← r.arguments.assign p value }

/-- Finishes the option that was begun. -/
def settle (r : Reading) : Except Rejection Reading :=
  match r.pending with
  | none => .ok r
  | some (_, none) => .error .invalidValue
  | some (p, some value) => { r with pending := none }.assign p value

/-- Turns a switch on. -/
def turnOn (r : Reading) (p : Parameter) : Except Rejection Reading := do
  let r ← (← r.settle).give p
  pure { r with arguments := ← r.arguments.turnOn p }

/-- Begins an option, and finishes it if its value stands behind its name. -/
def begin (r : Reading) (p : Parameter) (attached : Option String) : Except Rejection Reading := do
  let r ← r.settle
  match attached with
  | some value => r.assign p value
  | none => pure { r with pending := some (p, none) }

/-- The value behind a short name. A sign of equality in front of it does not count. -/
def attachedValue : List Char → Option String
  | [] => none
  | '=' :: value => some (String.ofList value)
  | value => some (String.ofList value)

/-- Reads short names that stand together. -/
def letters (r : Reading) : List Char → Except Rejection Reading
  | [] => .ok r
  | c :: rest =>
    match Parameter.ofLetter? c with
    | none => .error .unknownArgument
    | some p =>
      if p.takesValue then r.begin p (attachedValue rest)
      else do Reading.letters (← r.turnOn p) rest

/-- Reads a long name, with its value if there is one behind it. -/
def long (r : Reading) (cs : List Char) : Except Rejection Reading :=
  let name := String.ofList (cs.takeWhile (· ≠ '='))
  let attached := match cs.dropWhile (· ≠ '=') with
    | [] => none
    | _ :: value => some (String.ofList value)
  match Parameter.ofName? name, attached with
  | none, _ => .error .unknownArgument
  | some p, attached =>
    if p.takesValue then r.begin p attached
    else if attached.isSome then .error .tooManyValues
    else r.turnOn p

/-- Reads an argument that is no name: the value of the option that was begun. -/
def value (r : Reading) (text : String) : Except Rejection Reading :=
  match r.pending with
  | some (p, none) => .ok { r with pending := some (p, some text) }
  | _ => .error .unknownArgument

/-- Reads one argument. -/
def step (r : Reading) (text : String) : Except Rejection Reading :=
  if r.plain then .error .unknownArgument
  else match text.toList with
    | ['-', '-'] => .ok { r with plain := true }
    | '-' :: '-' :: rest => r.long rest
    | '-' :: c :: rest => r.letters (c :: rest)
    | _ => r.value text

end Reading

/-- Reads the arguments after the name of the program. -/
def Arguments.parse (arguments : List String) : Except Rejection Arguments := do
  let reading ← arguments.foldlM Reading.step {}
  pure (← reading.settle).arguments

end Cadence.CommandLine
