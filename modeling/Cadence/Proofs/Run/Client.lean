import Mathlib
import Cadence.Proofs.Session.Exchange

/-!
# Clients

A client is a program around a clock that knows nothing of the session: it calls operations, ticks, and
looks at everything else there is to the clock, and what it does next may depend on all that it is
answered. The bodies of actions are clients as well, so one and the same program can be run with any
transport. A run writes down what is called and ticked, with the answers, also from within actions. The
clients share this journal: they may read it, and leave notes of their own for each other.

- `Client.run`: the run of a client, given what bodies of actions do;
- `Client.performer`: what bodies of actions do, if they are clients;
- `Client.play`: the run of a client on a new clock.
-/

namespace Cadence

variable {σ β ν : Type}

/-- Something that a program did, with the answer. -/
inductive Observation (β ν : Type) : Type where
  /-- An operation was called. -/
  | called (op : Operation Offline β) (answer : Answer)
  /-- The clock was ticked. -/
  | ticked (report : Option TickReport)
  /-- A note was left. -/
  | noted (text : ν)

/-- A program around a clock. -/
inductive Client (β ν : Type) : Type where
  /-- The program is over, and may have failed. -/
  | done (outcome : Except String Unit)
  /-- The program looks at the clock and the journal, but not at the session. -/
  | look (next : Conductor Offline β → List (Observation β ν) → Client β ν)
  /-- The program leaves a note. -/
  | note (text : ν) (next : Client β ν)
  /-- The program calls an operation. -/
  | call (op : Operation Offline β) (next : Answer → Client β ν)
  /-- The program ticks the clock. -/
  | tick (next : Option TickReport → Client β ν)

namespace Operation

variable [Transport σ]

/-- Calls an operation of a program. A change around the clock leaves the session as it is. -/
def callBy (op : Operation Offline β) (s : Conductor σ β × List (Observation β ν)) :
    Answer × (Conductor σ β × List (Observation β ν)) :=
  let called : Operation σ β := op.mapSession fun _ => s.1.follower.session
  (called.answer s.1, called.apply s.1, s.2 ++ [.called op (called.answer s.1)])

end Operation

namespace Client

variable [Transport σ]

/-- Runs a program. -/
def run (perform : Performer σ β (List (Observation β ν))) :
    Client β ν → Conductor σ β × List (Observation β ν) →
      Except String Unit × (Conductor σ β × List (Observation β ν))
  | .done outcome, s => (outcome, s)
  | .look next, s => run perform (next (s.1.mapSession fun _ => {}) s.2) s
  | .note text next, s => run perform next (s.1, s.2 ++ [.noted text])
  | .call op next, s => run perform (next (op.callBy s).1) (op.callBy s).2
  | .tick next, s =>
    let ticked := Conductor.tick perform s
    run perform (next ticked.1) (ticked.2.1, ticked.2.2 ++ [.ticked ticked.1])

/-- The bodies of actions, as programs. Ticks can run within actions, whose actions tick in turn. They are
carried out to some depth, below which bodies do nothing. -/
def performer (bodies : β → Client β ν) : ℕ → Performer σ β (List (Observation β ν))
  | 0 => fun _ s => (.ok (), s)
  | depth + 1 => fun body s => run (performer bodies depth) (bodies body) s

/-- Runs a program on a new clock, with an empty journal. -/
def play (client : Client β ν) (bodies : β → Client β ν) (depth : ℕ) (config : Config) (time : WallTime)
    (session : σ) : Except Fault (Except String Unit × (Conductor σ β × List (Observation β ν))) :=
  (Conductor.create config time session).map fun c => client.run (performer bodies depth) (c, [])

end Client

end Cadence
