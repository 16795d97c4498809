import Cadence.Meter

/-!
# Notices and their audience

What the clock broadcasts, and the listeners it is broadcast to. Each listener has a mailbox of
its own; a mailbox that its owner closed is forgotten the next time something is sent.
-/

namespace Cadence

/-- Something that happened on the clock. -/
inductive Notice where
  /-- The tempo changed, effective from a beat. -/
  | tempoChanged (bpm atBeat : Float)
  /-- The meter changed. -/
  | meterChanged (meter : Meter)
  /-- The timeline was moved to a beat. -/
  | timeSet (beat : Float)
  /-- The clock started to follow a session. -/
  | syncEnabled (peers : UInt64)
  /-- The clock stopped following the session. -/
  | syncDisabled
  /-- A scheduled action failed. -/
  | actionFailed (label : String) (beat : Float) (reason : String)
  /-- Every queued entry and every point was cleared. -/
  | cleared
deriving Repr, DecidableEq

/-- The listeners of a clock. -/
structure Audience where
  /-- The mailboxes ever handed out, absent once their owner closed them. -/
  mailboxes : List (Option (List Notice))
  /-- The listeners that notices are still sent to, in the order they subscribed. -/
  subscribers : List Nat
deriving Repr, DecidableEq

namespace Audience

/-- Nobody listens. -/
def empty : Audience := ⟨[], []⟩

instance : Inhabited Audience := ⟨empty⟩

/-- The mailbox of a listener, if it was handed out and is open. -/
def mailbox? (a : Audience) (listener : Nat) : Option (List Notice) :=
  a.mailboxes[listener]?.join

/-- Hands out a mailbox and answers its number. -/
def subscribe (a : Audience) : Nat × Audience :=
  (a.mailboxes.length,
    ⟨a.mailboxes ++ [some []], a.subscribers ++ [a.mailboxes.length]⟩)

/-- Closes a mailbox, with what it still holds. -/
def close (a : Audience) (listener : Nat) : Audience :=
  { a with mailboxes := a.mailboxes.set listener none }

/-- Puts a notice into the open mailbox of every subscriber and forgets the subscribers whose
mailbox is closed. -/
def send (a : Audience) (notice : Notice) : Audience :=
  { mailboxes := a.mailboxes.mapIdx fun listener box =>
      if listener ∈ a.subscribers then box.map (· ++ [notice]) else box
    subscribers := a.subscribers.filter fun listener => (a.mailbox? listener).isSome }

/-- Takes out what a mailbox holds, absent if it is closed. -/
def drain (a : Audience) (listener : Nat) : Option (List Notice) × Audience :=
  match a.mailbox? listener with
  | some notices => (some notices, { a with mailboxes := a.mailboxes.set listener (some []) })
  | none => (none, a)

/-- The number of subscribers, those included that closed their mailbox since the last notice. -/
def count (a : Audience) : Nat := a.subscribers.length

end Audience

end Cadence
