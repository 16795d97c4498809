import Cadence.Fault

/-!
# Tempo sessions

The remote side that a clock can follow. A transport only moves data: deciding how the local
clock follows is not its task. Besides the transport of builds that have none, there is a partner
for rehearsals, whose state the rehearsal steers.
-/

namespace Cadence

/-- Why a session refused, from the outermost context to the cause. -/
structure Refusal where
  /-- The contexts and the cause. -/
  chain : List String
deriving Repr, DecidableEq

/-- The whole chain on one line. -/
def Refusal.text (r : Refusal) : String := ": ".intercalate r.chain

/-- The state of a session at one instant. -/
structure Snapshot where
  /-- The tempo of the session. -/
  tempo : Float
  /-- The beat of the session. -/
  beat : Float
  /-- The position within the quantum. -/
  phase : Float
  /-- How many others take part. -/
  peers : UInt64
deriving Repr, DecidableEq

/-- A way to reach a session. Every call may change the state of the transport. -/
class Transport (σ : Type) where
  /-- What the transport is called in messages. -/
  name : σ → String
  /-- Joins the session, offering a tempo. -/
  connect : σ → (tempo quantum : Float) → Except Refusal Unit × σ
  /-- Leaves the session. -/
  disconnect : σ → σ
  /-- Reads the state of the session. -/
  capture : σ → (quantum : Float) → Except Refusal Snapshot × σ
  /-- Asks the session to move to a tempo. -/
  propose : σ → (tempo : Float) → Except Refusal Unit × σ

/-- The transport of a build that has none. It never connects. -/
structure Offline where
deriving Repr, DecidableEq

instance : Transport Offline where
  name _ := "offline"
  connect s _ _ := (.error ⟨["no tempo-sync transport is available in this build"]⟩, s)
  disconnect s := s
  capture s _ := (.error ⟨["not connected"]⟩, s)
  propose s _ := (.error ⟨["not connected"]⟩, s)

/-- A partner for rehearsals. -/
structure Partner where
  /-- The tempo it plays at. -/
  tempo : Float := 60.0
  /-- The beat it has reached. -/
  beat : Float := 0.0
  /-- The phase it reports; worked out from the beat if absent. -/
  phase : Option Float := none
  /-- How many peers it reports. -/
  peers : UInt64 := 1
  /-- Whether it lets the clock join. -/
  connectable : Bool := true
  /-- Whether its state can be read. -/
  reachable : Bool := true
  /-- Whether it takes a proposed tempo. -/
  accepts : Bool := true
  /-- The tempo and quantum that the clock joined with, while it is joined. -/
  joined : Option (Float × Float) := none
  /-- Every tempo that was proposed and taken. -/
  proposed : List Float := []
deriving Repr, DecidableEq

/-- What the partner reports. -/
def Partner.snapshot (s : Partner) (quantum : Float) : Snapshot where
  tempo := s.tempo
  beat := s.beat
  phase := s.phase.getD (Number.cycleRemainder s.beat quantum)
  peers := s.peers

instance : Transport Partner where
  name _ := "fake"
  connect s tempo quantum :=
    if s.connectable then (.ok (), { s with joined := some (tempo, quantum) })
    else (.error ⟨["cannot join", "network down"]⟩, s)
  disconnect s := { s with joined := none }
  capture s quantum :=
    if s.reachable then (.ok (s.snapshot quantum), s)
    else (.error ⟨["session timed out"]⟩, s)
  propose s tempo :=
    if s.accepts then (.ok (), { s with tempo, proposed := s.proposed ++ [tempo] })
    else (.error ⟨["tempo refused", "read only"]⟩, s)

/-- What to change about a partner. Whatever is absent stays as it is. -/
structure Steering where
  /-- The tempo. -/
  tempo : Option Float := none
  /-- The beat. -/
  beat : Option Float := none
  /-- The phase, or that it is worked out from the beat. -/
  phase : Option (Option Float) := none
  /-- How many peers are reported. -/
  peers : Option UInt64 := none
  /-- Whether the clock can join. -/
  connectable : Option Bool := none
  /-- Whether the state can be read. -/
  reachable : Option Bool := none
  /-- Whether a proposed tempo is taken. -/
  accepts : Option Bool := none
deriving Repr, DecidableEq

/-- Changes a partner. -/
def Partner.steer (p : Partner) (s : Steering) : Partner :=
  { p with
    tempo := s.tempo.getD p.tempo
    beat := s.beat.getD p.beat
    phase := s.phase.getD p.phase
    peers := s.peers.getD p.peers
    connectable := s.connectable.getD p.connectable
    reachable := s.reachable.getD p.reachable
    accepts := s.accepts.getD p.accepts }

/-- A transport for rehearsals: to the partner, or to nobody while the partner is steered all the
same. -/
structure Rehearsal where
  /-- The partner. -/
  partner : Partner := {}
  /-- Whether the transport reaches the partner. -/
  wired : Bool := true
deriving Repr, DecidableEq

/-- Changes the partner. -/
def Rehearsal.steer (r : Rehearsal) (s : Steering) : Rehearsal :=
  { r with partner := r.partner.steer s }

/-- Runs a call on the partner if it is reached, and on the missing transport otherwise. -/
def Rehearsal.call {α : Type} (s : Rehearsal) (onPartner : Partner → α × Partner)
    (onNobody : Offline → α × Offline) : α × Rehearsal :=
  if s.wired then
    let (answer, partner) := onPartner s.partner
    (answer, { s with partner })
  else ((onNobody {}).1, s)

instance : Transport Rehearsal where
  name s := if s.wired then Transport.name s.partner else Transport.name Offline.mk
  connect s tempo quantum :=
    s.call (Transport.connect · tempo quantum) (Transport.connect · tempo quantum)
  disconnect s := if s.wired then { s with partner := Transport.disconnect s.partner } else s
  capture s quantum := s.call (Transport.capture · quantum) (Transport.capture · quantum)
  propose s tempo := s.call (Transport.propose · tempo) (Transport.propose · tempo)

end Cadence
