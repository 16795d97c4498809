import Mathlib
import Cadence.Proofs.Session.Exchange

/-!
# Transports with a record

What a clock asks of its session is not part of what it answers. A recorded transport writes down every
call that is made on it, with its answer, and is otherwise the transport that it was made from. So what is
proved of clocks with recorded transports says which calls are made, for any session.

- `Recorded.hom_session`: the record changes nothing that a call answers or leaves;
- `Operation.apply_recorded`: hence nothing that an operation answers or leaves;
- `Run.recorded`: and every run of a clock is one of a clock with a record, if the record is left out.
-/

namespace Cadence

variable {σ τ β : Type}

/-- A call on a transport, with its answer. -/
inductive SessionCall where
  /-- The session was to be joined. -/
  | connect (tempo quantum : Float) (answer : Except Refusal Unit)
  /-- The session was left. -/
  | disconnect
  /-- The session was read. -/
  | capture (quantum : Float) (answer : Except Refusal Snapshot)
  /-- A tempo was proposed. -/
  | propose (tempo : Float) (answer : Except Refusal Unit)

namespace SessionCall

/-- Whether the session is joined after the call, if the call joins or leaves it. -/
def membership? : SessionCall → Option Bool
  | .connect _ _ (.ok ()) => some true
  | .disconnect => some false
  | _ => none

/-- The tempo that is proposed. -/
def proposed? : SessionCall → Option Float
  | .propose tempo _ => some tempo
  | _ => none

end SessionCall

/-- A transport with the calls that were made on it. -/
structure Recorded (σ : Type) where
  /-- The transport. -/
  session : σ
  /-- The calls, in order. -/
  calls : List SessionCall

namespace Recorded

/-- A transport on which no call was made. -/
def fresh (session : σ) : Recorded σ := ⟨session, []⟩

variable [Transport σ]

instance : Transport (Recorded σ) where
  name r := Transport.name r.session
  connect r tempo quantum :=
    let (answer, session) := Transport.connect r.session tempo quantum
    (answer, ⟨session, r.calls ++ [.connect tempo quantum answer]⟩)
  disconnect r := ⟨Transport.disconnect r.session, r.calls ++ [.disconnect]⟩
  capture r quantum :=
    let (answer, session) := Transport.capture r.session quantum
    (answer, ⟨session, r.calls ++ [.capture quantum answer]⟩)
  propose r tempo :=
    let (answer, session) := Transport.propose r.session tempo
    (answer, ⟨session, r.calls ++ [.propose tempo answer]⟩)

theorem calls_connect (r : Recorded σ) (tempo quantum : Float) :
    (Transport.connect r tempo quantum).2.calls =
      r.calls ++ [.connect tempo quantum (Transport.connect r tempo quantum).1] := rfl

theorem calls_capture (r : Recorded σ) (quantum : Float) :
    (Transport.capture r quantum).2.calls =
      r.calls ++ [.capture quantum (Transport.capture r quantum).1] := rfl

theorem calls_propose (r : Recorded σ) (tempo : Float) :
    (Transport.propose r tempo).2.calls = r.calls ++ [.propose tempo (Transport.propose r tempo).1] :=
  rfl

/-- Calls are answered as by the transport itself. -/
theorem hom_session : Transport.Hom (session : Recorded σ → σ) where
  name _ := rfl
  connect _ _ _ := rfl
  disconnect _ := rfl
  capture _ _ := rfl
  propose _ _ := rfl

end Recorded

/-- On a recorded transport an operation answers the same, and leaves the same clock but for the
record. -/
theorem Operation.apply_recorded [Transport σ] (op : Operation (Recorded σ) β)
    (c : Conductor (Recorded σ) β) :
    (op.mapSession Recorded.session).apply (c.mapSession Recorded.session) =
        (op.apply c).mapSession Recorded.session ∧
      (op.mapSession Recorded.session).answer (c.mapSession Recorded.session) = op.answer c :=
  apply_mapSession (.inl Recorded.hom_session)

/-! ## Runs with a record -/

/-- The event on a clock with another session. -/
def Event.mapSession (φ : σ → τ) : Event σ β → Event τ β
  | .called op c => .called (op.mapSession φ) (c.mapSession φ)
  | .measured c => .measured (c.mapSession φ)
  | .started reading e c => .started reading e (c.mapSession φ)
  | .failed e reason c => .failed e reason (c.mapSession φ)
  | .passed c => .passed (c.mapSession φ)

/-- The moment on a clock with another session. -/
def Moment.mapSession (φ : σ → τ) (m : Moment σ β) : Moment τ β := ⟨m.clock.mapSession φ, m.underway⟩

/-- Changes around the clock leave it to the clock to write down what it asks of the session. -/
def Event.KeepsRecord : Event (Recorded σ) β → Prop
  | .called (.outside session _ _) c => session.calls = c.follower.session.calls
  | _ => True

namespace Operation

theorem mapSession_mapSession {υ : Type} (φ : σ → τ) (ψ : τ → υ) (op : Operation σ β) :
    (op.mapSession φ).mapSession ψ = op.mapSession (ψ ∘ φ) := by
  cases op <;> rfl

theorem mapSession_id (op : Operation σ β) : op.mapSession id = op := by
  cases op <;> rfl

theorem permitted_mapSession (φ : σ → τ) {op : Operation σ β} {c : Conductor σ β}
    (h : (op.mapSession φ).Permitted (c.mapSession φ)) : op.Permitted c := by
  cases op <;> exact h

end Operation

variable [Transport σ]

/-- A step of a clock is a step with a record. -/
theorem Step.recorded {n : Moment (Recorded σ) β} {event : Event σ β} {m : Moment σ β}
    (h : Step (n.mapSession Recorded.session) event m) :
    ∃ (event' : Event (Recorded σ) β) (n' : Moment (Recorded σ) β), Step n event' n' ∧
      event'.KeepsRecord ∧ event'.mapSession Recorded.session = event ∧
      n'.mapSession Recorded.session = m := by
  obtain ⟨c, u⟩ := n
  cases h with
  | @call _ _ op permitted =>
    -- A session that is put in its place from outside comes with the record so far.
    let op' : Operation (Recorded σ) β := op.mapSession fun session => ⟨session, c.follower.session.calls⟩
    have hop : op'.mapSession Recorded.session = op :=
      (op.mapSession_mapSession _ _).trans op.mapSession_id
    rw [← hop] at permitted
    refine ⟨.called op' c, ⟨op'.apply c, u⟩, .call (Operation.permitted_mapSession _ permitted), ?_,
      congrArg (Event.called · _) hop, ?_⟩
    · cases op with
      | outside => exact rfl
      | _ => trivial
    · rw [← hop]
      exact congrArg (Moment.mk · u) (op'.apply_recorded c).1.symm
  | measure => exact ⟨.measured c, _, .measure, trivial, rfl, rfl⟩
  | @start _ _ reading e rest =>
    refine ⟨.started reading e c, _, .start, trivial, rfl, ?_⟩
    exact congrArg (Moment.mk · _) (e.task.carry_mapSession (.inl Recorded.hom_session)).symm
  | fail => exact ⟨.failed _ _ c, _, .fail, trivial, rfl, rfl⟩
  | pass => exact ⟨.passed c, _, .pass, trivial, rfl, rfl⟩

/-- A run of a clock is a run with a record. -/
theorem Run.recorded {n : Moment (Recorded σ) β} {events : List (Event σ β)} {m : Moment σ β}
    (h : Run (n.mapSession Recorded.session) events m) :
    ∃ (events' : List (Event (Recorded σ) β)) (n' : Moment (Recorded σ) β), Run n events' n' ∧
      (∀ event ∈ events', event.KeepsRecord) ∧
      events'.map (Event.mapSession Recorded.session) = events ∧
      n'.mapSession Recorded.session = m := by
  induction h with
  | nil => exact ⟨[], n, .nil, List.forall_mem_nil _, rfl, rfl⟩
  | snoc _ hstep ih =>
    obtain ⟨before, n₁, hrun, hkeeps, rfl, rfl⟩ := ih
    obtain ⟨event', n₂, hstep', hkeeps', rfl, rfl⟩ := hstep.recorded
    refine ⟨before ++ [event'], n₂, .snoc hrun hstep', ?_, by simp, rfl⟩
    exact List.forall_mem_append.mpr ⟨hkeeps, List.forall_mem_singleton.mpr hkeeps'⟩

end Cadence
