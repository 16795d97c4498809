import Mathlib
import Cadence.Proofs.Run.Tick

/-!
# Programs of operations

The simplest programs around a clock: lists of operations that are called one after another, from
outside or from within the bodies of actions. `LawfulPerformer.ofOperations` turns such bodies into a
performer. `Conductor.offline` is a clock of the default configuration to run programs on.
-/

namespace Cadence

variable {σ β : Type} [Transport σ]

/-- The clock after several operations. -/
def Conductor.applyAll (c : Conductor σ β) (ops : List (Operation σ β)) : Conductor σ β :=
  ops.foldl (fun c op => op.apply c) c

/-- What happens when several operations are called. -/
def callEvents : Conductor σ β → List (Operation σ β) → List (Event σ β)
  | _, [] => []
  | c, op :: rest => .called op c :: callEvents (op.apply c) rest

/-- Only the listed operations are called. -/
theorem mem_of_called {ops : List (Operation σ β)} {c c' : Conductor σ β} {op : Operation σ β}
    (h : Event.called op c' ∈ callEvents c ops) : op ∈ ops := by
  induction ops generalizing c with
  | nil => cases h
  | cons first rest ih =>
    rcases List.mem_cons.mp h with heq | h
    · cases heq
      exact .head _
    · exact .tail _ (ih h)

/-- The points that an operation refers to as operands. -/
def Operation.operands : Operation σ β → List PointId
  | .derivePoint d => d.points
  | _ => []

omit [Transport σ] in
theorem Operation.permitted_iff (op : Operation σ β) (c : Conductor σ β) :
    op.Permitted c ↔ ∀ id ∈ op.operands, id.index < c.points.size := by
  cases op <;> simp [Permitted, operands]

instance (op : Operation σ β) (c : Conductor σ β) : Decidable (op.Permitted c) :=
  decidable_of_iff' _ (op.permitted_iff c)

/-- Each of several operations is permitted when it is called. -/
def PermittedAll : Conductor σ β → List (Operation σ β) → Prop
  | _, [] => True
  | c, op :: rest => op.Permitted c ∧ PermittedAll (op.apply c) rest

instance decidablePermittedAll : (c : Conductor σ β) → (ops : List (Operation σ β)) →
    Decidable (PermittedAll c ops)
  | _, [] => isTrue trivial
  | c, op :: rest =>
    have := decidablePermittedAll (op.apply c) rest
    inferInstanceAs (Decidable (op.Permitted c ∧ PermittedAll (op.apply c) rest))

/-- Calling several operations is a run. -/
theorem run_calls {ops : List (Operation σ β)} {c : Conductor σ β} {u : List (Pass β)}
    (h : PermittedAll c ops) : Run ⟨c, u⟩ (callEvents c ops) ⟨c.applyAll ops, u⟩ := by
  induction ops generalizing c with
  | nil => exact .nil
  | cons op rest ih => exact .cons (.call h.1) (ih h.2)

theorem permittedAll_of_forall {ops : List (Operation σ β)} (c : Conductor σ β)
    (h : ∀ op ∈ ops, ∀ c, op.Permitted c) : PermittedAll c ops := by
  induction ops generalizing c with
  | nil => trivial
  | cons op rest ih => exact ⟨h op (.head _) c, ih _ fun op hop => h op (.tail _ hop)⟩

theorem run_applyAll {ops : List (Operation σ β)} {c : Conductor σ β} {u : List (Pass β)}
    (h : ∀ op ∈ ops, ∀ c, op.Permitted c) : Run ⟨c, u⟩ (callEvents c ops) ⟨c.applyAll ops, u⟩ :=
  run_calls (permittedAll_of_forall c h)

/-- Bodies that call operations one after another and then answer. -/
def LawfulPerformer.ofOperations (program : β → List (Operation σ β))
    (answer : β → Except String Unit)
    (h : ∀ body, ∀ op ∈ program body, ∀ c, op.Permitted c) : LawfulPerformer σ β Unit where
  perform body s := (answer body, (s.1.applyAll (program body), ()))
  handles _ := []
  trace body s := callEvents s.1 (program body)
  run _ := run_applyAll (h _)
  held _ := by simp

/-- Bodies that do nothing. -/
def LawfulPerformer.still : LawfulPerformer σ β Unit :=
  ofOperations (fun _ => []) (fun _ => .ok ()) (by simp)

/-- The passes of a tick in which bodies do nothing are a run. -/
theorem run_dueEvents {c : Conductor σ β} {u : List (Pass β)} (hs : Sound ⟨c, u⟩) :
    Run ⟨c, u⟩ (LawfulPerformer.still.dueEvents (c, ()))
      ⟨(Conductor.runDue LawfulPerformer.still.perform (c, ())).2.1, u⟩ :=
  (LawfulPerformer.run_due (L := LawfulPerformer.still) (s := (c, ())) hs fun _ hid => by cases hid).1

/-- They continue a run. -/
theorem Run.append_dueEvents {m : Moment σ β} {events : List (Event σ β)} {c : Conductor σ β}
    {u : List (Pass β)} (h : Run m events ⟨c, u⟩) (hs : Sound m) :
    Run m (events ++ LawfulPerformer.still.dueEvents (c, ()))
      ⟨(Conductor.runDue LawfulPerformer.still.perform (c, ())).2.1, u⟩ :=
  h.append (run_dueEvents (h.sound hs))

namespace Conductor

/-- A clock of the default configuration, which has no session to follow. -/
def offline : Conductor Offline Unit :=
  (create {} ⟨0⟩ Offline.mk).toOption.get (by decide +kernel)

/-- An answer that is not a fault is the value that it holds. -/
theorem eq_ok_get {α : Type} (answer : Except Fault α) (h : answer.toOption.isSome = true) :
    answer = .ok (answer.toOption.get h) := by
  cases answer with
  | error fault => cases h
  | ok value => rfl

theorem create_offline : create {} ⟨0⟩ Offline.mk = .ok (offline : Conductor Offline Unit) :=
  eq_ok_get _ _

/-- Calling operations on it leads to a clock with a history. -/
theorem history_offline_calls {ops : List (Operation Offline Unit)}
    (h : PermittedAll offline ops) :
    History (callEvents offline ops) ⟨offline.applyAll ops, []⟩ :=
  (History.create create_offline).append (run_calls h)

theorem history_offline {ops : List (Operation Offline Unit)}
    (h : ∀ op ∈ ops, ∀ c, op.Permitted c) :
    History (callEvents offline ops) ⟨offline.applyAll ops, []⟩ :=
  history_offline_calls (permittedAll_of_forall offline h)

end Conductor

end Cadence
