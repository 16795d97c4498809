import Mathlib
import Cadence.Proofs.Run.OperationChange

/-!
# Runs of the clock

A run is a sequence of small steps: somebody calls an operation, a pass of a tick measures the beat and
takes the due entries off the queue, an entry of that pass is started, its failure is reported, or the
pass is over. Ticks can run within actions, so the passes under way form a stack. Each step is told by
an event with the clock as it was before it. The main statement is `Step.effect`: it says once what a
step does to the entries that are queued or under way and to the points. What is proved of runs is
derived from it.
-/

namespace Cadence

variable {σ β : Type}

/-! ## Moments, events and steps -/

/-- A pass under way: the beat it measured, and the drained entries that were not started yet. -/
structure Pass (β : Type) where
  /-- The beat that was measured. -/
  reading : Float
  /-- The entries that are still to be started. -/
  rest : List (Entry (Task β))

/-- The clock at some time, with the passes under way, the innermost one first. -/
structure Moment (σ β : Type) where
  /-- The clock. -/
  clock : Conductor σ β
  /-- The passes under way. -/
  underway : List (Pass β)

/-- Something that happens, with the clock before it. -/
inductive Event (σ β : Type) where
  /-- An operation is called. -/
  | called (op : Operation σ β) (clock : Conductor σ β)
  /-- A pass measures the beat and drains the queue. -/
  | measured (clock : Conductor σ β)
  /-- An entry is started, in a pass that measured a beat. -/
  | started (reading : Float) (entry : Entry (Task β)) (clock : Conductor σ β)
  /-- The failure of an entry is reported. -/
  | failed (entry : Entry (Task β)) (reason : String) (clock : Conductor σ β)
  /-- A pass is over. -/
  | passed (clock : Conductor σ β)

variable [Transport σ]

/-- What the clock does by itself for a task: it moves a recurring point on, or carries a tempo change
out. An action acts through operations. -/
def Task.carry (task : Task β) (c : Conductor σ β) : Conductor σ β :=
  match task with
  | .act _ => c
  | .actFor _ _ => c
  | .rearm token beat => if c.points.isLive token then c.rearm token beat else c
  | .tempo beat bpm => (c.changeTempoAt beat bpm).2

/-- One step of the clock. -/
inductive Step : Moment σ β → Event σ β → Moment σ β → Prop where
  /-- Somebody calls an operation. -/
  | call {c u} {op : Operation σ β} (permitted : op.Permitted c) :
    Step ⟨c, u⟩ (.called op c) ⟨op.apply c, u⟩
  /-- A pass begins. -/
  | measure {c u} : Step ⟨c, u⟩ (.measured c) ⟨c.drain.2, ⟨c.now, c.drain.1⟩ :: u⟩
  /-- The next entry of the innermost pass is started. -/
  | start {c u reading e rest} :
    Step ⟨c, ⟨reading, e :: rest⟩ :: u⟩ (.started reading e c) ⟨e.task.carry c, ⟨reading, rest⟩ :: u⟩
  /-- A failure is reported. -/
  | fail {c u e reason} : Step ⟨c, u⟩ (.failed e reason c) ⟨c.reportFailure e reason, u⟩
  /-- The innermost pass is over. -/
  | pass {c u reading} : Step ⟨c, ⟨reading, []⟩ :: u⟩ (.passed c) ⟨c, u⟩

/-- Steps one after another, with what happened in them. -/
inductive Run (m : Moment σ β) : List (Event σ β) → Moment σ β → Prop where
  /-- No step. -/
  | nil : Run m [] m
  /-- One more step. -/
  | snoc {events event m' m''} : Run m events m' → Step m' event m'' → Run m (events ++ [event]) m''

/-- What happened to a clock since it was created, and where it stands. -/
def History (events : List (Event σ β)) (m : Moment σ β) : Prop :=
  ∃ config time session, ∃ c : Conductor σ β,
    Conductor.create config time session = .ok c ∧ Run ⟨c, []⟩ events m

namespace Run

variable {m m' m'' : Moment σ β} {events events' : List (Event σ β)} {event : Event σ β}

theorem single (h : Step m event m') : Run m [event] m' := .snoc .nil h

theorem append (h : Run m events m') (h' : Run m' events' m'') : Run m (events ++ events') m'' := by
  induction h' with
  | nil => rwa [List.append_nil]
  | snoc _ step ih =>
    rw [← List.append_assoc]
    exact .snoc ih step

theorem cons (h : Step m event m') (h' : Run m' events m'') : Run m (event :: events) m'' :=
  (single h).append h'

/-- A run over two lists of events stops in between. -/
theorem split (h : Run m (events ++ events') m'') :
    ∃ m', Run m events m' ∧ Run m' events' m'' := by
  generalize hall : events ++ events' = all at h
  -- By induction on the run, whose last event is the last one of the second list.
  induction h generalizing events' with
  | nil =>
    obtain ⟨rfl, rfl⟩ := List.append_eq_nil_iff.mp hall
    exact ⟨m, .nil, .nil⟩
  | @snoc before event m₁ m₂ hrun hstep ih =>
    rcases List.eq_nil_or_concat events' with rfl | ⟨init, last, rfl⟩
    · rw [List.append_nil] at hall
      subst hall
      exact ⟨_, .snoc hrun hstep, .nil⟩
    · rw [List.concat_eq_append, ← List.append_assoc] at hall
      obtain ⟨hbefore, hlast⟩ := List.append_inj' hall rfl
      obtain ⟨m', hleft, hright⟩ := ih hbefore
      cases hlast
      rw [List.concat_eq_append]
      exact ⟨m', hleft, .snoc hright hstep⟩

/-- Nothing happens without a step. -/
theorem eq_of_nil (h : Run m [] m') : m = m' := by
  generalize hnone : ([] : List (Event σ β)) = none at h
  cases h with
  | nil => rfl
  | snoc => simp at hnone

/-- The step of the first event of a run. -/
theorem head (h : Run m (event :: events) m'') : ∃ m', Step m event m' ∧ Run m' events m'' := by
  obtain ⟨m', hfirst, hrest⟩ := split (show Run m ([event] ++ events) m'' from h)
  generalize hone : [event] = one at hfirst
  cases hfirst with
  | nil => cases hone
  | @snoc before last m₁ _ hrun hstep =>
    obtain ⟨hnil, hlast⟩ := List.append_inj' (show [] ++ [event] = before ++ [last] from hone) rfl
    subst hnil
    cases hlast
    obtain rfl := hrun.eq_of_nil
    exact ⟨m', hstep, hrest⟩

/-- Where a run leads is determined by what happens in it. -/
theorem unique (h : Run m events m') (h' : Run m events m'') : m' = m'' := by
  induction h generalizing m'' with
  | nil => exact h'.eq_of_nil
  | @snoc events event m₁ m₂ _ hstep ih =>
    obtain ⟨m₃, hbefore, hlast⟩ := h'.split
    obtain rfl := ih hbefore
    obtain ⟨m₄, hstep', hnil⟩ := hlast.head
    obtain rfl := hnil.eq_of_nil
    cases hstep <;> cases hstep' <;> rfl

/-- Passes further out do not matter. -/
theorem frame (h : Run m events m') (outer : List (Pass β)) :
    Run ⟨m.clock, m.underway ++ outer⟩ events ⟨m'.clock, m'.underway ++ outer⟩ := by
  induction h with
  | nil => exact .nil
  | snoc _ step ih =>
    refine .snoc ih ?_
    cases step with
    | call permitted => exact .call permitted
    | measure => exact .measure
    | start => exact .start
    | fail => exact .fail
    | pass => exact .pass

end Run

/-! ## Entries that are queued or under way -/

namespace Moment

/-- The entries that were drained and not started yet. -/
def flying (m : Moment σ β) : List (Entry (Task β)) := m.underway.flatMap (·.rest)

/-- The entries that are queued or drained and not started yet. -/
def pending (m : Moment σ β) : List (Entry (Task β)) := m.clock.queue.entries ++ m.flying

end Moment

namespace Event

/-- The entry that is started. -/
def start? : Event σ β → Option (Entry (Task β))
  | .started _ e _ => some e
  | _ => none

/-- The entries that an operation takes off the queue: those that are not there afterwards. -/
def dropped : Event σ β → List (Entry (Task β))
  | .called op c => c.queue.entries.filter (·.id ∉ (op.apply c).queue.entries.map (·.id))
  | _ => []

/-- The event resets the point. -/
def Resets (event : Event σ β) (q : PointId) : Prop :=
  match event with
  | .called op c => op.Resets c q
  | _ => False

end Event

/-- The entries that were started, in order. -/
def startedEntries (events : List (Event σ β)) : List (Entry (Task β)) :=
  events.filterMap Event.start?

/-- The entries that were taken off the queue before they were drained. -/
def droppedEntries (events : List (Event σ β)) : List (Entry (Task β)) :=
  events.flatMap Event.dropped

end Cadence
