import Mathlib
import Cadence.Proofs.Point.Resolution
import Cadence.Proofs.Queue
import Cadence.Proofs.Run.Operation

/-!
# What an operation changes

An operation drops some entries of the queue, resets some points and then requests some entries. This
file says what such a change is, and what scheduling has to do with it:

- `Change`: the queue and the points come about in this way, and an entry that is requested for a point
  carries a live token of it;
- `Conductor.queueChange_submit` and `Conductor.submitBatch_spec`: submitting a task, or several,
  requests those at finite beats.
-/

namespace Cadence

variable {σ β γ : Type}

/-- The token that a task depends on. -/
def Task.token? : Task β → Option Token
  | .act _ => none
  | .actFor token _ => some token
  | .rearm token _ => some token
  | .tempo _ _ => none

/-! ## Requests -/

/-- An entry that is to be queued. -/
structure Request (β : Type) where
  /-- The beat. -/
  beat : Float
  /-- It leads the entries of its beat. -/
  priority : Bool
  /-- What to carry out. -/
  task : Task β
  /-- The point it is for. -/
  owner : Option PointId

namespace Request

/-- The entry that a request is queued as. -/
def entry (r : Request β) (index : ℕ) : Entry (Task β) :=
  ⟨⟨index⟩, .ofFloat r.beat, r.priority, r.task, r.owner⟩

/-- The entries that several requests are queued as. -/
def entries : ℕ → List (Request β) → List (Entry (Task β))
  | _, [] => []
  | index, r :: rest => r.entry index :: entries (index + 1) rest

@[simp]
theorem dueBeat_entry (r : Request β) (index : ℕ) : (r.entry index).dueBeat = r.beat :=
  Entry.value_ofFloat r.beat

@[simp]
theorem length_entries (index : ℕ) (rs : List (Request β)) :
    (entries index rs).length = rs.length := by
  induction rs generalizing index with
  | nil => rfl
  | cons r rest ih => rw [entries, List.length_cons, List.length_cons, ih]

/-- An entry stands for one of the requests. -/
theorem mem_entries {index : ℕ} {rs : List (Request β)} {e : Entry (Task β)}
    (he : e ∈ entries index rs) : ∃ r ∈ rs, e = r.entry e.id.index := by
  induction rs generalizing index with
  | nil => cases he
  | cons r rest ih =>
    rcases List.mem_cons.mp he with rfl | he
    · exact ⟨r, .head _, rfl⟩
    · obtain ⟨r', hr', heq⟩ := ih he
      exact ⟨r', .tail _ hr', heq⟩

/-- A request is made with a live token, for the point of the token. -/
structure Backed (ps : Points (Action β)) (r : Request β) : Prop where
  /-- The token is alive, and its point owns the entry. -/
  token : ∀ token, r.task.token? = some token →
    ps.isLive token = true ∧ r.owner = some token.point
  /-- A recurring point moves on to the beat at which its entry is due. -/
  rearm : ∀ token beat, r.task = .rearm token beat →
    r.beat = beat ∧ ∃ period, ps.Recurs token.point period

/-- A task without a token needs no backing. -/
theorem backed_of_token? {ps : Points (Action β)} {r : Request β} (h : r.task.token? = none) :
    r.Backed ps where
  token := by
    intro token htoken
    rw [h] at htoken
    cases htoken
  rearm := by
    intro token beat htask
    rw [htask] at h
    cases h

/-- A request for a recurring point is made only by an operation that resets it. -/
def Quiet (ps : Points (Action β)) (resets : PointId → Prop) (r : Request β) : Prop :=
  ∀ token node period, r.task.token? = some token → ps.node? token.point = some node →
    node.kind = .recurring period → resets token.point

end Request

/-- What entries say about their tasks and due beats. -/
def gather (f : Task β → Float → Option γ) (es : List (Entry (Task β))) : List γ :=
  es.filterMap fun e => f e.task e.dueBeat

/-- What requests say about their tasks and beats. -/
def asked (f : Task β → Float → Option γ) (rs : List (Request β)) : List γ :=
  rs.filterMap fun r => f r.task r.beat

@[simp]
theorem gather_append (f : Task β → Float → Option γ) (es es' : List (Entry (Task β))) :
    gather f (es ++ es') = gather f es ++ gather f es' :=
  List.filterMap_append

/-- Entries say what was requested. -/
theorem gather_entries (f : Task β → Float → Option γ) (index : ℕ) (rs : List (Request β)) :
    gather f (Request.entries index rs) = asked f rs := by
  induction rs generalizing index with
  | nil => rfl
  | cons r rest ih =>
    have hrest := ih (index + 1)
    unfold gather asked at hrest ⊢
    rw [Request.entries, List.filterMap_cons, List.filterMap_cons, Request.dueBeat_entry, hrest]
    rfl

/-! ## Changes -/

/-- A clock after an operation that dropped entries, reset points and made requests. -/
structure Change (c c' : Conductor σ β) (resets : PointId → Prop) (requests : List (Request β)) :
    Prop where
  /-- The queue afterwards. -/
  queue : ∃ dropped, c.queue.Evolves c'.queue dropped (Request.entries c.queue.submitted requests)
  /-- The points afterwards. -/
  points : c.points.Advances c'.points resets
  /-- What was requested can run as long as its point is not reset again. -/
  backed : ∀ r ∈ requests, r.Backed c'.points

namespace Change

variable {c c' c'' : Conductor σ β} {resets : PointId → Prop} {requests requests' : List (Request β)}

theorem of_eq (hqueue : c'.queue = c.queue) (hpoints : c'.points = c.points) :
    Change c c' (fun _ => False) [] where
  queue := ⟨_, by
    rw [hqueue]
    exact .refl _⟩
  points := by
    rw [hpoints]
    exact .refl _
  backed := by simp

/-- Only points change. -/
theorem of_points (hqueue : c'.queue = c.queue) (hpoints : c.points.Advances c'.points resets) :
    Change c c' resets [] where
  queue := ⟨_, by
    rw [hqueue]
    exact .refl _⟩
  points := hpoints
  backed := by simp

theorem of_dropped {dropped : Entry (Task β) → Bool}
    (hqueue : c.queue.Evolves c'.queue dropped []) (hpoints : c'.points = c.points) :
    Change c c' (fun _ => False) [] where
  queue := ⟨dropped, hqueue⟩
  points := by
    rw [hpoints]
    exact .refl _
  backed := by simp

/-- A change that requests nothing, and one that resets nothing and does the requests. -/
theorem trans (h : Change c c' resets []) (h' : Change c' c'' (fun _ => False) requests) :
    Change c c'' resets requests where
  queue := by
    obtain ⟨dropped, hq⟩ := h.queue
    obtain ⟨dropped', hq'⟩ := h'.queue
    -- Nothing was requested first, so the names of the requests are the same.
    have hsubmitted : c'.queue.submitted = c.queue.submitted := hq.submitted
    rw [hsubmitted] at hq'
    exact ⟨_, hq.trans_dropped hq'⟩
  points := h.points.trans_still h'.points
  backed := h'.backed

/-- A change that requests and resets nothing, and another one. -/
theorem trans_left (h : Change c c' (fun _ => False) []) (h' : Change c' c'' resets requests) :
    Change c c'' resets requests where
  queue := by
    obtain ⟨dropped, hq⟩ := h.queue
    obtain ⟨dropped', hq'⟩ := h'.queue
    have hsubmitted : c'.queue.submitted = c.queue.submitted := hq.submitted
    rw [hsubmitted] at hq'
    exact ⟨_, hq.trans_dropped hq'⟩
  points := h.points.trans h'.points
  backed := h'.backed

/-- Which points are reset matters only for those that were created. -/
theorem congr {resets' : PointId → Prop} (h : Change c c' resets requests)
    (heq : ∀ id, c.points.Has id → (resets id ↔ resets' id)) : Change c c' resets' requests :=
  ⟨h.queue, h.points.congr heq, h.backed⟩

end Change

/-- A clock after an operation that left the points alone and requested nothing for them. -/
def QueueChange (c c' : Conductor σ β) : Prop :=
  ∃ requests, Change c c' (fun _ => False) requests ∧ c'.points = c.points ∧
    ∀ r ∈ requests, r.task.token? = none

namespace QueueChange

variable {c c' : Conductor σ β}

/-- Neither the queue nor the points change. -/
theorem of_eq (h : c'.queue = c.queue ∧ c'.points = c.points) : QueueChange c c' :=
  ⟨[], .of_eq h.1 h.2, h.2, by simp⟩

/-- Only entries are dropped. -/
theorem of_dropped {dropped : Entry (Task β) → Bool}
    (hqueue : c.queue.Evolves c'.queue dropped []) (hpoints : c'.points = c.points) :
    QueueChange c c' :=
  ⟨[], .of_dropped hqueue hpoints, hpoints, by simp⟩

end QueueChange

namespace Conductor

/-! ## Scheduling -/

/-- The request that submitting a task makes. -/
def requestAt (beat : Float) (priority : Bool) (task : Task β) (owner : Option PointId) :
    List (Request β) :=
  if beat.isFinite then [⟨beat, priority, task, owner⟩] else []

@[simp]
theorem wake_queue (c : Conductor σ β) : c.wake.queue = c.queue := rfl

@[simp]
theorem wake_points (c : Conductor σ β) : c.wake.points = c.points := rfl

@[simp]
theorem say_queue (c : Conductor σ β) (level : Log.Severity) (text : String) :
    (c.say level text).queue = c.queue := rfl

@[simp]
theorem say_points (c : Conductor σ β) (level : Log.Severity) (text : String) :
    (c.say level text).points = c.points := rfl

@[simp]
theorem announce_queue (c : Conductor σ β) (notice : Notice) :
    (c.announce notice).queue = c.queue := rfl

@[simp]
theorem announce_points (c : Conductor σ β) (notice : Notice) :
    (c.announce notice).points = c.points := rfl

/-- Saying several things changes neither the queue nor the points. -/
theorem emitAll_queue_points (c : Conductor σ β) (outputs : List Output) :
    (c.emitAll outputs).queue = c.queue ∧ (c.emitAll outputs).points = c.points ∧
      (c.emitAll outputs).playhead = c.playhead := by
  induction outputs generalizing c with
  | nil => exact ⟨rfl, rfl, rfl⟩
  | cons output rest ih =>
    have hone : (c.emit output).queue = c.queue ∧ (c.emit output).points = c.points ∧
        (c.emit output).playhead = c.playhead := by
      cases output <;> exact ⟨rfl, rfl, rfl⟩
    obtain ⟨hq, hp, hh⟩ := ih (c.emit output)
    exact ⟨hq.trans hone.1, hp.trans hone.2.1, hh.trans hone.2.2⟩

/-- Submitting a task queues it if its beat is finite. -/
theorem submit_spec (c : Conductor σ β) (beat : Float) (priority : Bool) (task : Task β)
    (owner : Option PointId) :
    (c.submit beat priority task owner).2.points = c.points ∧
      c.queue.Evolves (c.submit beat priority task owner).2.queue (fun _ => false)
        (Request.entries c.queue.submitted (requestAt beat priority task owner)) := by
  unfold submit checkBeat requestAt
  cases hbeat : beat.isFinite with
  | false => exact ⟨rfl, .refl _⟩
  | true =>
    have hdue : (DueBeat.ofFloat beat).value.isFinite = true := by
      rw [Entry.value_ofFloat]
      exact hbeat
    simp only [if_true]
    refine ⟨?_, ?_⟩
    · split_ifs <;> rfl
    · have hsubmit := c.queue.evolves_submit hdue priority task owner
      split_ifs <;> exact hsubmit

/-- Submitting a task that depends on no token. -/
theorem queueChange_submit (c : Conductor σ β) (beat : Float) (priority : Bool) {task : Task β}
    (owner : Option PointId) (htask : task.token? = none) :
    QueueChange c (c.submit beat priority task owner).2 := by
  obtain ⟨hpoints, hqueue⟩ := c.submit_spec beat priority task owner
  have hnone (r : Request β) (hr : r ∈ requestAt beat priority task owner) :
      r.task.token? = none := by
    unfold requestAt at hr
    split_ifs at hr
    · rw [List.mem_singleton.mp hr]
      exact htask
    · cases hr
  exact ⟨_, ⟨⟨_, hqueue⟩, hpoints ▸ .refl _, fun r hr =>
    Request.backed_of_token? (hnone r hr)⟩, hpoints, hnone⟩

/-- One task of a batch is pushed. -/
def pushTask (q : Queue (Task β)) (entry : Float × Task β × Option PointId) : Queue (Task β) :=
  (q.push (.ofFloat entry.1) entry.2.1 entry.2.2).2

/-- The tasks of a batch are pushed in order. Each is named by how many tasks were submitted before. -/
theorem foldl_queueNext (batch : List (Float × Task β × Option PointId)) (ids : List EntryId)
    (q : Queue (Task β)) : batch.foldl queueNext (ids, q) =
      (ids ++ (List.range' q.submitted batch.length).map EntryId.mk, batch.foldl pushTask q) := by
  induction batch generalizing ids q with
  | nil => simp
  | cons entry rest ih =>
    have hnext : queueNext (ids, q) entry = (ids ++ [⟨q.submitted⟩], pushTask q entry) := rfl
    have hsubmitted : (pushTask q entry).submitted = q.submitted + 1 := rfl
    rw [List.foldl_cons, hnext, ih, hsubmitted, List.length_cons, List.range'_succ, List.map_cons,
      List.append_assoc, List.singleton_append, List.foldl_cons]

/-- Submitting a batch pushes the tasks with finite beats. -/
theorem submitAll_eq (c : Conductor σ β) (batch : List (Float × Task β × Option PointId)) :
    c.submitAll batch =
      ((List.range' c.queue.submitted (batch.filter (·.1.isFinite)).length).map EntryId.mk,
        if (batch.filter (·.1.isFinite)).isEmpty then c
        else ({ c with queue := (batch.filter (·.1.isFinite)).foldl pushTask c.queue } :
          Conductor σ β).wake) := by
  unfold submitAll
  rw [foldl_queueNext, List.nil_append]
  cases batch.filter (·.1.isFinite) <;> rfl

/-- The request that one task of a batch makes. -/
def batchRequest (b : Float × Task β × PointId) : Request β := ⟨b.1, false, b.2.1, some b.2.2⟩

/-- The tasks of a batch that are queued. -/
def finiteOf (batch : List (Float × Task β × PointId)) : List (Float × Task β × PointId) :=
  batch.filter (·.1.isFinite)

/-- The requests that a batch makes. -/
def batchRequests (batch : List (Float × Task β × PointId)) : List (Request β) :=
  (finiteOf batch).map batchRequest

theorem asked_batchRequests {γ : Type} (f : Task β → Float → Option γ)
    (batch : List (Float × Task β × PointId)) :
    asked f (batchRequests batch) = (finiteOf batch).filterMap fun b => f b.2.1 b.1 :=
  List.filterMap_map

/-- One task of a batch is pushed for its point. -/
def pushFor (q : Queue (Task β)) (b : Float × Task β × PointId) : Queue (Task β) :=
  (q.push (.ofFloat b.1) b.2.1 (some b.2.2)).2

/-- Pushing tasks with finite beats queues them in order. -/
theorem evolves_pushAll (q : Queue (Task β)) (batch : List (Float × Task β × PointId))
    (hfinite : ∀ b ∈ batch, b.1.isFinite = true) :
    q.Evolves (batch.foldl pushFor q) (fun _ => false)
      (Request.entries q.submitted (batch.map batchRequest)) := by
  induction batch generalizing q with
  | nil => exact .refl q
  | cons b rest ih =>
    have hdue : (DueBeat.ofFloat b.1).value.isFinite = true := by
      rw [Entry.value_ofFloat]
      exact hfinite b (.head _)
    have hpush : q.Evolves (pushFor q b) (fun _ => false) [(batchRequest b).entry q.submitted] :=
      q.evolves_submit hdue false b.2.1 (some b.2.2)
    have hrest := ih (pushFor q b) fun b hb => hfinite b (.tail _ hb)
    rw [show (pushFor q b).submitted = q.submitted + 1 from rfl] at hrest
    exact hpush.trans_added hrest

/-- Submitting a batch of tasks of points pushes those with finite beats for their points. -/
theorem submitBatch_eq (c : Conductor σ β) (batch : List (Float × Task β × PointId)) :
    c.submitBatch batch =
      if (finiteOf batch).isEmpty then c
      else ({ c with queue := (finiteOf batch).foldl pushFor c.queue } : Conductor σ β).wake := by
  rw [submitBatch, submitAll_eq, List.filter_map, List.isEmpty_map, List.foldl_map]
  rfl

/-- Submitting a batch queues the tasks with finite beats in order. -/
theorem submitBatch_spec (c : Conductor σ β) (batch : List (Float × Task β × PointId)) :
    (c.submitBatch batch).points = c.points ∧
      (c.submitBatch batch).playhead = c.playhead ∧
      c.queue.Evolves (c.submitBatch batch).queue (fun _ => false)
        (Request.entries c.queue.submitted (batchRequests batch)) := by
  have hpush := evolves_pushAll c.queue (finiteOf batch) fun b hb => (List.mem_filter.mp hb).2
  rw [submitBatch_eq]
  split_ifs with hempty
  · refine ⟨rfl, rfl, ?_⟩
    have hnone : batchRequests batch = [] := by
      rw [batchRequests, List.isEmpty_iff.mp hempty]
      rfl
    rw [hnone]
    exact .refl _
  · exact ⟨rfl, rfl, hpush⟩

end Conductor

end Cadence
