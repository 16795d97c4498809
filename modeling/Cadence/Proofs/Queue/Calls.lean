import Mathlib
import Cadence.Proofs.Queue

/-!
# Calls to a queue

A queue is used through seven calls: two submit an entry, one drains, and four take entries out.
This file runs any sequence of calls and keeps, for each call, the queue that it found. What a call
submitted, drained and removed is read off that queue and the one it left, not off the answer.

- `Turn.conserves`: a call loses no entry and makes none up;
- `Turn.truthful`: an answer tells what the call did;
- `conserved`: over a sequence of calls, the entries that are left, those drained and those removed
  are the entries that were there and those submitted.
-/

namespace Cadence.Queue

variable {α : Type}

/-- A call to a queue. -/
inductive Call (α : Type) where
  /-- Submit a task, possibly on behalf of a point. -/
  | push (due : DueBeat) (task : α) (owner : Option PointId)
  /-- Submit a task that leads its beat. -/
  | pushPriority (due : DueBeat) (task : α)
  /-- Take out what is due at a beat. -/
  | drainDue (beat : Float)
  /-- Take out the entries of a point. -/
  | cancelOwner (owner : PointId)
  /-- Take out the entries of some points. -/
  | cancelOwners (owners : List PointId)
  /-- Take out the entry of a name. -/
  | remove (id : EntryId)
  /-- Take out everything. -/
  | clear

/-- What a queue answers to a call. -/
inductive Answer (α : Type) where
  /-- The name of the entry that was submitted. -/
  | name (id : EntryId)
  /-- The entries that were due. -/
  | entries (es : List (Entry α))
  /-- How many entries were taken out. -/
  | count (n : ℕ)
  /-- The entry was queued. -/
  | found (queued : Bool)

/-- Makes a call. -/
def Call.run : Call α → Queue α → Answer α × Queue α
  | .push due task owner, q => ((q.push due task owner).map .name id)
  | .pushPriority due task, q => ((q.pushPriority due task).map .name id)
  | .drainDue beat, q => ((q.drainDue beat).map .entries id)
  | .cancelOwner owner, q => ((q.cancelOwner owner).map .count id)
  | .cancelOwners owners, q => ((q.cancelOwners owners).map .count id)
  | .remove id, q => ((q.remove id).map .found (·))
  | .clear, q => (q.clear.map .count id)

/-- The queue after calls made one after another. -/
def afterCalls (q : Queue α) (calls : List (Call α)) : Queue α :=
  calls.foldl (fun q call => (call.run q).2) q

/-- A call and the queue that it found. -/
structure Turn (α : Type) where
  /-- The call. -/
  call : Call α
  /-- The queue before it. -/
  before : Queue α

/-- The turns of calls made one after another. -/
def turns (q : Queue α) : List (Call α) → List (Turn α)
  | [] => []
  | call :: calls => ⟨call, q⟩ :: turns (call.run q).2 calls

/-- The entries of a queue whose names another queue does not hold. -/
def missing (q q' : Queue α) : List (Entry α) :=
  q.entries.filter fun e => q'.entries.all (·.id ≠ e.id)

namespace Turn

/-- What the queue answered. -/
def answer (t : Turn α) : Answer α := (t.call.run t.before).1

/-- The queue after the call. -/
def after (t : Turn α) : Queue α := (t.call.run t.before).2

/-- The entry that the call submitted, under the next name. -/
def pushed (t : Turn α) : List (Entry α) :=
  match t.call with
  | .push due task owner => [⟨⟨t.before.submitted⟩, due, false, task, owner⟩]
  | .pushPriority due task => [⟨⟨t.before.submitted⟩, due, true, task, none⟩]
  | _ => []

/-- The entries that the call handed out as due. -/
def drained (t : Turn α) : List (Entry α) :=
  match t.answer with
  | .entries es => es
  | _ => []

/-- The entries that are gone although the call did not hand them out. -/
def removed (t : Turn α) : List (Entry α) :=
  match t.call with
  | .drainDue _ => []
  | _ => missing t.before t.after

/-- The answer tells what the call did. -/
def Truthful (t : Turn α) : Prop :=
  match t.call, t.answer with
  | .push .., .name id | .pushPriority .., .name id => t.pushed.map (·.id) = [id]
  | .drainDue beat, .entries es =>
      es = missing t.before t.after ∧ ∀ e ∈ es, ¬ beat < e.dueBeat
  | .cancelOwner owner, .count n =>
      n = t.removed.length ∧ ∀ e ∈ t.before.entries, e ∈ t.removed ↔ e.owner = some owner
  | .cancelOwners owners, .count n =>
      n = t.removed.length ∧
        ∀ e ∈ t.before.entries, e ∈ t.removed ↔ ∃ owner ∈ owners, e.owner = some owner
  | .clear, .count n => n = t.removed.length ∧ t.removed = t.before.entries
  | .remove id, .found true => ∃ e ∈ t.before.entries, e.id = id ∧ t.removed = [e]
  | .remove id, .found false => (∀ e ∈ t.before.entries, e.id ≠ id) ∧ t.removed = []
  | _, _ => False

end Turn

/-! ## One call -/

/-- Entries are missing by their names; in an ordered queue these are the entries taken out. -/
theorem missing_filter {q : Queue α} (h : q.Ordered) (picked : Entry α → Bool) :
    missing q { q with entries := q.entries.filter (!picked ·) } = q.entries.filter picked := by
  refine List.filter_congr fun e he => ?_
  rw [Bool.eq_iff_iff, List.all_eq_true]
  constructor
  · intro hall
    by_contra hnot
    have hself := hall e (List.mem_filter.mpr ⟨he, by simpa using hnot⟩)
    simp at hself
  · intro hpicked d hd
    obtain ⟨hd, hkept⟩ := List.mem_filter.mp hd
    -- The names are distinct, so an entry that was kept has another name.
    have hne : d.id ≠ e.id := by
      intro hid
      rw [List.inj_on_of_nodup_map h.distinct hd he hid, hpicked] at hkept
      cases hkept
    simpa using hne

theorem missing_submit (q : Queue α) (due : DueBeat) (priority : Bool) (task : α)
    (owner : Option PointId) : missing q (q.submit due priority task owner).2 = [] := by
  refine List.filter_eq_nil_iff.mpr fun e he hall => ?_
  have hmem : e ∈ (q.submit due priority task owner).2.entries :=
    (submit_perm ..).mem_iff.mpr (.tail _ he)
  simpa using List.all_eq_true.mp hall e hmem

/-- What a drain hands out is what goes missing. -/
theorem missing_drainDue {q : Queue α} (h : q.Ordered) (beat : Float) :
    missing q (q.drainDue beat).2 = (q.drainDue beat).1 := by
  have hsplit := drainDue_append q beat
  have hnodup := h.distinct
  rw [← hsplit, List.map_append] at hnodup
  unfold missing
  rw [← hsplit, List.filter_append]
  -- Names are distinct, so nothing that is left has the name of an entry that was taken.
  have htaken : ∀ e ∈ (q.drainDue beat).1,
      (q.drainDue beat).2.entries.all (·.id ≠ e.id) = true := by
    intro e he
    refine List.all_eq_true.mpr fun d hd => ?_
    have hne := (List.nodup_append.mp hnodup).2.2 e.id (List.mem_map_of_mem he) d.id
      (List.mem_map_of_mem hd)
    simpa using hne.symm
  have hleft : ∀ e ∈ (q.drainDue beat).2.entries,
      ¬ (q.drainDue beat).2.entries.all (·.id ≠ e.id) = true := by
    intro e he hall
    simpa using List.all_eq_true.mp hall e he
  rw [List.filter_eq_self.mpr htaken, List.filter_eq_nil_iff.mpr hleft, List.append_nil]

theorem missing_clear (q : Queue α) : missing q q.clear.2 = q.entries := by
  simp [missing, clear]

/-- In an ordered queue a name belongs to at most one entry. -/
theorem filter_id_of_mem {q : Queue α} (h : q.Ordered) {e : Entry α} (he : e ∈ q.entries) :
    q.entries.filter (·.id = e.id) = [e] := by
  have hnodup : (q.entries.filter (·.id = e.id)).Nodup := h.distinct.of_map.filter _
  refine List.perm_singleton.mp ((List.perm_ext_iff_of_nodup hnodup (List.nodup_singleton e)).mpr ?_)
  intro d
  rw [List.mem_filter, List.mem_singleton, decide_eq_true_iff]
  constructor
  · rintro ⟨hd, hid⟩
    exact List.inj_on_of_nodup_map h.distinct hd he hid
  · rintro rfl
    exact ⟨he, rfl⟩

/-- Removing a name answers whether it is queued. -/
theorem remove_fst (q : Queue α) (id : EntryId) :
    (q.remove id).1 = q.entries.any (·.id = id) := by
  rw [Bool.eq_iff_iff, List.any_eq_true]
  exact decide_eq_true_iff.trans List.countP_pos_iff

namespace Turn

/-- A call keeps a queue in order. -/
theorem ordered (t : Turn α) (h : t.before.Ordered) : t.after.Ordered := by
  obtain ⟨call, q⟩ := t
  cases call with
  | push | pushPriority => exact h.submit ..
  | drainDue => exact h.sublist (List.dropWhile_sublist _)
  | cancelOwner | cancelOwners | remove => exact h.sublist List.filter_sublist
  | clear => exact h.sublist (List.nil_sublist _)

/-- A call names the entries that it submits in succession. -/
theorem names (t : Turn α) :
    t.pushed.map (·.id.index) = List.range' t.before.submitted t.pushed.length ∧
      t.after.submitted = t.before.submitted + t.pushed.length := by
  obtain ⟨call, q⟩ := t
  cases call <;> exact And.intro rfl rfl

/-- A call loses no entry and makes none up. -/
theorem conserves (t : Turn α) (h : t.before.Ordered) :
    (t.after.entries ++ (t.drained ++ t.removed)).Perm (t.before.entries ++ t.pushed) := by
  obtain ⟨call, q⟩ := t
  have hsubmit (due : DueBeat) (priority : Bool) (task : α) (owner : Option PointId) :
      ((q.submit due priority task owner).2.entries ++
        ([] ++ missing q (q.submit due priority task owner).2)).Perm
        (q.entries ++ [(⟨⟨q.submitted⟩, due, priority, task, owner⟩ : Entry α)]) := by
    rw [missing_submit, List.append_nil, List.append_nil]
    exact (submit_perm ..).trans (List.perm_append_singleton _ _).symm
  have hfilter (picked : Entry α → Bool) :
      (q.entries.filter (!picked ·) ++
        ([] ++ missing q { q with entries := q.entries.filter (!picked ·) })).Perm
        (q.entries ++ []) := by
    rw [missing_filter h, List.nil_append, List.append_nil]
    exact List.perm_append_comm.trans (List.filter_append_perm picked q.entries)
  cases call with
  | push | pushPriority => exact hsubmit ..
  | drainDue beat =>
    change ((q.drainDue beat).2.entries ++ ((q.drainDue beat).1 ++ [])).Perm (q.entries ++ [])
    rw [List.append_nil, List.append_nil, ← drainDue_append q beat]
    exact List.perm_append_comm
  | cancelOwner | cancelOwners | remove => exact hfilter _
  | clear =>
    change ([] ++ ([] ++ missing q q.clear.2)).Perm (q.entries ++ [])
    rw [missing_clear, List.append_nil]
    exact .refl _

/-- An answer tells what the call did. -/
theorem truthful (t : Turn α) (h : t.before.Ordered) : t.Truthful := by
  obtain ⟨call, q⟩ := t
  -- Three of the calls take out what a test picks.
  have hcount (picked : Entry α → Bool) :
      q.entries.countP picked =
        (missing q { q with entries := q.entries.filter (!picked ·) }).length ∧
      ∀ e ∈ q.entries,
        e ∈ missing q { q with entries := q.entries.filter (!picked ·) } ↔ picked e = true := by
    rw [missing_filter h]
    refine ⟨List.countP_eq_length_filter, fun e he => ?_⟩
    rw [List.mem_filter]
    exact and_iff_right he
  cases call with
  | push | pushPriority => rfl
  | drainDue beat =>
    exact ⟨(missing_drainDue h beat).symm, fun e he => not_lt_of_mem_drainDue he⟩
  | cancelOwner owner =>
    refine ⟨(hcount _).1, fun e he => ((hcount _).2 e he).trans ?_⟩
    simp
  | cancelOwners owners =>
    refine ⟨(hcount _).1, fun e he => ((hcount _).2 e he).trans ?_⟩
    cases howner : e.owner <;> simp [Entry.ownedBy, howner]
  | remove id =>
    have hremoved : (Turn.mk (.remove id) q).removed = q.entries.filter (·.id = id) :=
      missing_filter h _
    have hanswer : (Turn.mk (.remove id) q).answer = .found (q.entries.any (·.id = id)) :=
      congrArg Answer.found (remove_fst q id)
    cases hany : q.entries.any (·.id = id) with
    | true =>
      obtain ⟨e, he, hid⟩ := List.any_eq_true.mp hany
      obtain rfl : e.id = id := by simpa using hid
      simp only [Truthful, hanswer, hany]
      exact ⟨e, he, rfl, hremoved.trans (filter_id_of_mem h he)⟩
    | false =>
      have hnone : ∀ e ∈ q.entries, e.id ≠ id := by simpa using hany
      simp only [Truthful, hanswer, hany]
      refine ⟨hnone, hremoved.trans (List.filter_eq_nil_iff.mpr ?_)⟩
      simpa using hnone
  | clear => exact ⟨congrArg List.length (missing_clear q).symm, missing_clear q⟩

end Turn

/-! ## Calls one after another -/

variable {q : Queue α}

theorem Ordered.afterCalls (h : q.Ordered) (calls : List (Call α)) :
    (q.afterCalls calls).Ordered := by
  induction calls generalizing q with
  | nil => exact h
  | cons call calls ih => exact ih (Turn.ordered ⟨call, q⟩ h)

/-- Every call finds the queue in order. -/
theorem Ordered.before (h : q.Ordered) {calls : List (Call α)} {t : Turn α}
    (ht : t ∈ q.turns calls) : t.before.Ordered := by
  induction calls generalizing q with
  | nil => cases ht
  | cons call calls ih =>
    rcases List.mem_cons.mp ht with rfl | ht
    · exact h
    · exact ih (Turn.ordered ⟨call, q⟩ h) ht

/-- Calls name the entries that they submit in succession. -/
theorem names_pushed (q : Queue α) (calls : List (Call α)) :
    ((q.turns calls).flatMap Turn.pushed).map (·.id.index) =
        List.range' q.submitted ((q.turns calls).flatMap Turn.pushed).length ∧
      (q.afterCalls calls).submitted =
        q.submitted + ((q.turns calls).flatMap Turn.pushed).length := by
  induction calls generalizing q with
  | nil => exact ⟨rfl, rfl⟩
  | cons call calls ih =>
    obtain ⟨hnames, hsubmitted⟩ := Turn.names ⟨call, q⟩
    obtain ⟨hnames', hsubmitted'⟩ := ih (Turn.after ⟨call, q⟩)
    change ((Turn.pushed ⟨call, q⟩ ++ (turns (Turn.after ⟨call, q⟩) calls).flatMap Turn.pushed).map
        (·.id.index) = List.range' q.submitted (Turn.pushed ⟨call, q⟩ ++
          (turns (Turn.after ⟨call, q⟩) calls).flatMap Turn.pushed).length) ∧
      ((Turn.after ⟨call, q⟩).afterCalls calls).submitted = q.submitted + (Turn.pushed ⟨call, q⟩ ++
          (turns (Turn.after ⟨call, q⟩) calls).flatMap Turn.pushed).length
    rw [List.map_append, hnames, hnames', hsubmitted', hsubmitted, List.length_append,
      List.range'_append_1]
    exact ⟨rfl, Nat.add_assoc ..⟩

/-- Two balances, of which the second opens where the first closes, make one. -/
theorem perm_balance {opening between closing i i' o o' r r' : List α}
    (h : (between ++ (o ++ r)).Perm (opening ++ i))
    (h' : (closing ++ (o' ++ r')).Perm (between ++ i')) :
    (closing ++ ((o ++ o') ++ (r ++ r'))).Perm (opening ++ (i ++ i')) := by
  rw [← Multiset.coe_eq_coe] at h h' ⊢
  simp only [← Multiset.coe_add] at h h' ⊢
  calc (closing : Multiset α) + (o + o' + (r + r'))
      = closing + (o' + r') + (o + r) := by abel
    _ = between + (o + r) + i' := by
      rw [h']
      abel
    _ = opening + (i + i') := by rw [h, add_assoc]

/-- Calls lose no entry and make none up: what is left, what was drained and what was removed are
the entries that were there and those that were submitted. -/
theorem conserved (h : q.Ordered) (calls : List (Call α)) :
    ((q.afterCalls calls).entries ++
      ((q.turns calls).flatMap Turn.drained ++ (q.turns calls).flatMap Turn.removed)).Perm
      (q.entries ++ (q.turns calls).flatMap Turn.pushed) := by
  induction calls generalizing q with
  | nil => exact .refl _
  | cons call calls ih =>
    exact perm_balance (Turn.conserves ⟨call, q⟩ h) (ih (Turn.ordered ⟨call, q⟩ h))

end Cadence.Queue
