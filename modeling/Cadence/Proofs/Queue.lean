import Mathlib
import Cadence.Proofs.Number.Order
import Cadence.Queue

/-!
# The queue in order

A queue keeps its entries in the order in which they come: by beat, then by priority, then by
submission. This file describes what an operation does to a queue by the entries it drops and the
entries it adds, and proves:

- `Entry.before_trans` and `Entry.before_or_before`: the order is one on entries of distinct names;
- `Queue.Valid` is kept by submitting, by removing and by draining;
- `Queue.Valid.drainDue_eq_filter`: draining at a beat takes the entries that are due by then, and leaves
  the others.
-/

namespace Cadence

variable {α : Type}

/-! ## The order of entries -/

namespace Entry

/-- The order compares beats, then priorities, then the order of submission. -/
theorem before_iff (a b : Entry α) :
    a.before b = true ↔
      a.due.rank < b.due.rank ∨ a.due.rank = b.due.rank ∧
        (a.priority = true ∧ b.priority = false ∨
          a.priority = b.priority ∧ a.id.index < b.id.index) := by
  unfold before
  split_ifs with hrank hpriority
  · simp [hrank, hpriority]
  · cases ha : a.priority <;> cases hb : b.priority <;> simp_all
  · simp only [decide_eq_true_iff]
    omega

/-- The order is transitive. -/
theorem before_trans {a b c : Entry α} (hab : a.before b = true) (hbc : b.before c = true) :
    a.before c = true := by
  rw [before_iff] at *
  rcases hab with hab | ⟨hab, hab' | hab'⟩ <;> rcases hbc with hbc | ⟨hbc, hbc' | hbc'⟩
  · exact .inl (hab.trans hbc)
  · exact .inl (hbc ▸ hab)
  · exact .inl (hbc ▸ hab)
  · exact .inl (hab ▸ hbc)
  · exact absurd (hab'.2.symm.trans hbc'.1) (by decide)
  · exact .inr ⟨hab.trans hbc, .inl ⟨hab'.1, hbc'.1 ▸ hab'.2⟩⟩
  · exact .inl (hab ▸ hbc)
  · exact .inr ⟨hab.trans hbc, .inl ⟨hab'.1.trans hbc'.1, hbc'.2⟩⟩
  · exact .inr ⟨hab.trans hbc, .inr ⟨hab'.1.trans hbc'.1, hab'.2.trans hbc'.2⟩⟩

/-- Of two entries with distinct names one comes before the other. -/
theorem before_or_before {a b : Entry α} (h : a.id ≠ b.id) :
    a.before b = true ∨ b.before a = true := by
  have hindex : a.id.index ≠ b.id.index := fun heq => h (congrArg EntryId.mk heq)
  rw [before_iff, before_iff]
  rcases lt_trichotomy a.due.rank b.due.rank with hlt | heq | hgt
  · exact .inl (.inl hlt)
  · cases ha : a.priority <;> cases hb : b.priority <;> simp [heq] <;> omega
  · exact .inr (.inl hgt)

theorem rank_le_of_before {a b : Entry α} (h : a.before b = true) : a.due.rank ≤ b.due.rank := by
  rw [before_iff] at h
  omega

theorem ownedBy_nil (e : Entry α) : e.ownedBy [] = false := by
  cases howner : e.owner <;> simp [ownedBy, howner]

/-- The number of the due beat that an entry was submitted with. -/
@[simp]
theorem value_ofFloat (x : Float) : (DueBeat.ofFloat x).value = x := Number.ofBits_toBits x

end Entry

namespace Queue

/-! ## Valid queues -/

/-- The entries are in order, and each has a name of its own that was handed out. -/
structure Ordered (q : Queue α) : Prop where
  /-- The entries are in order. -/
  sorted : q.entries.Pairwise (·.before ·)
  /-- Their names were handed out. -/
  issued : ∀ e ∈ q.entries, e.id.index < q.submitted
  /-- No two have one name. -/
  distinct : (q.entries.map (·.id)).Nodup

/-- An ordered queue of finite due beats. -/
structure Valid (q : Queue α) : Prop extends Ordered q where
  /-- Every due beat is finite. -/
  finite : ∀ e ∈ q.entries, e.dueBeat.isFinite = true

theorem ordered_empty : (empty : Queue α).Ordered where
  sorted := .nil
  issued := by simp [empty]
  distinct := .nil

theorem valid_empty : (empty : Queue α).Valid where
  toOrdered := ordered_empty
  finite := by simp [empty]

/-- Taking entries out keeps a queue in order. -/
theorem Ordered.sublist {q : Queue α} (h : q.Ordered) {es : List (Entry α)}
    (hsub : es.Sublist q.entries) : Ordered { q with entries := es } where
  sorted := h.sorted.sublist hsub
  issued e he := h.issued e (hsub.subset he)
  distinct := h.distinct.sublist (hsub.map _)

theorem Valid.sublist {q : Queue α} (h : q.Valid) {es : List (Entry α)}
    (hsub : es.Sublist q.entries) : Valid { q with entries := es } where
  toOrdered := h.toOrdered.sublist hsub
  finite e he := h.finite e (hsub.subset he)

/-- An entry is put in the list and nothing is lost. -/
theorem place_perm (e : Entry α) (es : List (Entry α)) : (place e es).Perm (e :: es) := by
  induction es with
  | nil => rfl
  | cons head rest ih =>
    unfold place
    split_ifs
    · rfl
    · exact (ih.cons head).trans (.swap e head rest)

/-- An entry with a name of its own is put in its place. -/
theorem place_sorted {e : Entry α} {es : List (Entry α)} (hnew : ∀ d ∈ es, e.id ≠ d.id)
    (h : es.Pairwise (·.before ·)) : (place e es).Pairwise (·.before ·) := by
  induction es with
  | nil => exact List.pairwise_singleton _ _
  | cons head rest ih =>
    obtain ⟨hhead, hrest⟩ := List.pairwise_cons.mp h
    unfold place
    split_ifs with hbefore
    · refine List.pairwise_cons.mpr ⟨?_, h⟩
      intro d hd
      rcases List.mem_cons.mp hd with rfl | hd
      · exact hbefore
      · exact Entry.before_trans hbefore (hhead d hd)
    · refine List.pairwise_cons.mpr ⟨?_, ih (fun d hd => hnew d (.tail _ hd)) hrest⟩
      intro d hd
      rcases List.mem_cons.mp ((place_perm e rest).mem_iff.mp hd) with rfl | hd
      · -- The head has another name and does not come after the entry, so it comes before.
        exact (Entry.before_or_before (hnew head (.head _))).resolve_left hbefore
      · exact hhead d hd

/-- The name that is handed out next is new. -/
theorem Ordered.fresh {q : Queue α} (h : q.Ordered) {d : Entry α} (hd : d ∈ q.entries) :
    (⟨q.submitted⟩ : EntryId) ≠ d.id := by
  intro heq
  have hissued := h.issued d hd
  rw [← heq] at hissued
  exact lt_irrefl _ hissued

theorem submit_perm (q : Queue α) (due : DueBeat) (priority : Bool) (task : α)
    (owner : Option PointId) :
    (q.submit due priority task owner).2.entries.Perm
      (⟨⟨q.submitted⟩, due, priority, task, owner⟩ :: q.entries) :=
  place_perm _ _

/-- Submitting a task keeps a queue in order. -/
theorem Ordered.submit {q : Queue α} (h : q.Ordered) (due : DueBeat) (priority : Bool) (task : α)
    (owner : Option PointId) : (q.submit due priority task owner).2.Ordered where
  sorted := place_sorted (fun _ hd => h.fresh hd) h.sorted
  issued := by
    intro e he
    rcases List.mem_cons.mp ((submit_perm ..).mem_iff.mp he) with rfl | he
    · exact Nat.lt_succ_self _
    · exact (h.issued e he).trans (Nat.lt_succ_self _)
  distinct := by
    refine ((submit_perm ..).map (·.id)).nodup_iff.mpr (List.nodup_cons.mpr ⟨?_, h.distinct⟩)
    intro hin
    obtain ⟨d, hd, heq⟩ := List.mem_map.mp hin
    exact h.fresh hd heq.symm

/-! ## What an operation does to a queue -/

/-- A queue after an operation that first drops some entries and then adds some. -/
structure Evolves (q q' : Queue α) (dropped : Entry α → Bool) (added : List (Entry α)) :
    Prop where
  /-- The entries afterwards are those that were not dropped and those that were added. -/
  perm : q'.entries.Perm (q.entries.filter (!dropped ·) ++ added)
  /-- The names of the added entries are the next ones. -/
  names : added.map (·.id.index) = List.range' q.submitted added.length
  /-- They count as submitted. -/
  submitted : q'.submitted = q.submitted + added.length
  /-- A valid queue stays valid. -/
  valid : q.Valid → q'.Valid

namespace Evolves

variable {q q' q'' : Queue α} {dropped dropped' : Entry α → Bool} {added added' : List (Entry α)}

theorem refl (q : Queue α) : q.Evolves q (fun _ => false) [] where
  perm := by simp
  names := rfl
  submitted := rfl
  valid := id

/-- One operation after another, if the later one drops nothing. -/
theorem trans_added (h : q.Evolves q' dropped added)
    (h' : q'.Evolves q'' (fun _ => false) added') :
    q.Evolves q'' dropped (added ++ added') where
  perm := by
    have hperm := h'.perm
    simp only [Bool.not_false, List.filter_true] at hperm
    rw [← List.append_assoc]
    exact hperm.trans (h.perm.append_right added')
  names := by
    rw [List.map_append, h.names, h'.names, h.submitted, List.length_append, List.range'_append_1]
  submitted := by
    rw [h'.submitted, h.submitted, List.length_append]
    omega
  valid := h'.valid ∘ h.valid

/-- One operation after another, if the earlier one adds nothing. -/
theorem trans_dropped (h : q.Evolves q' dropped []) (h' : q'.Evolves q'' dropped' added) :
    q.Evolves q'' (fun e => dropped e || dropped' e) added where
  perm := by
    have hperm := h.perm
    rw [List.append_nil] at hperm
    refine h'.perm.trans (List.Perm.append_right added ?_)
    refine (hperm.filter _).trans (.of_eq ?_)
    rw [List.filter_filter]
    congr 1
    funext e
    simp [Bool.and_comm]
  names := by
    rw [h'.names, h.submitted]
    simp
  submitted := by
    rw [h'.submitted, h.submitted]
    simp
  valid := h'.valid ∘ h.valid

/-- An entry that is queued afterwards was kept or added. -/
theorem mem_iff (h : q.Evolves q' dropped added) {e : Entry α} :
    e ∈ q'.entries ↔ e ∈ q.entries ∧ dropped e = false ∨ e ∈ added := by
  rw [h.perm.mem_iff, List.mem_append, List.mem_filter]
  simp

/-- An added entry has a name that was not handed out before. -/
theorem submitted_le (h : q.Evolves q' dropped added) {e : Entry α} (he : e ∈ added) :
    q.submitted ≤ e.id.index ∧ e.id.index < q'.submitted := by
  have hmem : e.id.index ∈ added.map (·.id.index) := List.mem_map_of_mem he
  rw [h.names, List.mem_range'_1] at hmem
  rw [h.submitted]
  exact hmem

/-- Names are handed out in order, so an entry that is queued afterwards was queued before or has a later
name. -/
theorem mem_or_le (h : q.Evolves q' dropped added) :
    q.submitted ≤ q'.submitted ∧
      ∀ e ∈ q'.entries, e ∈ q.entries ∨ q.submitted ≤ e.id.index := by
  refine ⟨?_, fun e he => ?_⟩
  · rw [h.submitted]
    exact Nat.le_add_right _ _
  · rcases h.mem_iff.mp he with ⟨hold, -⟩ | hnew
    · exact .inl hold
    · exact .inr (h.submitted_le hnew).1

end Evolves

/-- Submitting a task adds one entry. -/
theorem evolves_submit (q : Queue α) {due : DueBeat} (hdue : due.value.isFinite = true)
    (priority : Bool) (task : α) (owner : Option PointId) :
    q.Evolves (q.submit due priority task owner).2 (fun _ => false)
      [⟨⟨q.submitted⟩, due, priority, task, owner⟩] where
  perm := by
    simp only [submit, Bool.not_false, List.filter_true]
    exact (submit_perm ..).trans (List.perm_append_singleton _ _).symm
  names := rfl
  submitted := rfl
  valid := by
    intro h
    refine { toOrdered := h.toOrdered.submit due priority task owner, finite := ?_ }
    intro e he
    rcases List.mem_cons.mp ((submit_perm ..).mem_iff.mp he) with rfl | he
    · exact hdue
    · exact h.finite e he

theorem evolves_removeIf (q : Queue α) (picked : Entry α → Bool) :
    q.Evolves (q.removeIf picked).2 picked [] where
  perm := by simp [removeIf]
  names := rfl
  submitted := rfl
  valid h := h.sublist List.filter_sublist

theorem evolves_clear (q : Queue α) : q.Evolves q.clear.2 (fun _ => true) [] where
  perm := by simp [clear]
  names := rfl
  submitted := rfl
  valid h := h.sublist (List.nil_sublist _)

/-! ## Draining -/

/-- Draining takes a queue apart, in order. -/
theorem drainDue_append (q : Queue α) (beat : Float) :
    (q.drainDue beat).1 ++ (q.drainDue beat).2.entries = q.entries :=
  List.takeWhile_append_dropWhile

@[simp]
theorem drainDue_submitted (q : Queue α) (beat : Float) :
    (q.drainDue beat).2.submitted = q.submitted := rfl

/-- If nothing is drained, the queue stays as it is. -/
theorem drainDue_snd_of_nil {q : Queue α} {beat : Float} (h : (q.drainDue beat).1 = []) :
    (q.drainDue beat).2 = q := by
  have hsplit := q.drainDue_append beat
  rw [h, List.nil_append] at hsplit
  exact congrArg (Queue.mk · q.submitted) hsplit

/-- Nothing is drained while the first entry is due later. -/
theorem drainDue_cons_of_lt {e : Entry α} {es : List (Entry α)} {submitted : ℕ} {beat : Float}
    (h : beat < e.dueBeat) :
    (⟨e :: es, submitted⟩ : Queue α).drainDue beat = ([], ⟨e :: es, submitted⟩) := by
  simp [drainDue, isLater, h]

/-- Otherwise the first entry is drained, and then the rest. -/
theorem drainDue_cons_of_not_lt {e : Entry α} {es : List (Entry α)} {submitted : ℕ} {beat : Float}
    (h : ¬ beat < e.dueBeat) :
    (⟨e :: es, submitted⟩ : Queue α).drainDue beat =
      (e :: ((⟨es, submitted⟩ : Queue α).drainDue beat).1,
        ((⟨es, submitted⟩ : Queue α).drainDue beat).2) := by
  simp [drainDue, isLater, h]

/-- No entry that is drained at a beat is due later. -/
theorem not_lt_of_mem_drainDue {q : Queue α} {beat : Float} {e : Entry α}
    (he : e ∈ (q.drainDue beat).1) : ¬ beat < e.dueBeat := by
  have hpicked := List.mem_takeWhile_imp he
  simpa [isLater] using hpicked

theorem Valid.drainDue {q : Queue α} (h : q.Valid) (beat : Float) :
    (q.drainDue beat).2.Valid :=
  h.sublist (List.dropWhile_sublist _)

/-- In a list where whatever comes before a picked element is picked, the longest picked prefix is made up
of all picked elements. -/
theorem takeWhile_eq_filter_of_pairwise {p : α → Bool} {R : α → α → Prop} {xs : List α}
    (hR : xs.Pairwise R) (hdown : ∀ x ∈ xs, ∀ y ∈ xs, R y x → p x = true → p y = true) :
    xs.takeWhile p = xs.filter p ∧ xs.dropWhile p = xs.filter (!p ·) := by
  induction xs with
  | nil => exact ⟨rfl, rfl⟩
  | cons y ys ih =>
    obtain ⟨hy, hys⟩ := List.pairwise_cons.mp hR
    obtain ⟨htake, hdrop⟩ := ih hys fun x hx z hz => hdown x (.tail _ hx) z (.tail _ hz)
    by_cases hpick : p y = true
    · simp [hpick, htake, hdrop]
    · -- If any later element were picked, this one would be as well.
      have hnone : ∀ x ∈ y :: ys, ¬ p x = true := by
        intro x hx hpx
        rcases List.mem_cons.mp hx with rfl | hx
        · exact hpick hpx
        · exact hpick (hdown x (.tail _ hx) y (.head _) (hy x hx) hpx)
      rw [List.takeWhile_cons_of_neg hpick, List.dropWhile_cons_of_neg hpick,
        List.filter_eq_nil_iff.mpr hnone, List.filter_eq_self.mpr fun x hx => by simp [hnone x hx]]
      exact ⟨rfl, rfl⟩

/-- Beats rise along a valid queue. -/
theorem Valid.dueBeat_le_of_before {q : Queue α} (h : q.Valid) {d e : Entry α} (hd : d ∈ q.entries)
    (he : e ∈ q.entries) (hbefore : d.before e = true) : d.dueBeat ≤ e.dueBeat := by
  refine Number.le_of_patternRank_le (h.finite d hd) (h.finite e he) ?_
  unfold Entry.dueBeat DueBeat.value
  rw [Number.toBits_ofBits (h.finite d hd), Number.toBits_ofBits (h.finite e he)]
  exact Entry.rank_le_of_before hbefore

/-- An entry with a finite due beat is either due by a beat or later. -/
theorem not_isLater_eq {beat : Float} (hbeat : beat.isNaN = false) {e : Entry α}
    (he : e.dueBeat.isFinite = true) : (!isLater beat e) = decide (e.dueBeat ≤ beat) := by
  rw [Bool.eq_iff_iff, decide_eq_true_iff, isLater, Bool.not_eq_true', decide_eq_false_iff_not]
  exact ⟨Number.le_of_not_lt hbeat (Number.isNaN_of_isFinite he), Number.not_lt_of_le⟩

/-- Draining a valid queue at a beat takes the entries that are due by then, and leaves those that are due
later. -/
theorem Valid.drainDue_eq_filter {q : Queue α} (h : q.Valid) {beat : Float}
    (hbeat : beat.isNaN = false) :
    (q.drainDue beat).1 = q.entries.filter (·.dueBeat ≤ beat) ∧
      (q.drainDue beat).2.entries = q.entries.filter (beat < ·.dueBeat) := by
  -- What comes before a due entry is due as well.
  obtain ⟨htake, hdrop⟩ := takeWhile_eq_filter_of_pairwise (p := (!isLater beat ·)) h.sorted
    fun e he d hd hbefore hpick => by
      rw [not_isLater_eq hbeat (h.finite e he), decide_eq_true_iff] at hpick
      rw [not_isLater_eq hbeat (h.finite d hd), decide_eq_true_iff]
      exact Number.atMost_trans (h.dueBeat_le_of_before hd he hbefore) hpick
  refine ⟨htake.trans ?_, hdrop.trans ?_⟩
  · exact List.filter_congr fun e he => not_isLater_eq hbeat (h.finite e he)
  · exact List.filter_congr fun e _ => Bool.not_not _

/-- Draining a valid queue at a beat takes every entry that is due by then. -/
theorem mem_drainDue_of_le {q : Queue α} (h : q.Valid) {beat : Float} {e : Entry α}
    (he : e ∈ q.entries) (hdue : e.dueBeat ≤ beat) : e ∈ (q.drainDue beat).1 := by
  rw [(h.drainDue_eq_filter (Number.le_iff.mp hdue).2.1).1]
  exact List.mem_filter.mpr ⟨he, decide_eq_true hdue⟩

end Queue

end Cadence
