import Mathlib
import Cadence.Proofs.Number.Arithmetic
import Cadence.Proofs.Queue.Calls

/-!
# Entries of one beat

Two entries may be due at beats that are equal as numbers. If their beats have one bit pattern, the
one with priority comes first, and of two with the same priority the one that was submitted first.
The only equal numbers of different patterns are the two zeros, and there the pattern decides before
priority is looked at: whatever is due at `-0.0` comes before whatever is due at `0.0`.

- `Number.eq_of_beq`: equal numbers are the same number, or the two zeros;
- `ties_in_turn`: the order in which entries of equal beats are drained;
- `negative_zero_leads`: an entry without priority that is drained before one with priority, at
  equal beats.
-/

namespace Cadence

/-! ## Equal numbers -/

namespace Number

open Float.Model Float.Model.UnpackedFloat

/-- What compares as equal is the same, up to the sign of zero. -/
theorem eq_of_compare {u v : UnpackedFloat} (h : UnpackedFloat.compare u v = some .eq) :
    u = v ∨ (∃ s, u = .zero s) ∧ ∃ t, v = .zero t := by
  rcases u with (_ | _) | _ | s | ⟨_ | _, m, d, hm⟩ <;>
    rcases v with (_ | _) | _ | t | ⟨_ | _, n, e, hn⟩ <;>
    simp_all [UnpackedFloat.compare, Ordering.then_eq_eq]

/-- A number whose unpacked form is a zero is one of the two zeros. -/
theorem zero_of_unpack {x : Float} {s : Sign} (h : x.toModel.unpack = .zero s) :
    x = -0.0 ∨ x = 0.0 := by
  rw [← ofModel_pack_unpack x, h]
  cases s
  · exact .inl rfl
  · exact .inr rfl

/-- Equal numbers are the same number, or the two zeros. -/
theorem eq_of_beq {x y : Float} (h : (x == y) = true) :
    x = y ∨ x = -0.0 ∧ y = 0.0 ∨ x = 0.0 ∧ y = -0.0 := by
  have hcompare : UnpackedFloat.compare x.toModel.unpack y.toModel.unpack = some .eq :=
    beq_iff_eq.mp h
  rcases eq_of_compare hcompare with hsame | ⟨⟨s, hs⟩, t, ht⟩
  · refine .inl ?_
    rw [← ofModel_pack_unpack x, hsame, ofModel_pack_unpack]
  · rcases zero_of_unpack hs with rfl | rfl <;> rcases zero_of_unpack ht with rfl | rfl
    · exact .inl rfl
    · exact .inr (.inl ⟨rfl, rfl⟩)
    · exact .inr (.inr ⟨rfl, rfl⟩)
    · exact .inl rfl

end Number

variable {α : Type}

namespace Entry

/-- A finite due beat is determined by its number. -/
theorem due_eq_ofFloat {e : Entry α} (h : e.dueBeat.isFinite = true) :
    e.due = .ofFloat e.dueBeat :=
  congrArg DueBeat.mk (Number.toBits_ofBits h).symm

theorem rank_negative_zero_lt : (DueBeat.ofFloat (-0.0)).rank < (DueBeat.ofFloat 0.0).rank := by
  decide +kernel

/-- Of two entries at equal beats, in order, the first one leads by the sign of its zero, by its
priority or by its submission. -/
theorem tie_of_before {e d : Entry α} (he : e.dueBeat.isFinite = true)
    (hd : d.dueBeat.isFinite = true) (hequal : (e.dueBeat == d.dueBeat) = true)
    (h : e.before d = true) :
    (e.due = .ofFloat (-0.0) ∧ d.due = .ofFloat 0.0) ∨
      e.due = d.due ∧ (e.priority = true ∧ d.priority = false ∨
        e.priority = d.priority ∧ e.id.index < d.id.index) := by
  have hrank := rank_le_of_before h
  rw [due_eq_ofFloat he, due_eq_ofFloat hd] at hrank ⊢
  -- The beats have one pattern, or they are the two zeros in one order or the other.
  rcases Number.eq_of_beq hequal with hsame | ⟨hneg, hpos⟩ | ⟨hpos, hneg⟩
  · have hdue : e.due = d.due := by rw [due_eq_ofFloat he, due_eq_ofFloat hd, hsame]
    refine .inr ⟨congrArg _ hsame, ?_⟩
    rcases (before_iff e d).mp h with hlt | ⟨-, htie⟩
    · exact absurd hlt (by rw [hdue]; exact lt_irrefl _)
    · exact htie
  · exact .inl ⟨congrArg _ hneg, congrArg _ hpos⟩
  · rw [hpos, hneg] at hrank
    exact absurd rank_negative_zero_lt (not_lt.mpr hrank)

end Entry

/-! ## Draining ties -/

namespace Queue

/-- Of two members of a list whose names rise, the one with the smaller name comes first. -/
theorem pair_sublist_of_lt {es : List (Entry α)} (hes : (es.map (·.id.index)).Pairwise (· < ·))
    {e d : Entry α} (he : e ∈ es) (hd : d ∈ es) (hlt : e.id.index < d.id.index) :
    [e, d].Sublist es := by
  induction es with
  | nil => cases he
  | cons x es ih =>
    obtain ⟨hx, hes⟩ := List.pairwise_cons.mp hes
    rcases List.mem_cons.mp he with rfl | hmem
    · have hne : d ≠ e := by
        rintro rfl
        exact lt_irrefl _ hlt
      have hrest : d ∈ es := (List.mem_cons.mp hd).resolve_left hne
      exact (List.singleton_sublist.mpr hrest).cons_cons e
    · have hne : d ≠ x := by
        rintro rfl
        exact lt_asymm hlt (hx e.id.index (List.mem_map_of_mem hmem))
      exact (ih hes hmem ((List.mem_cons.mp hd).resolve_left hne)).cons x

theorem mem_pushed {calls : List (Call α)} {e : Entry α}
    (he : e ∈ (empty.afterCalls calls).entries) : e ∈ (empty.turns calls).flatMap Turn.pushed :=
  (conserved ordered_empty calls).mem_iff.mp (List.mem_append_left _ he)

/-- Whatever calls are made to a new queue, if every beat is finite then a drain hands out entries
of equal beats in turn: those at the negative zero first, then by priority, and then in the order in
which they were submitted. -/
theorem ties_in_turn (calls : List (Call α)) (beat : Float)
    (hfinite : ∀ e ∈ (empty.turns calls).flatMap Turn.pushed, e.dueBeat.isFinite = true) :
    ((empty.afterCalls calls).drainDue beat).1.Pairwise fun e d =>
      (e.dueBeat == d.dueBeat) = true →
        (e.due = .ofFloat (-0.0) ∧ d.due = .ofFloat 0.0) ∨
        e.due = d.due ∧ (e.priority = true ∧ d.priority = false ∨
          e.priority = d.priority ∧ [e, d].Sublist ((empty.turns calls).flatMap Turn.pushed)) := by
  have hordered : (empty.afterCalls calls).Ordered := ordered_empty.afterCalls calls
  have hsub : ((empty.afterCalls calls).drainDue beat).1.Sublist
      (empty.afterCalls calls).entries := List.takeWhile_sublist _
  have hnames : (((empty.turns calls).flatMap Turn.pushed).map (·.id.index)).Pairwise (· < ·) := by
    rw [(names_pushed empty calls).1]
    exact List.pairwise_lt_range'
  refine (hordered.sorted.sublist hsub).imp_of_mem fun {e d} he hd hbefore hequal => ?_
  have hepushed := mem_pushed (hsub.subset he)
  have hdpushed := mem_pushed (hsub.subset hd)
  rcases Entry.tie_of_before (hfinite e hepushed) (hfinite d hdpushed) hequal hbefore with
    hzeros | ⟨hdue, hpriority | ⟨hsame, hindex⟩⟩
  · exact .inl hzeros
  · exact .inr ⟨hdue, .inl hpriority⟩
  · exact .inr ⟨hdue, .inr ⟨hsame, pair_sublist_of_lt hnames hepushed hdpushed hindex⟩⟩

/-- Two entries with priority and two without, all due at beat 4. -/
theorem bar_line_drains_in_turn :
    let calls : List (Call String) :=
      [.push (.ofFloat 4.0) "pattern" none, .pushPriority (.ofFloat 4.0) "tempo",
        .pushPriority (.ofFloat 4.0) "meter", .push (.ofFloat 4.0) "lights" none]
    (∀ e ∈ (empty.turns calls).flatMap Turn.pushed, e.dueBeat.isFinite = true) ∧
      ((empty.afterCalls calls).drainDue 4.0).1.map (·.task) =
        ["tempo", "meter", "pattern", "lights"] ∧
      ((empty.afterCalls calls).drainDue 4.0).1.Pairwise fun e d =>
        (e.dueBeat == d.dueBeat) = true →
          (e.due = .ofFloat (-0.0) ∧ d.due = .ofFloat 0.0) ∨
          e.due = d.due ∧ (e.priority = true ∧ d.priority = false ∨
            e.priority = d.priority ∧
              [e, d].Sublist ((empty.turns calls).flatMap Turn.pushed)) := by
  intro calls
  have hfinite : ∀ e ∈ (empty.turns calls).flatMap Turn.pushed, e.dueBeat.isFinite = true := by
    decide +kernel
  exact ⟨hfinite, by decide +kernel, ties_in_turn calls 4.0 hfinite⟩

/-- The sign of zero goes before priority: an entry without priority at `-0.0` is drained before an
entry with priority at `0.0`, which was submitted first and whose beat is equal. -/
theorem negative_zero_leads :
    let calls : List (Call String) :=
      [.pushPriority (.ofFloat 0.0) "tempo", .push (.ofFloat (-0.0)) "pattern" none]
    (∀ e ∈ (empty.turns calls).flatMap Turn.pushed, e.dueBeat.isFinite = true) ∧
      ¬ ((empty.afterCalls calls).drainDue 0.0).1.Pairwise fun e d =>
        (e.dueBeat == d.dueBeat) = true →
          e.priority = true ∧ d.priority = false ∨
            e.priority = d.priority ∧ e.id.index < d.id.index := by
  decide +kernel

end Queue

end Cadence
