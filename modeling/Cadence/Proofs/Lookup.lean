import Mathlib

/-!
# Looking names up

Things with names are kept in lists, and of a name the first entry counts. These are the ways in which such
a list changes, and what is found in it afterwards.

- `lookup_replace_self`, `lookup_replace_of_ne`: after the entries of one name were given another thing;
- `lookup_filter`, `lookup_remove`: after the entries of some names, or of one, were taken out;
- `lookup_add`: after an entry was added at the end.
-/

namespace Cadence

variable {α β : Type} [BEq α] [LawfulBEq α] [DecidableEq α]
variable {entries : List (α × β)} {key other : α} {thing : β}

theorem lookup_replace_self :
    (entries.map fun (k, old) => if k = key then (k, thing) else (k, old)).lookup key =
      (entries.lookup key).map fun _ => thing := by
  induction entries with
  | nil => rfl
  | cons head entries ih =>
    obtain ⟨k, old⟩ := head
    by_cases hk : k = key
    · subst hk
      simp
    · have hne : (key == k) = false := beq_eq_false_iff_ne.mpr (Ne.symm hk)
      simp only [List.map_cons, if_neg hk, List.lookup_cons, hne]
      exact ih

theorem lookup_replace_of_ne (h : other ≠ key) :
    (entries.map fun (k, old) => if k = key then (k, thing) else (k, old)).lookup other =
      entries.lookup other := by
  induction entries with
  | nil => rfl
  | cons head entries ih =>
    obtain ⟨k, old⟩ := head
    by_cases hk : k = key
    · subst hk
      have hne : (other == k) = false := beq_eq_false_iff_ne.mpr h
      simp only [List.map_cons, if_true, List.lookup_cons, hne]
      exact ih
    · simp only [List.map_cons, if_neg hk, List.lookup_cons]
      rw [ih]

omit [BEq α] [LawfulBEq α] in
/-- Names stay as they are when things are replaced. -/
theorem map_fst_replace :
    (entries.map fun (k, old) => if k = key then (k, thing) else (k, old)).map Prod.fst =
      entries.map Prod.fst := by
  rw [List.map_map]
  refine List.map_congr_left fun entry _ => ?_
  obtain ⟨k, old⟩ := entry
  by_cases hk : k = key <;> simp [hk]

omit [DecidableEq α] in
/-- What is left of the names that are kept. -/
theorem lookup_filter (kept : α → Bool) :
    (entries.filter (kept ·.1)).lookup other = if kept other then entries.lookup other else none := by
  induction entries with
  | nil => simp
  | cons head entries ih =>
    obtain ⟨k, old⟩ := head
    by_cases hother : other = k
    · subst hother
      by_cases hkept : kept other = true
      · rw [List.filter_cons_of_pos (by simpa using hkept), if_pos hkept, List.lookup_cons, List.lookup_cons]
        simp
      · rw [List.filter_cons_of_neg (by simpa using hkept), ih, if_neg hkept, if_neg hkept]
    · have hne : (other == k) = false := beq_eq_false_iff_ne.mpr hother
      rw [List.lookup_cons, hne, ← ih]
      by_cases hkept : kept k = true
      · rw [List.filter_cons_of_pos (by simpa using hkept), List.lookup_cons, hne]
      · rw [List.filter_cons_of_neg (by simpa using hkept)]

theorem lookup_remove :
    (entries.filter (·.1 ≠ key)).lookup other = if other = key then none else entries.lookup other := by
  rw [lookup_filter fun k => decide (k ≠ key)]
  by_cases hother : other = key <;> simp [hother]

theorem lookup_add (h : entries.lookup key = none) :
    (entries ++ [(key, thing)]).lookup other =
      if other = key then some thing else entries.lookup other := by
  rw [List.lookup_append, List.lookup_cons, List.lookup_nil]
  by_cases hother : other = key
  · subst hother
    simp [h]
  · simp [hother, beq_eq_false_iff_ne.mpr hother]

end Cadence
