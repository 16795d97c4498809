import Mathlib
import Cadence.Proofs.Number.Notation
import Cadence.Toml.Print
import Cadence.Toml.Scalar

/-!
# Numbers in TOML documents

The word that is written for a number is read as that number: an integer exactly, and a binary64 number bit
for bit, an infinity and an undefined number included.

- `number?_integer` and `number?_float`: the number that a written one is read as;
- `word?_numeral`: the word of a number is no date, no truth value and in no other base.
-/

namespace Cadence.Toml

open Number

variable {cs ds rest : List Char}

/-! ## Digits -/

theorem decimal?_digits (hne : cs ≠ []) (hcs : ∀ c ∈ cs, c.isDigit = true) : decimal? cs = some cs := by
  unfold decimal?
  fun_induction ungroup? Char.isDigit cs with
  | case1 => exact absurd rfl hne
  | case2 => rfl
  | case4 => exact absurd (hcs '_' (by simp)) (by decide)
  | case6 c rest hrest _ _ ih =>
    rw [ih hrest fun d hd => hcs d (List.mem_cons_of_mem c hd), Option.map_some]
  | case3 c h => exact absurd (hcs c List.mem_cons_self) h
  | case5 c _ h => exact absurd (hcs c List.mem_cons_self) h
  | case7 c _ _ _ h => exact absurd (hcs c List.mem_cons_self) h

theorem wholePart?_eq (h : WholeDigits cs) : wholePart? cs = some cs := by
  rw [wholePart?, if_neg fun ⟨hzero, hne⟩ => hne (h.head hzero), decimal?_digits h.ne_nil h.isDigit]

theorem isGrouped_of_isDigit {c : Char} (h : c.isDigit = true) : isGrouped c = true := by
  rw [isGrouped, h, Bool.true_or]

/-- Whole digits alone have no point. -/
theorem fractional?_whole (h : WholeDigits cs) : fractional? cs = none := by
  have hgrouped := fun c hc => isGrouped_of_isDigit (h.isDigit c hc)
  rw [fractional?, List.takeWhile_eq_self_iff.mpr hgrouped, List.dropWhile_eq_nil_iff.mpr hgrouped,
    wholePart?_eq h]
  rfl

/-- Whole digits, a point and places are read as the decimal that they denote. -/
theorem fractional?_places (h : WholeDigits cs) (hne : ds ≠ []) (hds : ∀ d ∈ ds, d.isDigit = true) :
    fractional? (cs ++ '.' :: ds) = some ⟨digitsValue (cs ++ ds), -(ds.length : ℤ)⟩ := by
  have hgrouped := fun c hc => isGrouped_of_isDigit (h.isDigit c hc)
  have hplaces := fun d hd => isGrouped_of_isDigit (hds d hd)
  have htake := List.takeWhile_eq_self_iff.mpr hplaces
  have hdrop := List.dropWhile_eq_nil_iff.mpr hplaces
  rw [fractional?, takeWhile_run hgrouped (by simp; decide), dropWhile_run hgrouped (by simp; decide),
    wholePart?_eq h]
  simp [htake, hdrop, decimal?_digits hne hds, exponent?]

/-! ## Numbers -/

/-- Digits are neither of the two words for numbers that are not finite. -/
theorem ne_word_of_digits (hcs : ∀ c ∈ cs.head?, c.isDigit = true) :
    cs ≠ "inf".toList ∧ cs ≠ "nan".toList := by
  constructor
  all_goals
    rintro rfl
    exact absurd (hcs _ rfl) (by decide)

/-- Digits carry no sign. -/
theorem signed_of_digits (hcs : ∀ c ∈ cs.head?, c.isDigit = true) : signed cs = (false, cs) := by
  unfold signed
  split
  · exact absurd (hcs '-' rfl) (by decide)
  · exact absurd (hcs '+' rfl) (by decide)
  · rfl

/-- The text of an integer is its digits, after a minus sign if it is negative. -/
theorem toList_toString (n : ℤ) :
    (toString n).toList = if n < 0 then '-' :: Nat.toDigits 10 n.natAbs else Nat.toDigits 10 n.natAbs := by
  rw [Int.toString_eq_repr, Int.repr_eq_if]
  split_ifs with h h'
  · omega
  · rw [Nat.toList_repr, show n.toNat = n.natAbs by omega]
  · rw [String.toList_append, Nat.toList_repr, show (-n).toNat = n.natAbs by omega]
    rfl
  · omega

/-- An integer is read as it was written. -/
theorem number?_integer {n : ℤ} (h : isInteger n = true) :
    number? (toString n).toList = some (.integer n) := by
  have hdigits := wholeDigits_toDigits n.natAbs
  have hhead := hdigits.head?_isDigit []
  rw [List.append_nil] at hhead
  obtain ⟨hinf, hnan⟩ := ne_word_of_digits hhead
  rw [toList_toString]
  split_ifs with hneg
  · simp only [number?, signed, if_neg hinf, if_neg hnan, fractional?_whole hdigits, wholePart?_eq hdigits,
      Option.bind_eq_bind, Option.bind_some, if_true, digitsValue_toDigits]
    rw [show -(n.natAbs : ℤ) = n by omega, integer?, if_pos h]
  · simp only [number?, signed_of_digits hhead, if_neg hinf, if_neg hnan, fractional?_whole hdigits,
      wholePart?_eq hdigits, Option.bind_eq_bind, Option.bind_some, digitsValue_toDigits, Bool.false_eq_true,
      if_false]
    rw [show (n.natAbs : ℤ) = n by omega, integer?, if_pos h]

/-- The text of a finite number is what its shortest decimal is written as, after a minus sign if the sign bit
is set. -/
theorem toList_render_finite {x : Float} {m : Magnitude} (hx : magnitude? x = some m) :
    (Layout.settings.render x).toList =
      (if isNegative x then ['-'] else []) ++ ((m.shortest .upwards).plain true).toList := by
  have hplain : Layout.settings.isPlain (m.shortest .upwards) = true := Bool.or_true _
  have hlayout : (Layout.settings.tie, Layout.settings.wholePoint) = (.upwards, true) := rfl
  rw [Prod.mk.injEq] at hlayout
  simp only [Layout.render, hx, hlayout.1, hlayout.2, hplain, if_true, String.toList_append]
  split_ifs <;> rfl

theorem number?_finite {x : Float} {m : Magnitude} (hx : magnitude? x = some m) :
    number? (Layout.settings.render x).toList = some (.float x) := by
  obtain ⟨whole, places, hparts⟩ := plain_parts (shortest_digits hx .upwards)
  have hhead := hparts.wholeDigits.head?_isDigit ('.' :: places)
  obtain ⟨hinf, hnan⟩ := ne_word_of_digits hhead
  have hback := ofDecimal_of_shortest hx hparts.real_eq
  have hfractional := fractional?_places hparts.wholeDigits hparts.places_ne_nil hparts.isDigit
  rw [toList_render_finite hx, hparts.toList_eq]
  by_cases hneg : isNegative x = true
  · rw [if_pos hneg] at hback ⊢
    simp only [List.singleton_append, number?, signed, if_neg hinf, if_neg hnan, hfractional, Bool.not_true,
      Bool.and_false, Bool.false_eq_true, if_false, if_true, hback]
  · rw [if_neg hneg] at hback ⊢
    have hfinite : x.isInf = false := isInf_of_isFinite (abs_value_of_magnitude? hx).1
    simp only [List.nil_append, number?, signed_of_digits hhead, if_neg hinf, if_neg hnan, hfractional, hback,
      hfinite, Bool.false_and, Bool.false_eq_true, if_false]

/-- A binary64 number is read as it was written, also one that is not finite. -/
theorem number?_float (x : Float) : number? (Layout.settings.render x).toList = some (.float x) := by
  cases hx : magnitude? x with
  | some m => exact number?_finite hx
  | none =>
    -- A number that is not finite is written as a word, under its sign if it is infinite.
    have hnot : ¬ x.isFinite = true := fun h => by
      obtain ⟨m, hm⟩ := magnitude?_of_isFinite h
      cases hx.symm.trans hm
    by_cases hnan : x.isNaN = true
    · have hrender : (Layout.settings.render x).toList = "nan".toList := by
        simp only [Layout.render, hx, if_pos hnan]
        rfl
      rw [hrender, show x = 0.0 / 0.0 from eq_of_isNaN hnan (by decide +kernel)]
      rfl
    · obtain ⟨s, hs⟩ := (finite_or_infinite (Bool.not_eq_true _ ▸ hnan)).resolve_left hnot
      have hnegative := isNegative_of_unpack hs (.inr (.inl rfl))
      have hback := ofModel_pack_unpack x
      rw [hs] at hback
      simp only [Layout.render, hx, if_neg hnan]
      cases s with
      | negative =>
        rw [if_pos (hnegative.mpr rfl), ← hback]
        rfl
      | positive =>
        rw [if_neg (by rw [hnegative]; exact nofun), ← hback]
        rfl

/-! ## Words -/

/-- A character of a written number. -/
def isNumeral (c : Char) : Bool := c.isDigit || c ∈ ['-', '.', 'a', 'f', 'i', 'n']

/-- The form of a written number: a sign only stands in front. -/
structure Numeral (cs : List Char) : Prop where
  /-- There is a character. -/
  ne_nil : cs ≠ []
  /-- There are no others than those of numbers. -/
  isNumeral : ∀ c ∈ cs, isNumeral c = true
  /-- The minus sign stands in front. -/
  sign : '-' ∉ cs.tail

theorem numeral_integer (n : ℤ) : Numeral (toString n).toList := by
  have hdigits := wholeDigits_toDigits n.natAbs
  have hnumeral : ∀ c ∈ Nat.toDigits 10 n.natAbs, isNumeral c = true := fun c hc => by
    rw [isNumeral, hdigits.isDigit c hc, Bool.true_or]
  have hsign : '-' ∉ Nat.toDigits 10 n.natAbs := fun h => absurd (hdigits.isDigit '-' h) (by decide)
  rw [toList_toString]
  split_ifs
  · exact ⟨by simp, List.forall_mem_cons.mpr ⟨by decide, hnumeral⟩, hsign⟩
  · exact ⟨hdigits.ne_nil, hnumeral, fun h => hsign (List.mem_of_mem_tail h)⟩

theorem numeral_float (x : Float) : Numeral (Layout.settings.render x).toList := by
  cases hx : magnitude? x with
  | some m =>
    obtain ⟨whole, places, hparts⟩ := plain_parts (shortest_digits hx .upwards)
    have hbody : ∀ c ∈ whole ++ '.' :: places, isNumeral c = true ∧ c ≠ '-' := by
      intro c hc
      rcases List.mem_append.mp hc with hc | hc
      · have hdigit := hparts.wholeDigits.isDigit c hc
        exact ⟨by rw [isNumeral, hdigit, Bool.true_or], by rintro rfl; exact absurd hdigit (by decide)⟩
      · rcases List.mem_cons.mp hc with rfl | hc
        · decide
        · have hdigit := hparts.isDigit c hc
          exact ⟨by rw [isNumeral, hdigit, Bool.true_or], by rintro rfl; exact absurd hdigit (by decide)⟩
    rw [toList_render_finite hx, hparts.toList_eq]
    split_ifs
    · exact ⟨by simp, List.forall_mem_cons.mpr ⟨by decide, fun c hc => (hbody c hc).1⟩,
        fun h => (hbody '-' h).2 rfl⟩
    · exact ⟨by simp, fun c hc => (hbody c hc).1, fun h => (hbody '-' (List.mem_of_mem_tail h)).2 rfl⟩
  | none =>
    have hundefined : Numeral ['n', 'a', 'n'] := ⟨by decide, by simp [isNumeral], by decide⟩
    have hpositive : Numeral ['i', 'n', 'f'] := ⟨by decide, by simp [isNumeral], by decide⟩
    have hnegative : Numeral ['-', 'i', 'n', 'f'] := ⟨by decide, by simp [isNumeral], by decide⟩
    simp only [Layout.render, hx]
    split_ifs
    · exact hundefined
    · exact hnegative
    · exact hpositive

theorem after?_of_not_mem {c : Char} (h : c ∉ cs) : after? c cs = none := by
  cases cs with
  | nil => rfl
  | cons d cs => exact if_neg fun (heq : c = d) => h (heq ▸ List.mem_cons_self)

/-- There is no minus sign after a year. -/
theorem day?_numeral (h : Numeral cs) : day? cs = none := by
  have hsign : '-' ∉ cs.drop 4 := fun hmem => h.sign (List.mem_of_mem_drop (i := 3) (by simpa using hmem))
  unfold day?
  simp only [after?_of_not_mem hsign, Option.bind_eq_bind, Option.bind_none, ite_self]

/-- There is no colon after an hour. -/
theorem time?_numeral (h : Numeral cs) : time? cs = none := by
  have hcolon : ':' ∉ cs := fun hmem => absurd (h.isNumeral ':' hmem) (by decide)
  unfold time?
  cases hhour : twoDigits? 0 23 cs with
  | none => rfl
  | some parts =>
    obtain ⟨hour, rest⟩ := parts
    have hrest : ':' ∉ rest := by
      unfold twoDigits? at hhour
      split at hhour
      · simp only at hhour
        split_ifs at hhour
        cases hhour
        exact fun hmem => hcolon (List.mem_cons_of_mem _ (List.mem_cons_of_mem _ hmem))
      · cases hhour
    simp only [Option.bind_eq_bind, Option.bind_some, after?_of_not_mem hrest, Option.bind_none]

theorem isDate_numeral (h : Numeral cs) : isDate cs = false := by
  rw [isDate, day?_numeral h, time?_numeral h]
  rfl

/-- The word of a number is read as a number. -/
theorem word?_numeral (h : Numeral cs) : word? cs = number? cs := by
  have htail : ∀ c ∈ cs, c ≠ 'x' ∧ c ≠ 'o' ∧ c ≠ 'b' ∧ c ≠ 't' ∧ c ≠ 'e' := by
    intro c hc
    have := h.isNumeral c hc
    refine ⟨?_, ?_, ?_, ?_, ?_⟩
    all_goals
      rintro rfl
      exact absurd this (by decide)
  unfold word?
  rw [isDate_numeral h, if_neg Bool.false_ne_true]
  split
  · exact absurd rfl (htail 'x' (by simp)).1
  · exact absurd rfl (htail 'o' (by simp)).2.1
  · exact absurd rfl (htail 'b' (by simp)).2.2.1
  · split_ifs with htrue hfalse
    · exact absurd rfl (htail 't' (by rw [htrue]; simp)).2.2.2.1
    · exact absurd rfl (htail 'e' (by rw [hfalse]; simp)).2.2.2.2
    · rfl

end Cadence.Toml
