import Mathlib
import Cadence.Meter.Text
import Cadence.Proofs.Number.Digits

/-!
# Meters as they are typed

What is accepted as a meter is a grammar over all texts: two counts around the first slash, with
blanks around each of them. A count is a plus sign or none, then digits, whose value fits in 32 bits
and is not zero.

- `IsCount`, `IsWritten`: the grammar;
- `readCount_eq_ok_iff`: which texts are read as a count;
- `ofText_eq_ok_iff`: which meter is read from a text;
- `ofText_reads_grammar`: the texts that are accepted, and that a meter is read back from its own text.
-/

namespace Cadence

open Number

/-! ## Counts -/

namespace Number

/-- A text is a count: digits, at least one, behind a plus sign or none. -/
def IsCount (cs : List Char) (n : ℕ) : Prop :=
  ∃ digits, (cs = digits ∨ cs = '+' :: digits) ∧ digits ≠ [] ∧
    (∀ c ∈ digits, c.isDigit = true) ∧ digitsValue digits = n

/-- Further digits never make a number smaller. -/
theorem le_foldl_digits (cs : List Char) (n : ℕ) :
    n ≤ cs.foldl (fun n c => n * 10 + digitValue c) n := by
  induction cs generalizing n with
  | nil => exact le_rfl
  | cons c rest ih =>
    have hdigit : n ≤ n * 10 + digitValue c := by omega
    exact hdigit.trans (ih _)

/-- Digits are read on as long as they stay within the limit. Since a number only grows with further
digits, it does so if the whole of it does. -/
theorem countDigits_eq_ok_iff {limit n m : ℕ} {cs : List Char} (hn : n ≤ limit) :
    countDigits limit n cs = .ok m ↔ (∀ c ∈ cs, c.isDigit = true) ∧
      cs.foldl (fun n c => n * 10 + digitValue c) n = m ∧ m ≤ limit := by
  induction cs generalizing n with
  | nil =>
    simp only [countDigits, List.foldl_nil, Except.ok.injEq]
    constructor
    · rintro rfl
      exact ⟨by simp, rfl, hn⟩
    · exact fun h => h.2.1
  | cons c rest ih =>
    rw [countDigits, List.forall_mem_cons, List.foldl_cons]
    by_cases hdigit : c.isDigit = true
    · rw [if_neg (by simp [hdigit])]
      by_cases hlimit : limit < n * 10 + digitValue c
      · rw [if_pos hlimit]
        refine iff_of_false nofun ?_
        rintro ⟨-, rfl, hle⟩
        exact absurd (hlimit.trans_le (le_foldl_digits rest _)) (not_lt.mpr hle)
      · rw [if_neg hlimit, ih (not_lt.mp hlimit)]
        simp [hdigit]
    · rw [if_pos (by simp [hdigit])]
      exact iff_of_false nofun fun h => hdigit h.1.1

/-- A count is read if it is not above the limit, and nothing else is. -/
theorem readCount_eq_ok_iff {limit n : ℕ} {cs : List Char} :
    readCount limit cs = .ok n ↔ IsCount cs n ∧ n ≤ limit := by
  have hread (digits : List Char) :
      countDigits limit 0 digits = .ok n ↔
        (∀ c ∈ digits, c.isDigit = true) ∧ digitsValue digits = n ∧ n ≤ limit :=
    countDigits_eq_ok_iff (Nat.zero_le limit)
  -- The reader tells nothing at all, a sign alone, a sign with more behind it, and no sign apart.
  unfold readCount IsCount
  split
  · refine iff_of_false nofun ?_
    rintro ⟨⟨digits, rfl | hsign, hne, -⟩, -⟩
    · exact hne rfl
    · cases hsign
  · refine iff_of_false nofun ?_
    rintro ⟨⟨digits, rfl | hsign, hne, hdigits, -⟩, -⟩
    · exact absurd (hdigits '+' (.head _)) (by decide)
    · exact hne (List.cons.inj hsign).2.symm
  · rename_i digits hne
    rw [hread]
    constructor
    · rintro ⟨hdigits, hvalue, hle⟩
      exact ⟨⟨digits, .inr rfl, hne, hdigits, hvalue⟩, hle⟩
    · rintro ⟨⟨digits', rfl | hsign, -, hdigits, hvalue⟩, hle⟩
      · exact absurd (hdigits '+' (.head _)) (by decide)
      · obtain rfl := (List.cons.inj hsign).2
        exact ⟨hdigits, hvalue, hle⟩
  · rename_i hne _ hunsigned
    rw [hread]
    constructor
    · rintro ⟨hdigits, hvalue, hle⟩
      exact ⟨⟨cs, .inl rfl, hne, hdigits, hvalue⟩, hle⟩
    · rintro ⟨⟨digits, rfl | rfl, -, hdigits, hvalue⟩, hle⟩
      · exact ⟨hdigits, hvalue, hle⟩
      · exact absurd rfl (hunsigned digits)

theorem isCount_toDigits (n : ℕ) : IsCount (Nat.toDigits 10 n) n :=
  ⟨_, .inl rfl, Nat.toDigits_ne_nil, fun _ => isDigit_of_mem_toDigits, digitsValue_toDigits n⟩

end Number

/-! ## Blanks around a count -/

namespace Text

/-- What is left of some characters, and the blanks that were around it. -/
theorem exists_trim (cs : List Char) :
    ∃ left right, cs = left ++ trim cs ++ right ∧ (∀ c ∈ left, isBlank c = true) ∧
      ∀ c ∈ right, isBlank c = true := by
  refine ⟨cs.takeWhile isBlank, ((cs.dropWhile isBlank).reverse.takeWhile isBlank).reverse, ?_,
    fun c hc => List.mem_takeWhile_imp hc,
    fun c hc => List.mem_takeWhile_imp (List.mem_reverse.mp hc)⟩
  rw [trim, List.append_assoc, ← List.reverse_append, List.takeWhile_append_dropWhile,
    List.reverse_reverse, List.takeWhile_append_dropWhile]

/-- Blanks around characters that are none are taken off. -/
theorem trim_append {left cs right : List Char} (hleft : ∀ c ∈ left, isBlank c = true)
    (hcs : ∀ c ∈ cs, isBlank c = false) (hne : cs ≠ []) (hright : ∀ c ∈ right, isBlank c = true) :
    trim (left ++ cs ++ right) = cs := by
  have hfirst : ∀ c ∈ (cs ++ right).head?, isBlank c = false := by
    intro c hc
    rw [List.head?_append_of_ne_nil _ hne] at hc
    exact hcs c (List.mem_of_mem_head? hc)
  have hlast : ∀ c ∈ cs.reverse.head?, isBlank c = false :=
    fun c hc => hcs c (List.mem_reverse.mp (List.mem_of_mem_head? hc))
  rw [trim, List.append_assoc, dropWhile_run hleft hfirst, List.reverse_append,
    dropWhile_run (fun c hc => hright c (List.mem_reverse.mp hc)) hlast, List.reverse_reverse]

/-- Neither a digit nor a plus sign is blank. -/
theorem not_isBlank_of_isDigit {c : Char} (h : c.isDigit = true) : isBlank c = false := by
  obtain ⟨hge, hle⟩ := Char.isDigit_iff_toNat.mp h
  have hfirst : '0'.toNat = 48 := rfl
  have hlast : '9'.toNat = 57 := rfl
  simp only [isBlank, blankRanges, CharRanges.contain, List.any_cons, List.any_nil, Bool.or_false,
    Bool.or_eq_false_iff, Bool.and_eq_false_iff, decide_eq_false_iff_not]
  omega

theorem not_isBlank_of_isCount {cs : List Char} {n : ℕ} (h : IsCount cs n) :
    ∀ c ∈ cs, isBlank c = false := by
  obtain ⟨digits, rfl | rfl, -, hdigits, -⟩ := h
  · exact fun c hc => not_isBlank_of_isDigit (hdigits c hc)
  · refine List.forall_mem_cons.mpr ⟨by decide, ?_⟩
    exact fun c hc => not_isBlank_of_isDigit (hdigits c hc)

/-- A text is a count with blanks in front of it and behind it at will. -/
def IsPadded (cs : List Char) (n : ℕ) : Prop :=
  ∃ left count right, cs = left ++ count ++ right ∧ (∀ c ∈ left, isBlank c = true) ∧
    IsCount count n ∧ ∀ c ∈ right, isBlank c = true

/-- What is left of a text without the blanks around it is a count if the text is a padded one. -/
theorem isCount_trim_iff {cs : List Char} {n : ℕ} : IsCount (trim cs) n ↔ IsPadded cs n := by
  constructor
  · intro h
    obtain ⟨left, right, hcs, hleft, hright⟩ := exists_trim cs
    exact ⟨left, trim cs, right, hcs, hleft, h, hright⟩
  · -- A count has no blanks at its ends, so all those around it are taken off, and no more.
    rintro ⟨left, count, right, rfl, hleft, h, hright⟩
    have hne : count ≠ [] := by
      obtain ⟨digits, rfl | rfl, hne, -⟩ := h
      · exact hne
      · exact List.cons_ne_nil _ _
    rwa [trim_append hleft (not_isBlank_of_isCount h) hne hright]

end Text

/-! ## Meters -/

namespace Meter

open Text

/-- A text is two counts with a slash between them, and blanks around each of them at will. The
slash is the first one of the text. -/
def IsWritten (text : String) (n d : ℕ) : Prop :=
  ∃ before after, text.toList = before ++ '/' :: after ∧ '/' ∉ before ∧
    IsPadded before n ∧ IsPadded after d

/-- One of the numbers is read if it is a count that fits. -/
theorem readMeterPart_eq_ok_iff {cs : List Char} {n : UInt32} :
    readMeterPart cs = .ok n ↔ IsPadded cs n.toNat := by
  rw [← isCount_trim_iff]
  unfold readMeterPart
  constructor
  · intro h
    split at h
    · rename_i m hread
      obtain ⟨hcount, hle⟩ := readCount_eq_ok_iff.mp hread
      obtain rfl := Except.ok.inj h
      have hfits : m < UInt32.size := by
        have hsize : UInt32.size = 4294967296 := rfl
        omega
      rwa [UInt32.toNat_ofNat_of_lt' hfits]
    · cases h
  · intro h
    have hle : n.toNat ≤ UInt32.size - 1 := Nat.le_sub_one_of_lt n.toNat_lt
    rw [readCount_eq_ok_iff.mpr ⟨h, hle⟩]
    exact congrArg Except.ok (UInt32.ofNat_toNat)

theorem make_eq_ok_iff {n d : UInt32} {m : Meter} :
    make n d = .ok m ↔ m.numerator = n ∧ m.denominator = d := by
  unfold make
  constructor
  · intro h
    split_ifs at h with hne
    obtain rfl := Except.ok.inj h
    exact ⟨rfl, rfl⟩
  · rintro ⟨rfl, rfl⟩
    rw [dif_pos ⟨m.numerator_ne_zero, m.denominator_ne_zero⟩]

/-- The first slash is where the characters that are none end. -/
theorem takeWhile_slash {before : List Char} (h : '/' ∉ before) (after : List Char) :
    (before ++ '/' :: after).takeWhile (· ≠ '/') = before ∧
      (before ++ '/' :: after).dropWhile (· ≠ '/') = '/' :: after := by
  have hbefore : ∀ c ∈ before, decide (c ≠ '/') = true := by
    intro c hc
    exact decide_eq_true fun heq => h (heq ▸ hc)
  have hslash : ∀ c ∈ ('/' :: after).head?, decide (c ≠ '/') = false := by simp
  exact ⟨takeWhile_run hbefore hslash, dropWhile_run hbefore hslash⟩

/-- A text with a slash is read part by part. -/
theorem ofText_of_slash {text : String} {before after : List Char}
    (htext : text.toList = before ++ '/' :: after) (hbefore : '/' ∉ before) {m : Meter} :
    ofText text = .ok m ↔
      readMeterPart before = .ok m.numerator ∧ readMeterPart after = .ok m.denominator := by
  obtain ⟨htake, hdrop⟩ := takeWhile_slash hbefore after
  unfold ofText
  simp only [htext, htake, hdrop]
  cases hn : readMeterPart before with
  | error fault => exact iff_of_false nofun fun h => nomatch h.1
  | ok n =>
    cases hd : readMeterPart after with
    | error fault => exact iff_of_false nofun fun h => nomatch h.2
    | ok d =>
      have hmake := make_eq_ok_iff (n := n) (d := d) (m := m)
      simp only [bind, Except.bind, Except.ok.injEq]
      rw [eq_comm (a := n), eq_comm (a := d), ← hmake]
      cases make n d <;> simp

/-- A meter is read from just those texts that are its two numbers around a slash. -/
theorem ofText_eq_ok_iff {text : String} {m : Meter} :
    ofText text = .ok m ↔ IsWritten text m.numerator.toNat m.denominator.toNat := by
  constructor
  · intro h
    by_cases hslash : '/' ∈ text.toList
    · obtain ⟨before, after, htext, hbefore⟩ := List.eq_append_cons_of_mem hslash
      obtain ⟨hn, hd⟩ := (ofText_of_slash htext hbefore).mp h
      exact ⟨before, after, htext, hbefore, readMeterPart_eq_ok_iff.mp hn,
        readMeterPart_eq_ok_iff.mp hd⟩
    · -- Without a slash there is no second part.
      have hnone : text.toList.dropWhile (· ≠ '/') = [] := by
        rw [List.dropWhile_eq_nil_iff]
        intro c hc
        exact decide_eq_true fun heq => hslash (heq ▸ hc)
      unfold ofText at h
      simp only [hnone] at h
      cases h
  · rintro ⟨before, after, htext, hbefore, hn, hd⟩
    exact (ofText_of_slash htext hbefore).mpr
      ⟨readMeterPart_eq_ok_iff.mpr hn, readMeterPart_eq_ok_iff.mpr hd⟩

/-- The text of a meter is its two numbers with a slash between them. -/
theorem isWritten_text (m : Meter) : IsWritten m.text m.numerator.toNat m.denominator.toNat := by
  have htext : m.text.toList =
      Nat.toDigits 10 m.numerator.toNat ++ '/' :: Nat.toDigits 10 m.denominator.toNat := by
    have hjoined : m.text = m.numerator.toNat.repr ++ "/" ++ m.denominator.toNat.repr := rfl
    simp [hjoined, Nat.toList_repr]
  have hdigits (n : ℕ) : IsPadded (Nat.toDigits 10 n) n :=
    ⟨[], _, [], by simp, nofun, isCount_toDigits n, nofun⟩
  refine ⟨_, _, htext, fun hslash => ?_, hdigits _, hdigits _⟩
  exact absurd (isDigit_of_mem_toDigits hslash) (by decide)

/-- The numbers of a meter are those from 1 to 4294967295. -/
theorem exists_toNat_eq_iff {n : ℕ} :
    (∃ k : UInt32, k ≠ 0 ∧ k.toNat = n) ↔ n ∈ Set.Icc 1 4294967295 := by
  constructor
  · rintro ⟨k, hk, rfl⟩
    refine ⟨Nat.one_le_iff_ne_zero.mpr fun hzero => hk (UInt32.toNat_inj.mp hzero), ?_⟩
    exact Nat.le_of_lt_succ k.toNat_lt
  · rintro ⟨hpos, hle⟩
    have hvalue : (UInt32.ofNat n).toNat = n := UInt32.toNat_ofNat_of_lt' (Nat.lt_succ_of_le hle)
    refine ⟨.ofNat n, fun hzero => ?_, hvalue⟩
    rw [hzero] at hvalue
    exact absurd hpos (by rw [← hvalue]; decide)

/-- A text is accepted just when it is two counts around its first slash, blanks aside, each of which
is from 1 to 4294967295, and it is then read as the meter of these two numbers. So a meter is read
back from its own text. -/
theorem ofText_reads_grammar :
    (∀ text, (∃ m, ofText text = .ok m) ↔
      ∃ n d, IsWritten text n d ∧ n ∈ Set.Icc 1 4294967295 ∧ d ∈ Set.Icc 1 4294967295) ∧
    (∀ text m, ofText text = .ok m ↔ IsWritten text m.numerator.toNat m.denominator.toNat) ∧
    ∀ m : Meter, ofText m.text = .ok m := by
  refine ⟨fun text => ⟨?_, ?_⟩, fun text m => ofText_eq_ok_iff,
    fun m => ofText_eq_ok_iff.mpr (isWritten_text m)⟩
  · rintro ⟨m, hread⟩
    exact ⟨_, _, ofText_eq_ok_iff.mp hread, exists_toNat_eq_iff.mp ⟨_, m.numerator_ne_zero, rfl⟩,
      exists_toNat_eq_iff.mp ⟨_, m.denominator_ne_zero, rfl⟩⟩
  · rintro ⟨n, d, hwritten, hn, hd⟩
    obtain ⟨numerator, hnumerator, rfl⟩ := exists_toNat_eq_iff.mpr hn
    obtain ⟨denominator, hdenominator, rfl⟩ := exists_toNat_eq_iff.mpr hd
    exact ⟨⟨numerator, denominator, hnumerator, hdenominator⟩, ofText_eq_ok_iff.mpr hwritten⟩

/-- Further slashes, inner blanks and other signs are refused, zeros in front are not. -/
example : (ofText " +007\t/ 8 ").toOption = (make 7 8).toOption ∧
    ["7/8/9", "1 2/8", "-7/8", "/8", "7/4294967296", "0/4"].all
      (fun text => (ofText text).toOption = none) := by
  decide +kernel

end Meter

end Cadence
