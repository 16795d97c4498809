import Mathlib
import Cadence.Proofs.Toml.Scalar
import Cadence.Toml.Document

/-!
# Lines of TOML documents

A value is read from what was written for it, whatever follows that ends it, and so is a line with an
assignment or with a header.

- `value?_chars`: a written value is read back;
- `statement?_assignment` and `statement?_header`: so is a line.
-/

namespace Cadence.Toml

open Number

variable {cs rest : List Char} {v : Value}

/-! ## What can be written and read -/

/-- A text, a number or a truth value. A text holds no character that would have to be escaped and is not. -/
def Value.LegibleScalar : Value → Prop
  | .text value => ∀ c ∈ value.toList, isPrintable c = true
  | .integer _ | .float _ | .bool _ => True
  | .date | .array _ | .table _ => False

/-- One of these, or a list of them. -/
def Value.Legible : Value → Prop
  | .array items => ∀ item ∈ items, item.LegibleScalar
  | v => v.LegibleScalar

/-- What follows a value: the end of its line, or a comma. -/
def Ends (rest : List Char) : Prop := rest.head? = some '\n' ∨ rest.head? = some ','

theorem Ends.head {p : Char → Prop} (h : Ends rest) (hbreak : p '\n') (hcomma : p ',') :
    ∀ c ∈ rest.head?, p c := by
  intro c hc
  rcases h with h | h
  all_goals
    cases h.symm.trans hc
    assumption

theorem isBlank_eq_false {p : Char → Bool} {c : Char} (hspace : p ' ' = false) (htab : p '\t' = false)
    (hc : p c = true) : isBlank c = false := by
  by_contra hblank
  rw [Bool.not_eq_false, isBlank, Bool.or_eq_true, decide_eq_true_eq, decide_eq_true_eq] at hblank
  rcases hblank with rfl | rfl
  · exact absurd (hspace.symm.trans hc) Bool.false_ne_true
  · exact absurd (htab.symm.trans hc) Bool.false_ne_true

/-! ## Scalars -/

/-- A text is read back from between its quotes. -/
theorem quotedBody?_escaped {fuel : ℕ} {chars : List Char} (hchars : ∀ c ∈ chars, isPrintable c = true)
    (hfuel : chars.length < fuel) :
    quotedBody? fuel (chars.flatMap escaped ++ '"' :: rest) = some (chars, rest) := by
  induction chars generalizing fuel with
  | nil =>
    obtain ⟨fuel, rfl⟩ := Nat.exists_eq_add_one_of_ne_zero (show fuel ≠ 0 by omega)
    simp [quotedBody?]
  | cons c chars ih =>
    obtain ⟨fuel, rfl⟩ := Nat.exists_eq_add_one_of_ne_zero (show fuel ≠ 0 by omega)
    rw [List.length_cons] at hfuel
    have hmore := ih (fun d hd => hchars d (List.mem_cons_of_mem c hd)) (show chars.length < fuel by omega)
    rw [List.flatMap_cons, List.append_assoc]
    -- The two characters that are escaped are named by themselves.
    by_cases hquote : c = '"'
    · simp [escaped, hquote, quotedBody?, escape?, hmore]
    · by_cases hslash : c = '\\'
      · simp [escaped, hslash, quotedBody?, escape?, hmore]
      · simp [escaped, hquote, hslash, quotedBody?, hchars c List.mem_cons_self, hmore]

/-- No text begins with the quote that ends it. -/
theorem escaped_ne_quote (c : Char) (cs : List Char) : escaped c ≠ '"' :: cs := by
  unfold escaped
  split_ifs with hquote
  · exact nofun
  · exact nofun
  · rintro ⟨rfl, -⟩
    exact hquote rfl

theorem escaped_ne_nil (c : Char) : escaped c ≠ [] := by
  unfold escaped
  split_ifs <;> simp

/-- A text between quotes is read back, also when nothing stands between them. -/
theorem text?_quoted {chars : List Char} (hchars : ∀ c ∈ chars, isPrintable c = true) (hrest : Ends rest) :
    text? ('"' :: (chars.flatMap escaped ++ '"' :: rest)) = some (chars, rest) := by
  have hshort : shortText? ('"' :: (chars.flatMap escaped ++ '"' :: rest)) = some (chars, rest) := by
    refine quotedBody?_escaped hchars ?_
    have := length_le_flatMap escaped_ne_nil chars
    rw [List.length_append]
    omega
  rw [← hshort]
  unfold text?
  split
  next longer heq =>
    -- Three quotes would need one more behind an empty text, or one in front of another text.
    rw [List.cons.injEq] at heq
    cases chars with
    | nil =>
      cases heq.2
      exact absurd hrest (by simp [Ends])
    | cons c chars =>
      obtain ⟨d, ds, hescaped⟩ := List.exists_cons_of_ne_nil (escaped_ne_nil c)
      rw [List.flatMap_cons, hescaped] at heq
      have hd : d = '"' := by simpa using congrArg List.head? heq.2
      exact absurd (hd ▸ hescaped) (escaped_ne_quote c ds)
  next longer heq => cases heq
  next => rfl

/-- A word is read up to where it ends. -/
theorem scalar?_word (hcs : ∀ c ∈ cs, isWordChar c = true) (hday : day? cs = none)
    (hword : word? cs = some v) (hrest : Ends rest) : scalar? (cs ++ rest) = some (v, rest) := by
  have hstop : ∀ c ∈ rest.head?, isWordChar c = false := hrest.head (by decide) (by decide)
  have hparts : wordParts (cs ++ rest) = (cs, rest) := by
    simp only [wordParts, takeWhile_run hcs hstop, dropWhile_run hcs hstop, hday]
  rw [scalar?, hparts]
  simp [hword]

/-- What a scalar starts with. -/
def startsScalar (c : Char) : Bool := c = '"' || isWordChar c

theorem isWordChar_of_isNumeral {c : Char} (h : isNumeral c = true) : isWordChar c = true := by
  unfold isNumeral at h
  rcases Bool.or_eq_true_iff.mp h with h | h
  · simp [isWordChar, Char.isAlphanum, h]
  · simp only [List.mem_cons, List.not_mem_nil, or_false, decide_eq_true_eq] at h
    rcases h with rfl | rfl | rfl | rfl | rfl | rfl <;> decide

/-- A word is read as a value. -/
theorem value?_word {c : Char} {fuel depth : ℕ} (hcs : ∀ d ∈ c :: cs, isWordChar d = true)
    (hread : scalar? (c :: cs ++ rest) = some (v, rest)) :
    value? (fuel + 1) depth (c :: cs ++ rest) = some (v, rest) := by
  have hc := hcs c List.mem_cons_self
  rw [List.cons_append] at hread ⊢
  unfold value?
  split
  all_goals
    first
    | exact hread
    | rename_i heq
      cases heq
      exact absurd hc (by decide)

/-- A scalar starts as one, and is read back. -/
theorem value?_scalarChars (fuel depth : ℕ) (hcs : v.scalarChars? = some cs) (hv : v.LegibleScalar)
    (hrest : Ends rest) :
    (∃ c tail, cs = c :: tail ∧ startsScalar c = true) ∧
      value? (fuel + 1) depth (cs ++ rest) = some (v, rest) := by
  have hnumeral {chars : List Char} (h : Numeral chars) (hread : number? chars = some v) :
      (∃ c tail, chars = c :: tail ∧ startsScalar c = true) ∧
        value? (fuel + 1) depth (chars ++ rest) = some (v, rest) := by
    obtain ⟨c, tail, rfl⟩ := List.exists_cons_of_ne_nil h.ne_nil
    have hword : ∀ d ∈ c :: tail, isWordChar d = true :=
      fun d hd => isWordChar_of_isNumeral (h.isNumeral d hd)
    refine ⟨⟨c, tail, rfl, ?_⟩, value?_word hword ?_⟩
    · rw [startsScalar, hword c List.mem_cons_self, Bool.or_true]
    · exact scalar?_word hword (day?_numeral h) ((word?_numeral h).trans hread) hrest
  -- A text has quotes around it, and every other scalar is a word.
  cases v with
  | text value =>
    cases hcs
    refine ⟨⟨_, _, rfl, rfl⟩, ?_⟩
    have hread := text?_quoted hv hrest
    unfold value?
    simp [hread]
  | integer n =>
    simp only [Value.scalarChars?] at hcs
    split_ifs at hcs with hn
    cases hcs
    exact hnumeral (numeral_integer n) (number?_integer hn)
  | float x =>
    cases hcs
    exact hnumeral (numeral_float x) (number?_float x)
  | bool value =>
    cases value with
    | true =>
      cases hcs
      have hword : ∀ d ∈ ['t', 'r', 'u', 'e'], isWordChar d = true := List.all_eq_true.mp rfl
      exact ⟨⟨_, _, rfl, rfl⟩, value?_word hword (scalar?_word hword rfl rfl hrest)⟩
    | false =>
      cases hcs
      have hword : ∀ d ∈ ['f', 'a', 'l', 's', 'e'], isWordChar d = true := List.all_eq_true.mp rfl
      exact ⟨⟨_, _, rfl, rfl⟩, value?_word hword (scalar?_word hword rfl rfl hrest)⟩
  | date | array _ | table _ => cases hcs

/-! ## Lists -/

/-- Between two lines of a list there is a line break and an indent. -/
theorem skipGap_indent (cs : List Char) :
    skipGap false ('\n' :: ("    ".toList ++ cs)) = skipGap false cs := by
  simp [skipGap, isBlank]

/-- A gap ends where a scalar starts. -/
theorem skipGap_startsScalar {c : Char} (hc : startsScalar c = true) (cs : List Char) :
    skipGap false (c :: cs) = c :: cs := by
  have hne : ∀ d ∈ ['\r', '\n', ' ', '\t', '#'], c ≠ d := by
    intro d hd heq
    subst heq
    simp only [List.mem_cons, List.not_mem_nil, or_false] at hd
    rcases hd with rfl | rfl | rfl | rfl | rfl <;> exact absurd hc (by decide)
  simp only [List.forall_mem_cons] at hne
  obtain ⟨hreturn, hbreak, hspace, htab, hcomment, -⟩ := hne
  rw [skipGap]
  · simp [isBlank, hbreak, hspace, htab, hcomment]
  · rintro rest rfl
    exact absurd rfl hreturn

theorem mapM_cons_eq_some {α β : Type} {f : α → Option β} {a : α} {l : List α} {r : List β} :
    (a :: l).mapM f = some r ↔ ∃ b bs, f a = some b ∧ l.mapM f = some bs ∧ r = b :: bs := by
  simp only [List.mapM_cons, Option.bind_eq_bind, Option.bind_eq_some_iff, Option.pure_def, Option.some.injEq,
    exists_and_left, @eq_comm _ r]

/-- The line of an item in a list. -/
def itemLine? (item : Value) : Option (List Char) := do
  pure ("    ".toList ++ (← item.scalarChars?) ++ [',', '\n'])

theorem length_le_lines {items : List Value} {lines : List (List Char)}
    (h : items.mapM itemLine? = some lines) : items.length ≤ lines.flatten.length := by
  induction items generalizing lines with
  | nil => exact Nat.zero_le _
  | cons item items ih =>
    obtain ⟨line, lines, hline, hlines, rfl⟩ := mapM_cons_eq_some.mp h
    obtain ⟨chars, -, hline⟩ := Option.bind_eq_some_iff.mp hline
    cases hline
    have := ih hlines
    simp only [List.length_cons, List.flatten_cons, List.length_append]
    omega

/-- The lines of a list are read as its items. -/
theorem items?_lines {items : List Value} {lines : List (List Char)} {fuel : ℕ} (depth : ℕ)
    (rest : List Char) (hlines : items.mapM itemLine? = some lines) (hitems : ∀ item ∈ items, item.LegibleScalar)
    (hfuel : items.length + 1 < fuel) :
    items? fuel depth ('\n' :: (lines.flatten ++ ']' :: rest)) = some (items, rest) := by
  induction items generalizing lines fuel with
  | nil =>
    cases hlines
    obtain ⟨fuel, rfl⟩ := Nat.exists_eq_add_one_of_ne_zero (show fuel ≠ 0 by omega)
    simp [items?, skipGap, isBlank]
  | cons item items ih =>
    obtain ⟨fuel, rfl⟩ := Nat.exists_eq_add_one_of_ne_zero (show fuel ≠ 0 by omega)
    rw [List.length_cons] at hfuel
    obtain ⟨line, lines, hline, hlines', rfl⟩ := mapM_cons_eq_some.mp hlines
    obtain ⟨chars, hchars, hline⟩ := Option.bind_eq_some_iff.mp hline
    cases hline
    have hmore := ih hlines' (fun other hother => hitems other (List.mem_cons_of_mem item hother))
      (show items.length + 1 < fuel by omega)
    obtain ⟨fuel, rfl⟩ := Nat.exists_eq_add_one_of_ne_zero (show fuel ≠ 0 by omega)
    obtain ⟨⟨c, tail, rfl, hc⟩, hread⟩ := value?_scalarChars fuel depth hchars
      (hitems item List.mem_cons_self)
      (show Ends (',' :: '\n' :: (lines.flatten ++ ']' :: rest)) from .inr rfl)
    have htext : '\n' :: ((("    ".toList ++ (c :: tail) ++ [',', '\n']) :: lines).flatten ++ ']' :: rest) =
        '\n' :: ("    ".toList ++ (c :: (tail ++ ',' :: '\n' :: (lines.flatten ++ ']' :: rest)))) := by
      simp
    have hgap : skipGap false (',' :: '\n' :: (lines.flatten ++ ']' :: rest)) =
        ',' :: '\n' :: (lines.flatten ++ ']' :: rest) := by
      simp [skipGap, isBlank]
    rw [htext, items?, skipGap_indent, skipGap_startsScalar hc]
    -- A scalar does not begin with the bracket that ends the list.
    split
    next heq =>
      cases heq
      exact absurd hc (by decide)
    next =>
      rw [List.cons_append] at hread
      simp [hread, hgap, hmore]

/-! ## Values and lines -/

/-- A written value starts with no blank, and is read back. -/
theorem value?_chars (fuel depth : ℕ) (hcs : v.chars? = some cs) (hv : v.Legible) (hrest : Ends rest)
    (hfuel : cs.length < fuel) :
    (∃ c tail, cs = c :: tail ∧ isBlank c = false) ∧
      value? fuel (depth + 1) (cs ++ rest) = some (v, rest) := by
  obtain ⟨fuel, rfl⟩ := Nat.exists_eq_add_one_of_ne_zero (show fuel ≠ 0 by omega)
  have hscalar (hcs : v.scalarChars? = some cs) (hv : v.LegibleScalar) :
      (∃ c tail, cs = c :: tail ∧ isBlank c = false) ∧
        value? (fuel + 1) (depth + 1) (cs ++ rest) = some (v, rest) := by
    obtain ⟨⟨c, tail, rfl, hc⟩, hread⟩ := value?_scalarChars fuel (depth + 1) hcs hv hrest
    exact ⟨⟨c, tail, rfl, isBlank_eq_false (by decide) (by decide) hc⟩, hread⟩
  cases v with
  | array items =>
    obtain ⟨lines, hlines, hcs⟩ := Option.bind_eq_some_iff.mp hcs
    cases hcs
    refine ⟨⟨'[', _, rfl, rfl⟩, ?_⟩
    have hlength := length_le_lines hlines
    have hread := items?_lines depth rest hlines hv (show items.length + 1 < fuel by
      simp only [List.length_append, List.length_cons, List.length_nil] at hfuel
      omega)
    have htext : ['[', '\n'] ++ lines.flatten ++ [']'] ++ rest =
        '[' :: '\n' :: (lines.flatten ++ ']' :: rest) := by simp
    rw [htext, value?]
    simp [hread]
  | text _ | integer _ | float _ | bool _ | date | table _ => exact hscalar hcs hv

/-- A key without quotes. -/
structure BareKey (name : String) : Prop where
  /-- It is not empty. -/
  ne_nil : name.toList ≠ []
  /-- It holds no character that would need quotes. -/
  isKeyChar : ∀ c ∈ name.toList, isKeyChar c = true

theorem isBlank_of_isKeyChar {c : Char} (h : isKeyChar c = true) : isBlank c = false :=
  isBlank_eq_false (by decide) (by decide) h

theorem skipBlanks_of_not_blank {c : Char} (h : isBlank c = false) (cs : List Char) :
    skipBlanks (c :: cs) = c :: cs :=
  List.dropWhile_cons_of_neg (by simp [h])

/-- A key is read up to where it ends. -/
theorem key?_bare {name : String} (h : BareKey name) (rest : List Char)
    (hend : ∀ c ∈ rest.head?, isKeyChar c = false) (hdot : (skipBlanks rest).head? ≠ some '.') :
    key? (name.toList ++ rest) = some ([name], skipBlanks rest) := by
  have htake := takeWhile_run h.isKeyChar hend
  have hdrop := dropWhile_run h.isKeyChar hend
  obtain ⟨c, chars, hname⟩ := List.exists_cons_of_ne_nil h.ne_nil
  have hc : isKeyChar c = true := h.isKeyChar c (by rw [hname]; exact List.mem_cons_self)
  have hpart : keyPart? (name.toList ++ rest) = some (name, rest) := by
    rw [hname] at htake hdrop ⊢
    rw [List.cons_append] at htake hdrop ⊢
    unfold keyPart?
    split
    all_goals
      first
      | rename_i heq
        cases heq
        exact absurd hc (by decide)
      | rw [htake, hdrop]
        simp only [List.isEmpty_cons, Bool.false_eq_true, if_false]
        rw [← hname, String.ofList_toList]
  rw [key?, show nestingLimit - 1 = 78 + 1 from rfl, keyParts?, hname, List.cons_append,
    skipBlanks_of_not_blank (isBlank_of_isKeyChar hc), ← List.cons_append, ← hname, hpart]
  simp only [Option.bind_eq_bind, Option.bind_some]
  split
  next hrest =>
    rw [hrest] at hdot
    exact absurd rfl hdot
  next => rfl

/-- What starts as a key is an assignment. -/
theorem statement?_isKeyChar {c : Char} (hc : isKeyChar c = true) :
    statement? (c :: cs) = (do
      let (path, rest) ← key? (c :: cs)
      let rest := skipBlanks (← after? '=' rest)
      let (value, rest) ← value? (2 * rest.length + 2) (nestingLimit - 1) rest
      pure (some (.assign path value), rest)) := by
  unfold statement?
  rw [skipBlanks_of_not_blank (isBlank_of_isKeyChar hc)]
  split
  case h_7 => rfl
  case h_1 heq => cases heq
  all_goals
    rename_i heq
    cases heq
    exact absurd hc (by decide)

/-- The line of an assignment is read as the assignment. -/
theorem statement?_assignment {name : String} (hname : BareKey name) (hv : v.Legible)
    (hcs : v.chars? = some cs) (rest : List Char) :
    statement? (name.toList ++ (" = ".toList ++ (cs ++ '\n' :: rest))) =
      some (some (.assign [name] v), '\n' :: rest) := by
  have hkey := key?_bare hname (" = ".toList ++ (cs ++ '\n' :: rest)) (by simp; decide)
    (by simp [skipBlanks, isBlank])
  obtain ⟨c, chars, hchars⟩ := List.exists_cons_of_ne_nil hname.ne_nil
  have hc : isKeyChar c = true := hname.isKeyChar c (by rw [hchars]; exact List.mem_cons_self)
  obtain ⟨⟨d, tail, hd, hblank⟩, hread⟩ := value?_chars (2 * (cs ++ '\n' :: rest).length + 2) 78 hcs hv
    (show Ends ('\n' :: rest) from .inl rfl) (by
      rw [List.length_append]
      omega)
  have hequals : skipBlanks (" = ".toList ++ (cs ++ '\n' :: rest)) = '=' :: ' ' :: (cs ++ '\n' :: rest) := by
    simp [skipBlanks, isBlank]
  have hspace : skipBlanks (' ' :: (cs ++ '\n' :: rest)) = cs ++ '\n' :: rest := by
    rw [hd, List.cons_append, skipBlanks, List.dropWhile_cons_of_pos (by decide)]
    exact skipBlanks_of_not_blank hblank _
  rw [hequals] at hkey
  rw [hchars, List.cons_append] at hkey ⊢
  rw [statement?_isKeyChar hc, hkey]
  simp only [Option.bind_eq_bind, Option.bind_some, after?, if_true, hspace]
  rw [show nestingLimit - 1 = 78 + 1 from rfl, hread]
  rfl

/-- The line of a header is read as the header. -/
theorem statement?_header {name : String} (h : BareKey name) (rest : List Char) :
    statement? ('[' :: (name.toList ++ ']' :: '\n' :: rest)) = some (some (.table [name]), '\n' :: rest) := by
  have hkey := key?_bare h (']' :: '\n' :: rest) (by simp; decide) (by simp [skipBlanks, isBlank])
  have hclose : skipBlanks (']' :: '\n' :: rest) = ']' :: '\n' :: rest :=
    skipBlanks_of_not_blank (by decide) _
  obtain ⟨c, chars, hchars⟩ := List.exists_cons_of_ne_nil h.ne_nil
  have hc : isKeyChar c = true := h.isKeyChar c (by rw [hchars]; exact List.mem_cons_self)
  rw [hclose] at hkey
  rw [hchars, List.cons_append] at hkey ⊢
  unfold statement?
  rw [skipBlanks_of_not_blank (by decide)]
  split
  case h_6 heq =>
    cases heq
    simp [hkey, after?]
  case h_7 hnone => exact (hnone _ rfl).elim
  all_goals
    rename_i heq
    cases heq
  -- A second bracket is no character of a key.
  exact absurd hc (by decide)

end Cadence.Toml
