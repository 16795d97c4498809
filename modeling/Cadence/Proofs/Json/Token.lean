import Mathlib
import Cadence.Json.Number
import Cadence.Proofs.Number.Digits

/-!
# Tokens of a written JSON value

The text of a value divides into the tokens that it was put together from. A string comes back through its
escapes, and a number ends where a character follows that cannot stand in one.

- `isNumeric_of_numberParts?`: a number literal has no other characters than those of numbers;
- `escaped_cases`, `stringBody?_text`: what is escaped is read as it was;
- `lexes_quoted`, `lexes_number`: the tokens that a text begins with, with what follows them.
-/

namespace Cadence.Json

open Number

variable {cs rest : List Char} {more : List Token}

/-! ## Number literals -/

theorem isNumeric_of_isDigit {c : Char} (h : c.isDigit = true) : isNumeric c = true := by
  simp [isNumeric, h]

/-- What follows the digits at the head has to be looked at, the digits need not be. -/
theorem isNumeric_of_digits (h : ∀ c ∈ (digits cs).2, isNumeric c = true) :
    ∀ c ∈ cs, isNumeric c = true := by
  have hcs : (digits cs).1 ++ (digits cs).2 = cs := List.takeWhile_append_dropWhile
  rw [← hcs]
  exact List.forall_mem_append.mpr ⟨fun c hc => isNumeric_of_isDigit (List.mem_takeWhile_imp hc), h⟩

theorem isNumeric_of_exponentPart? {exponent : Option (Bool × List Char)}
    (h : exponentPart? cs = some exponent) : ∀ c ∈ cs, isNumeric c = true := by
  unfold exponentPart? at h
  split at h
  · simp
  next mark rest =>
    split_ifs at h with hmark
    have hhead : isNumeric mark = true := by
      rcases hmark with rfl | rfl <;> rfl
    -- The power is what is left behind the mark, after its sign if it has one.
    split at h
    next negative power heq =>
      split_ifs at h with hdigits
      simp only [not_or, Bool.not_eq_true, Bool.not_eq_false', List.all_eq_true] at hdigits
      have hpower : ∀ c ∈ power, isNumeric c = true := fun c hc => isNumeric_of_isDigit (hdigits.2 c hc)
      split at heq
      all_goals cases heq
      · exact List.forall_mem_cons.mpr ⟨hhead, List.forall_mem_cons.mpr ⟨rfl, hpower⟩⟩
      · exact List.forall_mem_cons.mpr ⟨hhead, List.forall_mem_cons.mpr ⟨rfl, hpower⟩⟩
      · exact List.forall_mem_cons.mpr ⟨hhead, hpower⟩

theorem isNumeric_of_fractionPart? {fraction : Option (List Char)}
    (h : fractionPart? cs = some (fraction, rest)) (hrest : ∀ c ∈ rest, isNumeric c = true) :
    ∀ c ∈ cs, isNumeric c = true := by
  unfold fractionPart? at h
  split at h
  next cs =>
    simp only at h
    split_ifs at h
    cases h
    exact List.forall_mem_cons.mpr ⟨rfl, isNumeric_of_digits hrest⟩
  · cases h
    exact hrest

/-- A number literal has no other characters than those of numbers. -/
theorem isNumeric_of_numberParts? {parts : NumberParts} (h : numberParts? cs = some parts) :
    ∀ c ∈ cs, isNumeric c = true := by
  unfold numberParts? at h
  split at h
  next negative body heq =>
    simp only [Option.ite_none_left_eq_some, Option.bind_eq_bind, Option.bind_eq_some_iff] at h
    obtain ⟨-, ⟨fraction, rest⟩, hfraction, exponent, hexponent, -⟩ := h
    have hbody : ∀ c ∈ body, isNumeric c = true :=
      isNumeric_of_digits (isNumeric_of_fractionPart? hfraction (isNumeric_of_exponentPart? hexponent))
    split at heq
    all_goals cases heq
    · exact List.forall_mem_cons.mpr ⟨rfl, hbody⟩
    · exact hbody

/-! ## Strings -/

theorem hexValue?_hexDigit {n : ℕ} (h : n < 16) : hexValue? (hexDigit n) = some n := by
  revert n
  decide

/-- The escape of a control character names it. -/
theorem hexUnit?_control {n : ℕ} (h : n < 32) (rest : List Char) :
    hexUnit? ('0' :: '0' :: hexDigit (n / 16) :: hexDigit (n % 16) :: rest) = some (n, rest) := by
  have hzero : hexValue? '0' = some 0 := rfl
  simp only [hexUnit?, hzero, hexValue?_hexDigit (show n / 16 < 16 by omega),
    hexValue?_hexDigit (show n % 16 < 16 by omega), Option.bind_eq_bind, Option.bind_some, Option.pure_def]
  congr 2
  omega

theorem escape?_control {c : Char} (h : c.toNat < 32) (rest : List Char) :
    escape? ('u' :: '0' :: '0' :: hexDigit (c.toNat / 16) :: hexDigit (c.toNat % 16) :: rest) =
      some (some c, rest) := by
  have htrailing : isTrailing c.toNat = false := by simp [isTrailing]; omega
  have hleading : isLeading c.toNat = false := by simp [isLeading]; omega
  simp only [escape?, hexUnit?_control h, htrailing, hleading, Option.bind_eq_bind, Option.bind_some,
    Option.pure_def, Char.ofNat_toNat, Bool.false_eq_true, if_false]

/-- A character is a mark of its own, or an escape that names it. -/
theorem escaped_cases (c : Char) :
    (escaped c = [c] ∧ c ≠ '"' ∧ c ≠ '\\' ∧ 32 ≤ c.toNat) ∨
      ∃ name, escaped c = '\\' :: name ∧ ∀ rest, escape? (name ++ rest) = some (some c, rest) := by
  unfold escaped
  split_ifs with hquote hslash hnewline hreturn htab hbackspace hfeed hcontrol
  · exact .inr ⟨['"'], rfl, fun rest => by rw [hquote]; rfl⟩
  · exact .inr ⟨['\\'], rfl, fun rest => by rw [hslash]; rfl⟩
  · exact .inr ⟨['n'], rfl, fun rest => by rw [hnewline]; rfl⟩
  · exact .inr ⟨['r'], rfl, fun rest => by rw [hreturn]; rfl⟩
  · exact .inr ⟨['t'], rfl, fun rest => by rw [htab]; rfl⟩
  · exact .inr ⟨['b'], rfl, fun rest => by rw [← Char.ofNat_toNat c, hbackspace]; rfl⟩
  · exact .inr ⟨['f'], rfl, fun rest => by rw [← Char.ofNat_toNat c, hfeed]; rfl⟩
  · exact .inr ⟨_, rfl, escape?_control hcontrol⟩
  · exact .inl ⟨rfl, hquote, hslash, not_lt.mp hcontrol⟩

/-- A character is read as it was, and takes one step. -/
theorem stringBody?_escaped (fuel : ℕ) (text : List Char) (c : Char) (rest : List Char) :
    stringBody? (fuel + 1) (some text) (escaped c ++ rest) = stringBody? fuel (some (c :: text)) rest := by
  rcases escaped_cases c with ⟨hself, hquote, hslash, hplain⟩ | ⟨name, hescape, hname⟩
  · rw [hself, List.singleton_append, stringBody?, if_neg hquote, if_neg hslash,
      if_neg (not_lt.mpr hplain), Option.map_some]
  · rw [hescape, List.cons_append, stringBody?, if_neg (by decide), if_pos rfl, hname]
    rfl

/-- A text in quotes is read as it was. -/
theorem stringBody?_text (cs text : List Char) (rest : List Char) {fuel : ℕ} (hfuel : cs.length < fuel) :
    stringBody? fuel (some text) (cs.flatMap escaped ++ '"' :: rest) =
      some (some (String.ofList (text.reverse ++ cs)), rest) := by
  induction cs generalizing text fuel with
  | nil =>
    obtain ⟨fuel, rfl⟩ := Nat.exists_eq_succ_of_ne_zero (Nat.ne_of_gt hfuel)
    simp [stringBody?]
  | cons c cs ih =>
    obtain ⟨fuel, rfl⟩ := Nat.exists_eq_succ_of_ne_zero (Nat.ne_zero_of_lt hfuel)
    rw [List.flatMap_cons, List.append_assoc, Nat.succ_eq_add_one, stringBody?_escaped,
      ih (c :: text) (by simpa using hfuel), List.reverse_cons, List.append_assoc]
    rfl

theorem escaped_ne_nil (c : Char) : escaped c ≠ [] := by
  rcases escaped_cases c with ⟨hself, -⟩ | ⟨name, hescape, -⟩
  · rw [hself]
    exact List.cons_ne_nil _ _
  · rw [hescape]
    exact List.cons_ne_nil _ _

/-! ## Tokens -/

/-- The characters divide into the tokens, with as much fuel as there are characters. -/
def Lexes (cs : List Char) (tokens : List Token) : Prop :=
  ∀ fuel, cs.length ≤ fuel → tokens? fuel cs = some tokens

theorem lexes_nil : Lexes [] [] := fun fuel _ => by
  unfold tokens?
  rfl

/-- A token that does not begin with a blank comes before the others. -/
theorem Lexes.cons {c : Char} {token : Token} (hblank : isBlank c = false)
    (htoken : token? (c :: cs) = some (token, rest)) (hlength : rest.length ≤ cs.length)
    (h : Lexes rest more) : Lexes (c :: cs) (token :: more) := by
  intro fuel hfuel
  obtain ⟨fuel, rfl⟩ := Nat.exists_eq_succ_of_ne_zero (Nat.ne_zero_of_lt hfuel)
  have hskip : (c :: cs).dropWhile isBlank = c :: cs := List.dropWhile_cons_of_neg (by simp [hblank])
  have hrest : tokens? fuel rest = some more := h fuel (hlength.trans (Nat.le_of_succ_le_succ hfuel))
  unfold tokens?
  rw [hskip]
  simp only [htoken, hrest, Option.bind_eq_bind, Option.bind_some, Option.pure_def]

/-- A text in quotes is one token. -/
theorem lexes_quoted (text : String) (h : Lexes rest more) :
    Lexes (quoted text ++ rest) (.scalar (.string (some text)) :: more) := by
  have hlength := length_le_flatMap escaped_ne_nil text.toList
  have htoken : token? ('"' :: (text.toList.flatMap escaped ++ '"' :: rest)) =
      some (.scalar (.string (some text)), rest) := by
    rw [token?, stringBody?_text _ _ _ (by rw [List.length_append]; omega), List.reverse_nil,
      List.nil_append, String.ofList_toList]
    rfl
  have hquoted : quoted text ++ rest = '"' :: (text.toList.flatMap escaped ++ '"' :: rest) := by
    simp [quoted]
  rw [hquoted]
  exact Lexes.cons rfl htoken (by simp; omega) h

/-! ## Numbers -/

/-- What follows a number does not go on with it. -/
def Separated (rest : List Char) : Prop := ∀ c ∈ rest.head?, isNumeric c = false

/-- A number ends where what follows is separated from it. -/
theorem token?_number {c : Char} {parts : NumberParts} (hparts : numberParts? (c :: cs) = some parts)
    (hrest : Separated rest) :
    token? (c :: (cs ++ rest)) = some (.scalar (.number (String.ofList (c :: cs))), rest) := by
  have hnumeric := isNumeric_of_numberParts? hparts
  have htake := takeWhile_run hnumeric hrest
  have hdrop := dropWhile_run hnumeric hrest
  rw [List.cons_append] at htake hdrop
  have hhead {d : Char} {ds : List Char} (heq : c :: (cs ++ rest) = d :: ds) : isNumeric d = true := by
    rw [← (List.cons.inj heq).1]
    exact hnumeric c List.mem_cons_self
  unfold token?
  split
  case h_1 heq => cases heq
  case h_12 =>
    simp only [htake, hdrop, hparts, Option.isSome_some, if_true]
  -- Every other token begins with a character that no number has.
  all_goals
    next heq => exact absurd (hhead heq) (by decide)

theorem lexes_number {literal : String} (hliteral : (numberParts? literal.toList).isSome = true)
    (hrest : Separated rest) (h : Lexes rest more) :
    Lexes (literal.toList ++ rest) (.scalar (.number literal) :: more) := by
  obtain ⟨parts, hparts⟩ := Option.isSome_iff_exists.mp hliteral
  cases hcs : literal.toList with
  | nil =>
    rw [hcs] at hparts
    cases hparts
  | cons c cs =>
    rw [hcs] at hparts
    have hblank : isBlank c = false := by
      have hnumeric := isNumeric_of_numberParts? hparts c List.mem_cons_self
      unfold isBlank
      simp only [Bool.or_eq_false_iff, decide_eq_false_iff_not]
      refine ⟨⟨⟨?_, ?_⟩, ?_⟩, ?_⟩
      all_goals
        rintro rfl
        exact absurd hnumeric (by decide)
    have htoken := token?_number hparts hrest
    rw [← hcs, String.ofList_toList] at htoken
    exact Lexes.cons hblank htoken (by simp) h

end Cadence.Json
