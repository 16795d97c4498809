import Mathlib
import Cadence.Json.Format
import Cadence.Proofs.Json.Token

/-!
# Written JSON values are read

The text of a value is read as that value, if its numbers are literals and its strings are texts. The text
divides into the tokens of the value, and reading those puts the value where it belongs: into what is open
around it.

- `Value.Sound`: the values that have a text of their own;
- `Value.tokens`, `Value.lexes`: the tokens of a value, and that its text divides into them whatever follows;
- `Value.steps`: reading the tokens of a value completes it;
- `parse?_text`: the text of a value is read as that value;
- `Format.Faithful`: what is asked of a way to write and read values, and `Format.compact_faithful`: that this
  one is such.
-/

namespace Cadence.Json

/-! ## Values with a text of their own -/

mutual

/-- The value has a text of its own: its numbers are literals, and its strings and names are texts. -/
def Value.Sound : Value → Prop
  | .null => True
  | .bool _ => True
  | .number literal => (numberParts? literal.toList).isSome = true
  | .string text => text.isSome = true
  | .array items => Value.ItemsSound items
  | .object fields => Value.FieldsSound fields

/-- The items of a list have texts of their own. -/
def Value.ItemsSound : List Value → Prop
  | [] => True
  | item :: rest => item.Sound ∧ Value.ItemsSound rest

/-- The fields of an object have texts of their own. -/
def Value.FieldsSound : List (Option String × Value) → Prop
  | [] => True
  | (name, value) :: rest => name.isSome = true ∧ value.Sound ∧ Value.FieldsSound rest

end

/-! ## Tokens -/

mutual

/-- The tokens that a value is written as. -/
def Value.tokens : Value → List Token
  | .array items => .openArray :: (Value.itemTokens items ++ [.closeArray])
  | .object fields => .openObject :: (Value.fieldTokens fields ++ [.closeObject])
  | value => [.scalar value]

/-- The tokens of the items of a list, divided by commas. -/
def Value.itemTokens : List Value → List Token
  | [] => []
  | [item] => item.tokens
  | item :: rest => item.tokens ++ .comma :: Value.itemTokens rest

/-- The tokens of the fields of an object, divided by commas. -/
def Value.fieldTokens : List (Option String × Value) → List Token
  | [] => []
  | [(name, value)] => .scalar (.string name) :: .colon :: value.tokens
  | (name, value) :: rest =>
    .scalar (.string name) :: .colon :: (value.tokens ++ .comma :: Value.fieldTokens rest)

end

mutual

/-- The text of a value divides into its tokens, whatever follows. -/
theorem Value.lexes : ∀ (v : Value), v.Sound → ∀ {rest : List Char} {more : List Token}, Separated rest →
    Lexes rest more → Lexes (v.chars ++ rest) (v.tokens ++ more)
  | .null, _, _, _, _, h => Lexes.cons rfl rfl (by simp; omega) h
  | .bool true, _, _, _, _, h => Lexes.cons rfl rfl (by simp; omega) h
  | .bool false, _, _, _, _, h => Lexes.cons rfl rfl (by simp; omega) h
  | .number literal, hsound, _, _, hrest, h => lexes_number hsound hrest h
  | .string (some text), _, _, _, _, h => lexes_quoted text h
  | .array items, hsound, rest, more, _, h => by
    -- The bracket that closes the list ends a number that stands before it.
    have hclose : Lexes (']' :: rest) (.closeArray :: more) := Lexes.cons rfl rfl le_rfl h
    have hitems := Value.lexes_items items hsound (by simp [Separated]; rfl) hclose
    have hopen : Lexes ('[' :: _) (.openArray :: _) := Lexes.cons rfl rfl le_rfl hitems
    simpa [Value.chars, Value.tokens] using hopen
  | .object fields, hsound, rest, more, _, h => by
    have hclose : Lexes ('\x7d' :: rest) (.closeObject :: more) := Lexes.cons rfl rfl le_rfl h
    have hfields := Value.lexes_fields fields hsound (by simp [Separated]; rfl) hclose
    have hopen : Lexes ('\x7b' :: _) (.openObject :: _) := Lexes.cons rfl rfl le_rfl hfields
    simpa [Value.chars, Value.tokens] using hopen

theorem Value.lexes_items : ∀ (items : List Value), Value.ItemsSound items →
    ∀ {rest : List Char} {more : List Token}, Separated rest → Lexes rest more →
      Lexes (Value.itemChars items ++ rest) (Value.itemTokens items ++ more)
  | [], _, _, _, _, h => h
  | [item], hsound, _, _, hrest, h => item.lexes hsound.1 hrest h
  | item :: next :: items, hsound, rest, more, hrest, h => by
    have hitems := Value.lexes_items (next :: items) hsound.2 hrest h
    have hcomma : Lexes (',' :: _) (.comma :: _) := Lexes.cons rfl rfl le_rfl hitems
    have hitem := item.lexes hsound.1 (by simp [Separated]; rfl) hcomma
    simpa [Value.itemChars, Value.itemTokens] using hitem

theorem Value.lexes_fields : ∀ (fields : List (Option String × Value)), Value.FieldsSound fields →
    ∀ {rest : List Char} {more : List Token}, Separated rest → Lexes rest more →
      Lexes (Value.fieldChars fields ++ rest) (Value.fieldTokens fields ++ more)
  | [], _, _, _, _, h => h
  | [(some name, value)], hsound, _, _, hrest, h => by
    have hvalue := value.lexes hsound.2.1 hrest h
    have hcolon : Lexes (':' :: _) (.colon :: _) := Lexes.cons rfl rfl le_rfl hvalue
    simpa [Value.fieldChars, Value.fieldTokens] using lexes_quoted name hcolon
  | (some name, value) :: next :: fields, hsound, rest, more, hrest, h => by
    have hfields := Value.lexes_fields (next :: fields) hsound.2.2 hrest h
    have hcomma : Lexes (',' :: _) (.comma :: _) := Lexes.cons rfl rfl le_rfl hfields
    have hvalue := value.lexes hsound.2.1 (by simp [Separated]; rfl) hcomma
    have hcolon : Lexes (':' :: _) (.colon :: _) := Lexes.cons rfl rfl le_rfl hvalue
    simpa [Value.fieldChars, Value.fieldTokens] using lexes_quoted name hcolon

end

/-! ## Reading the tokens -/

open Reading

/-- A token that may come next leads to the next state. -/
theorem foldlM_step {r r' : Reading} {token : Token} (h : step r token = some r') (more : List Token) :
    (token :: more).foldlM step r = more.foldlM step r' := by
  rw [List.foldlM_cons, h]
  rfl

/-- A name is kept until its value is there. -/
theorem step_name {found : List (Option String × Value)} {before name : Option String} {stack : List Frame}
    {expects : Expectation} {result : Option Value} (h : expects = .name ∨ expects = .nameOrEnd) :
    step ⟨.object found before :: stack, expects, result⟩ (.scalar (.string name)) =
      some ⟨.object found name :: stack, .colon, none⟩ := by
  rcases h with rfl | rfl <;> rfl

mutual

/-- Reading the tokens of a value where one may come completes it. -/
theorem Value.steps : ∀ (v : Value) (stack : List Frame) (expects : Expectation) (result : Option Value)
    (more : List Token), expects = .value ∨ expects = .valueOrEnd →
      (v.tokens ++ more).foldlM step ⟨stack, expects, result⟩ = more.foldlM step (complete stack v)
  | .array items, stack, expects, result, more, h => by
    have hopen : step ⟨stack, expects, result⟩ .openArray = some ⟨.array [] :: stack, .valueOrEnd, none⟩ := by
      rcases h with rfl | rfl <;> rfl
    rw [Value.tokens, List.cons_append, List.append_assoc, foldlM_step hopen]
    cases items with
    | nil => exact foldlM_step rfl more
    | cons item items =>
      rw [Value.steps_items (item :: items) (by simp) [] stack _ _ _ (.inr rfl), List.append_nil,
        List.singleton_append, foldlM_step rfl, List.reverse_reverse]
  | .object fields, stack, expects, result, more, h => by
    have hopen : step ⟨stack, expects, result⟩ .openObject =
        some ⟨.object [] none :: stack, .nameOrEnd, none⟩ := by
      rcases h with rfl | rfl <;> rfl
    rw [Value.tokens, List.cons_append, List.append_assoc, foldlM_step hopen]
    cases fields with
    | nil => exact foldlM_step rfl more
    | cons field fields =>
      rw [Value.steps_fields (field :: fields) (by simp) [] none stack _ _ _ (.inr rfl), List.append_nil,
        List.singleton_append, foldlM_step rfl, List.reverse_reverse]
  | .null, _, _, _, _, h => by
    rcases h with rfl | rfl <;> rfl
  | .bool _, _, _, _, _, h => by
    rcases h with rfl | rfl <;> rfl
  | .number _, _, _, _, _, h => by
    rcases h with rfl | rfl <;> rfl
  | .string _, _, _, _, _, h => by
    rcases h with rfl | rfl <;> rfl

/-- Reading the items of a list puts them into it. -/
theorem Value.steps_items : ∀ (items : List Value), items ≠ [] → ∀ (found : List Value) (stack : List Frame)
    (expects : Expectation) (result : Option Value) (more : List Token),
      expects = .value ∨ expects = .valueOrEnd →
      (Value.itemTokens items ++ more).foldlM step ⟨.array found :: stack, expects, result⟩ =
        more.foldlM step ⟨.array (items.reverse ++ found) :: stack, .commaOrEnd, none⟩
  | [], hne, _, _, _, _, _, _ => absurd rfl hne
  | [item], _, found, stack, expects, result, more, h =>
    item.steps (.array found :: stack) expects result more h
  | item :: next :: items, _, found, stack, expects, result, more, h => by
    rw [Value.itemTokens, List.append_assoc, List.cons_append, item.steps _ _ _ _ h, complete,
      foldlM_step rfl, Value.steps_items (next :: items) (by simp) _ _ _ _ _ (.inl rfl),
      List.reverse_cons (a := item), List.append_assoc]
    · rfl
    · simp

/-- Reading the fields of an object puts them into it. -/
theorem Value.steps_fields : ∀ (fields : List (Option String × Value)), fields ≠ [] →
    ∀ (found : List (Option String × Value)) (name : Option String) (stack : List Frame)
      (expects : Expectation) (result : Option Value) (more : List Token),
      expects = .name ∨ expects = .nameOrEnd →
      (Value.fieldTokens fields ++ more).foldlM step ⟨.object found name :: stack, expects, result⟩ =
        more.foldlM step ⟨.object (fields.reverse ++ found) none :: stack, .commaOrEnd, none⟩
  | [], hne, _, _, _, _, _, _, _ => absurd rfl hne
  | [(name, value)], _, found, before, stack, expects, result, more, h => by
    rw [Value.fieldTokens, List.cons_append, List.cons_append, foldlM_step (step_name h), foldlM_step rfl,
      value.steps _ _ _ _ (.inl rfl)]
    rfl
  | (name, value) :: next :: fields, _, found, before, stack, expects, result, more, h => by
    rw [Value.fieldTokens, List.cons_append, List.cons_append, foldlM_step (step_name h), foldlM_step rfl,
      List.append_assoc, value.steps _ _ _ _ (.inl rfl), complete, List.cons_append, foldlM_step rfl,
      Value.steps_fields (next :: fields) (by simp) _ _ _ _ _ _ (.inl rfl),
      List.reverse_cons (a := (name, value)), List.append_assoc]
    · rfl
    · simp

end

/-- The text of a value is read as that value. -/
theorem parse?_text {v : Value} (h : v.Sound) : parse? v.text = some v := by
  have hend : Separated [] := by simp [Separated]
  have htokens := v.lexes h hend lexes_nil (v.chars.length + 1)
  have hsteps := v.steps [] .value none [] (.inl rfl)
  rw [List.append_nil] at htokens hsteps
  rw [List.append_nil] at htokens
  unfold parse?
  simp only [Value.text, String.toList_ofList, htokens (Nat.le_succ _), Option.bind_eq_bind, Option.bind_some]
  rw [show Reading.start = ⟨[], .value, none⟩ from rfl, hsteps]
  rfl

/-! ## What is asked of a format -/

/-- A format reads the values that it writes. -/
structure Format.Faithful (J : Format) : Prop where
  /-- The text of a value is read as that value, if its numbers are literals and its strings are texts. -/
  parse?_print : ∀ {v : Value}, v.Sound → J.parse? (J.print v) = some v

theorem Format.compact_faithful : Format.compact.Faithful where
  parse?_print h := parse?_text h

end Cadence.Json
