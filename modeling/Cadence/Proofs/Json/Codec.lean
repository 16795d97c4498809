import Mathlib
import Cadence.Json.Codec
import Cadence.Proofs.Json.Value
import Cadence.Proofs.Number.Notation

/-!
# The two sides of JSON forms

What is written for a number, a text, a record or a choice is read as that. JSON has no literal for a number
that is not finite: `null` stands for it, which is read as nothing, and as an absent number where one may be
absent.

- `Faithful`: the literal of a number is read as that number;
- `float?_ofFloat`, `nullable?_ofFloat`, `count?_ofNat`: what is read of a written number or count;
- `of?_ofFields`: the fields of a written record are found;
- `Numbers`: which numbers a value holds, and what is left of it without those that can be absent;
- `LawfulCodec`: what is written has a text of its own and is read, unless a number that has to be there is
  not finite.
-/

namespace Cadence.Json

open Number

/-! ## Numbers -/

/-- The number is printed and read faithfully: its literal is read as that number, bit for bit. -/
def Faithful (x : Float) : Prop :=
  x.isFinite = true → floatOf? (Layout.json.render x) = some x

instance (x : Float) : Decidable (Faithful x) :=
  inferInstanceAs (Decidable (x.isFinite = true → floatOf? (Layout.json.render x) = some x))

variable {x : Float} {n limit : ℕ}

/-- A number is read as it was written, and not at all if it is not finite. -/
theorem float?_ofFloat (h : Faithful x) :
    float? (ofFloat x) = if x.isFinite = true then some x else none := by
  unfold ofFloat
  split_ifs with hfinite
  · exact h hfinite
  · rfl

/-- A number that may be absent is, if it is not finite. -/
theorem nullable?_ofFloat (h : Faithful x) :
    nullable? float? (ofFloat x) = some ((some x).filter Float.isFinite) := by
  unfold ofFloat
  split_ifs with hfinite
  · rw [nullable?, float?, h hfinite, Option.map_some, Option.filter_some, if_pos hfinite]
    exact nofun
  · rw [nullable?, Option.filter_some, if_neg hfinite]

theorem nullable?_ofFloat? {number : Option Float} (h : ∀ x ∈ number, Faithful x) :
    nullable? float? (ofFloat? number) = some (number.filter Float.isFinite) := by
  cases number with
  | none => rfl
  | some x => exact nullable?_ofFloat (h x rfl)

theorem sound_ofFloat (h : Faithful x) : (ofFloat x).Sound := by
  unfold ofFloat
  split_ifs with hfinite
  · obtain ⟨parts, hparts, -⟩ := Option.bind_eq_some_iff.mp (h hfinite)
    exact Option.isSome_iff_exists.mpr ⟨parts, hparts⟩
  · trivial

/-- Whole digits have no other parts. -/
theorem numberParts?_whole {cs : List Char} (h : WholeDigits cs) :
    numberParts? cs = some ⟨false, cs, none, none⟩ := by
  have hdigits : digits cs = (cs, []) :=
    Prod.ext (List.takeWhile_eq_self_iff.mpr h.isDigit) (List.dropWhile_eq_nil_iff.mpr h.isDigit)
  have hzero : ¬ (cs.isEmpty = true ∨ cs.head? = some '0' ∧ cs ≠ ['0']) := by
    rintro (hempty | ⟨hhead, hne⟩)
    · exact h.ne_nil (List.isEmpty_iff.mp hempty)
    · exact hne (h.head hhead)
  unfold numberParts?
  split
  next negative body heq =>
    split at heq
    · exact absurd (h.isDigit '-' List.mem_cons_self) (by decide)
    · cases heq
      simp only [hdigits, if_neg hzero]
      rfl

theorem numberParts?_toString (n : ℕ) :
    numberParts? (toString n).toList = some ⟨false, Nat.toDigits 10 n, none, none⟩ := by
  rw [Nat.toString_eq_repr, Nat.toList_repr, numberParts?_whole (wholeDigits_toDigits n)]

theorem sound_ofNat (n : ℕ) : (ofNat n).Sound :=
  Option.isSome_iff_exists.mpr ⟨_, numberParts?_toString n⟩

/-- A count is read as it was written. -/
theorem count?_ofNat (h : n ≤ limit) : count? limit (ofNat n) = some n := by
  rw [ofNat, count?, countOf?, numberParts?_toString]
  simp [h]

@[simp]
theorem uint64?_ofNat (n : UInt64) : uint64? (ofNat n.toNat) = some n := by
  have hlimit : n.toNat ≤ countLimit := Nat.le_of_lt_succ n.toNat_lt
  rw [uint64?, count?_ofNat hlimit, Option.map_some, UInt64.ofNat_toNat]

@[simp]
theorem uint32?_ofNat (n : UInt32) : uint32? (ofNat n.toNat) = some n := by
  have hlimit : n.toNat ≤ UInt32.size - 1 := Nat.le_of_lt_succ n.toNat_lt
  rw [uint32?, count?_ofNat hlimit, Option.map_some, UInt32.ofNat_toNat]

/-! ## Records -/

variable {fields : List (String × Value)} {names : List String}

theorem sound_ofFields (h : ∀ field ∈ fields, field.2.Sound) : (ofFields fields).Sound := by
  unfold ofFields
  rw [Value.Sound]
  induction fields with
  | nil => trivial
  | cons field fields ih =>
    obtain ⟨hfield, hfields⟩ := List.forall_mem_cons.mp h
    exact ⟨rfl, hfield, ih hfields⟩

theorem distinct_of_nodup (h : (fields.map Prod.fst).Nodup) : Fields.distinct fields = true := by
  induction fields with
  | nil => rfl
  | cons field fields ih =>
    rw [List.map_cons, List.nodup_cons, List.mem_map] at h
    have hfirst : fields.any (·.1 = field.1) = false := by
      simpa using fun name value hmem heq => h.1 ⟨(name, value), hmem, heq⟩
    rw [Fields.distinct, hfirst, ih h.2]
    rfl

/-- Every field has a name. -/
theorem mapM_named (fields : List (String × Value)) :
    (fields.map fun (name, value) => (some name, value)).mapM
      (fun ((name, value) : Option String × Value) => name.map (·, value)) = some fields := by
  induction fields with
  | nil => rfl
  | cons field fields ih =>
    rw [List.map_cons, List.mapM_cons, ih]
    rfl

/-- The fields of a record are found. -/
@[simp]
theorem of?_ofFields (hnames : ∀ field ∈ fields, field.1 ∈ names)
    (hdistinct : (fields.map Prod.fst).Nodup) :
    Fields.of? names (ofFields fields) = some ⟨fields, false⟩ := by
  have hfound : fields.filter (·.1 ∈ names) = fields := List.filter_eq_self.mpr (by simpa using hnames)
  rw [ofFields, Fields.of?, mapM_named]
  simp only [Option.bind_eq_bind, Option.bind_some, hfound, distinct_of_nodup hdistinct, if_true]

section Found

variable {name other : String} (value : Value) (positional : Bool)

@[simp]
theorem get?_nil : (Fields.mk [] positional).get? name = none := rfl

@[simp]
theorem get?_cons_self : (Fields.mk ((name, value) :: fields) positional).get? name = some value := by
  simp [Fields.get?]

@[simp]
theorem get?_cons_of_ne (h : name ≠ other) :
    (Fields.mk ((other, value) :: fields) positional).get? name =
      (Fields.mk fields positional).get? name := by
  have hother : (name == other) = false := beq_eq_false_iff_ne.mpr h
  rw [Fields.get?, List.lookup_cons, hother]
  rfl

end Found

@[simp]
theorem text?_ofText (text : String) : text? (ofText text) = some text := rfl

@[simp]
theorem bool?_bool (b : Bool) : bool? (.bool b) = some b := rfl

/-! ## Choices -/

@[simp]
theorem sound_ofText (text : String) : (ofText text).Sound := rfl

@[simp]
theorem sound_bool (b : Bool) : (Value.bool b).Sound := trivial

theorem sound_case {name : String} {content : Value} (h : content.Sound) : (case name content).Sound :=
  sound_ofFields (by simpa using h)

@[simp]
theorem case?_case (name : String) (content : Value) :
    case? (case name content) = some (name, some content) :=
  rfl

@[simp]
theorem content?_some {α : Type} (read : Value → Option α) (v : Value) : content? read (some v) = read v :=
  rfl

/-- A case with a number in it is read if that is finite. -/
theorem content?_ofFloat {α : Type} (h : Faithful x) (read : Float → α) :
    content? (fun v => (float? v).map read) (some (ofFloat x)) =
      if [x].all Float.isFinite = true then some (read x) else none := by
  simp only [content?, float?_ofFloat h, List.all_cons, List.all_nil, Bool.and_true]
  split_ifs <;> rfl

/-! ## What a value holds -/

/-- The binary64 numbers in the values of a type. -/
class Numbers (α : Type) where
  /-- Those that have to be there. -/
  required : α → List Float
  /-- Those that may be absent. -/
  dispensable : α → List Float
  /-- The value without those of its optional numbers that are not finite. -/
  settled : α → α

open Numbers (required dispensable settled)

/-- Every number in the value is printed and read faithfully. -/
def FaithfulIn {α : Type} [Numbers α] (a : α) : Prop := ∀ x ∈ required a ++ dispensable a, Faithful x

instance {α : Type} [Numbers α] (a : α) : Decidable (FaithfulIn a) :=
  inferInstanceAs (Decidable (∀ x ∈ required a ++ dispensable a, Faithful x))

/-- The two sides of a codec belong together. -/
class LawfulCodec (α : Type) [Codec α] [Numbers α] : Prop where
  /-- What is written has a text of its own. -/
  sound : ∀ a : α, FaithfulIn a → (Codec.encode a).Sound
  /-- It is read if all numbers that have to be there are finite. -/
  decode : ∀ a : α, FaithfulIn a → Codec.decode? (Codec.encode a) =
    if (required a).all Float.isFinite = true then some (settled a) else none
  /-- Nothing is lost but numbers that are not finite. -/
  settled_eq : ∀ a : α, (∀ x ∈ dispensable a, x.isFinite = true) → settled a = a

section Lawful

variable {α : Type} [Numbers α] {a : α}

theorem sound_of_required (h : FaithfulIn a) (hx : x ∈ required a) : (ofFloat x).Sound :=
  sound_ofFloat (h x (List.mem_append_left _ hx))

theorem sound_of_dispensable (h : FaithfulIn a) (hx : x ∈ dispensable a) : (ofFloat x).Sound :=
  sound_ofFloat (h x (List.mem_append_right _ hx))

theorem float?_of_required (h : FaithfulIn a) (hx : x ∈ required a) :
    float? (ofFloat x) = if x.isFinite = true then some x else none :=
  float?_ofFloat (h x (List.mem_append_left _ hx))

theorem nullable?_of_dispensable (h : FaithfulIn a) (hx : x ∈ dispensable a) :
    nullable? float? (ofFloat x) = some ((some x).filter Float.isFinite) :=
  nullable?_ofFloat (h x (List.mem_append_right _ hx))

end Lawful

@[simp]
theorem bind_ite {α β : Type} {p : Prop} [Decidable p] (a : α) (f : α → Option β) :
    (if p then some a else none).bind f = if p then f a else none := by
  split_ifs <;> rfl

/-- A number that is finite is not lost. -/
theorem filter_isFinite {number : Option Float} (h : ∀ x ∈ number.toList, x.isFinite = true) :
    number.filter Float.isFinite = number := by
  cases number with
  | none => rfl
  | some x => simpa using h

end Cadence.Json
