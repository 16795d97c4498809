import Mathlib
import Cadence.Proofs.Lookup
import Cadence.Proofs.Toml.Line
import Cadence.Toml.Format

/-!
# Documents read back

A document of named sections is written one statement a line. The statements are read in that order, and
carrying them out gives a table with one table for each section, which holds what was assigned in it.

- `Section.Plain`: what has to hold of a section for this;
- `hasStatements_print`: the statements of a written document;
- `parse?_print?`: the table that a written document describes;
- `Format.Faithful`: what is asked of a way to write and read documents, and `Format.byLine_faithful`: that this
  one is such.
-/

namespace Cadence.Toml

variable {cs rest : List Char} {sts : List Statement}

/-! ## The statements of a document -/

/-- A text has these statements, however much fuel is left over. -/
def HasStatements (cs : List Char) (sts : List Statement) : Prop :=
  ∀ fuel, cs.length < fuel → statements? fuel cs = some sts

theorem hasStatements_nil : HasStatements [] [] := by
  intro fuel hfuel
  obtain ⟨fuel, rfl⟩ := Nat.exists_eq_add_one_of_ne_zero (show fuel ≠ 0 by omega)
  rfl

/-- A line has its statement first, if it has one. -/
theorem hasStatements_line {line : List Char} {st : Option Statement}
    (hline : statement? (line ++ '\n' :: rest) = some (st, '\n' :: rest)) (h : HasStatements rest sts) :
    HasStatements (line ++ '\n' :: rest) (st.toList ++ sts) := by
  intro fuel hfuel
  obtain ⟨fuel, rfl⟩ := Nat.exists_eq_add_one_of_ne_zero (show fuel ≠ 0 by omega)
  have hlength : rest.length < fuel := by
    rw [List.length_append, List.length_cons] at hfuel
    omega
  have hbreak : lineRest? ('\n' :: rest) = some rest := by
    rw [lineRest?, skipBlanks_of_not_blank (by decide)]
    rfl
  have hne : (line ++ '\n' :: rest).isEmpty = false := by simp
  simp [statements?, hne, hline, hbreak, h fuel hlength]

/-- What a section has to be like to be written and read. -/
structure Section.Plain (s : Section) : Prop where
  /-- Its name needs no quotes. -/
  name : BareKey s.name
  /-- Neither does what is assigned in it. -/
  keys : ∀ entry ∈ s.entries, BareKey entry.1
  /-- Nothing is assigned twice. -/
  nodup : (s.entries.map Prod.fst).Nodup
  /-- It is a scalar or a list of scalars, and texts hold no control characters. -/
  legible : ∀ entry ∈ s.entries, entry.2.Legible

/-- The statements of assignments. -/
def assignments (entries : List (String × Value)) : List Statement :=
  entries.map fun (key, value) => .assign [key] value

/-- The statements of a section. -/
def Section.statements (s : Section) : List Statement := .table [s.name] :: assignments s.entries

theorem hasStatements_assignments {entries : List (String × Value)} {lines : List (List Char)}
    (hkeys : ∀ entry ∈ entries, BareKey entry.1) (hlegible : ∀ entry ∈ entries, entry.2.Legible)
    (hlines : entries.mapM assignmentChars? = some lines) (h : HasStatements rest sts) :
    HasStatements (lines.flatten ++ rest) (assignments entries ++ sts) := by
  induction entries generalizing lines with
  | nil =>
    cases hlines
    exact h
  | cons entry entries ih =>
    obtain ⟨line, lines, hline, hothers, rfl⟩ := mapM_cons_eq_some.mp hlines
    obtain ⟨chars, hchars, hline⟩ := Option.bind_eq_some_iff.mp hline
    cases hline
    rw [List.forall_mem_cons] at hkeys hlegible
    have hmore := ih hkeys.2 hlegible.2 hothers
    have hstatement := statement?_assignment hkeys.1 hlegible.1 hchars (lines.flatten ++ rest)
    -- The line is put together from the left when it is written, and taken apart from there when read.
    have htext : ((entry.1.toList ++ " = ".toList ++ chars ++ ['\n']) :: lines).flatten ++ rest =
        entry.1.toList ++ (" = ".toList ++ (chars ++ '\n' :: (lines.flatten ++ rest))) := by
      simp
    have hline : entry.1.toList ++ (" = ".toList ++ (chars ++ '\n' :: (lines.flatten ++ rest))) =
        (entry.1.toList ++ (" = ".toList ++ chars)) ++ '\n' :: (lines.flatten ++ rest) := by
      simp only [List.append_assoc]
    rw [hline] at hstatement
    rw [htext, hline]
    exact hasStatements_line hstatement hmore

/-- The lines of a section are read as its statements. -/
theorem hasStatements_section {s : Section} {chars : List Char} (hs : s.Plain)
    (hchars : s.chars? = some chars) (h : HasStatements rest sts) :
    HasStatements (chars ++ rest) (s.statements ++ sts) := by
  obtain ⟨lines, hlines, heq⟩ := Option.bind_eq_some_iff.mp hchars
  cases heq
  have htext : ['['] ++ s.name.toList ++ [']', '\n'] ++ lines.flatten ++ rest =
      ('[' :: (s.name.toList ++ [']'])) ++ '\n' :: (lines.flatten ++ rest) := by
    simp
  have hheader := statement?_header hs.name (lines.flatten ++ rest)
  have hmore := hasStatements_assignments hs.keys hs.legible hlines h
  have hline : statement? (('[' :: (s.name.toList ++ [']'])) ++ '\n' :: (lines.flatten ++ rest)) =
      some (some (.table [s.name]), '\n' :: (lines.flatten ++ rest)) := by
    rw [← hheader]
    simp
  rw [htext]
  exact hasStatements_line hline hmore

/-- A document is read as the statements of its sections. The empty lines between them hold none. -/
theorem hasStatements_print {sections : List Section} {written : List (List Char)}
    (hsections : ∀ s ∈ sections, s.Plain) (hwritten : sections.mapM Section.chars? = some written) :
    HasStatements (List.intercalate ['\n'] written) (sections.flatMap Section.statements) := by
  induction sections generalizing written with
  | nil =>
    cases hwritten
    exact hasStatements_nil
  | cons s sections ih =>
    obtain ⟨chars, written, hchars, hmore, rfl⟩ := mapM_cons_eq_some.mp hwritten
    rw [List.forall_mem_cons] at hsections
    rw [List.flatMap_cons]
    have hrest := ih hsections.2 hmore
    -- Only between two sections there is an empty line.
    cases sections with
    | nil =>
      cases hmore
      have hsection := hasStatements_section hsections.1 hchars hasStatements_nil
      simpa [List.intercalate] using hsection
    | cons next sections =>
      obtain ⟨nextChars, others, -, -, rfl⟩ := mapM_cons_eq_some.mp hmore
      have hempty : statement? ([] ++ '\n' :: List.intercalate ['\n'] (nextChars :: others)) =
          some (none, '\n' :: List.intercalate ['\n'] (nextChars :: others)) := by
        rw [List.nil_append, statement?, skipBlanks_of_not_blank (by decide)]
        rfl
      have hsection := hasStatements_section hsections.1 hchars (hasStatements_line hempty hrest)
      simpa [List.intercalate, List.intersperse] using hsection

/-! ## Documents that cannot be written -/

theorem mapM_eq_none {α β : Type} {f : α → Option β} {l : List α} :
    l.mapM f = none ↔ ∃ a ∈ l, f a = none := by
  induction l with
  | nil => simp
  | cons a l ih =>
    simp only [List.mapM_cons, List.mem_cons, exists_eq_or_imp, ← ih]
    cases f a <;> cases l.mapM f <;> simp

/-- A document cannot be written exactly if one of its values cannot. -/
theorem print?_eq_none {document : List Section} :
    print? document = none ↔ ∃ s ∈ document, ∃ entry ∈ s.entries, entry.2.chars? = none := by
  have hassignment (entry : String × Value) : assignmentChars? entry = none ↔ entry.2.chars? = none := by
    cases h : entry.2.chars? <;> simp [assignmentChars?, h]
  have hsection (s : Section) : s.chars? = none ↔ ∃ entry ∈ s.entries, entry.2.chars? = none := by
    simp only [← hassignment, ← mapM_eq_none]
    cases h : s.entries.mapM assignmentChars? <;> simp [Section.chars?, h]
  simp only [← hsection, ← mapM_eq_none]
  cases h : document.mapM Section.chars? <;> simp [print?, h]

/-! ## Carrying the statements out -/

theorem lookup_none {entries : Entries} {key : String} (h : key ∉ entries.map Prod.fst) :
    entries.lookup key = none := by
  rw [List.lookup_eq_none_iff]
  intro entry hentry
  rw [bne_iff_ne]
  rintro rfl
  exact h (List.mem_map_of_mem hentry)

theorem lookup_last {entries : Entries} {key : String} {node : Node} (h : key ∉ entries.map Prod.fst) :
    (entries ++ [(key, node)]).lookup key = some node := by
  rw [lookup_add (lookup_none h), if_pos rfl]

theorem replace_last {entries : Entries} {key : String} {node other : Node}
    (h : key ∉ entries.map Prod.fst) :
    Entries.replace (entries ++ [(key, node)]) key other = entries ++ [(key, other)] := by
  rw [Entries.replace, List.map_append]
  refine congrArg₂ (· ++ ·) ?_ (by simp)
  -- The key is new, so no entry before it is replaced.
  refine (List.map_congr_left fun entry hentry => ?_).trans (List.map_id entries)
  exact if_neg fun (heq : entry.1 = key) => h (heq ▸ List.mem_map_of_mem hentry)

/-- A header opens a table of its own. -/
theorem step_table {g : Growing} {name : String} (h : name ∉ g.entries.map Prod.fst) :
    g.step (.table [name]) = some ⟨g.entries ++ [(name, .table .opened [])], [name]⟩ := by
  simp [Growing.step, Entries.openTable?, Entries.descend?, lookup_none h]

/-- An assignment adds to the table that was opened last. -/
theorem step_assign {entries inner : Entries} {name key : String} {v : Value}
    (hname : name ∉ entries.map Prod.fst) (hkey : key ∉ inner.map Prod.fst) :
    Growing.step ⟨entries ++ [(name, .table .opened inner)], [name]⟩ (.assign [key] v) =
      some ⟨entries ++ [(name, .table .opened (inner ++ [(key, .value v)]))], [name]⟩ := by
  simp [Growing.step, Entries.assignIn?, Entries.assign?, Entries.descend?, Entries.add?, lookup_last hname,
    lookup_none hkey, replace_last hname]

/-- The entries that assignments make. -/
def nodes (entries : List (String × Value)) : Entries := entries.map fun (key, v) => (key, .value v)

theorem foldlM_assignments {before : Entries} (inner : Entries) {name : String}
    {entries : List (String × Value)} (hname : name ∉ before.map Prod.fst)
    (hnodup : (inner.map Prod.fst ++ entries.map Prod.fst).Nodup) :
    (assignments entries).foldlM Growing.step ⟨before ++ [(name, .table .opened inner)], [name]⟩ =
      some ⟨before ++ [(name, .table .opened (inner ++ nodes entries))], [name]⟩ := by
  induction entries generalizing inner with
  | nil => simp [assignments, nodes]
  | cons entry entries ih =>
    obtain ⟨key, v⟩ := entry
    have hkey : key ∉ inner.map Prod.fst := fun hmem =>
      List.disjoint_of_nodup_append hnodup hmem List.mem_cons_self
    have hmore := ih (inner ++ [(key, .value v)]) (by simpa using hnodup)
    rw [assignments, List.map_cons, List.foldlM_cons, step_assign hname hkey]
    simpa [nodes, assignments] using hmore

/-- The node of a section. -/
def Section.node (s : Section) : String × Node := (s.name, .table .opened (nodes s.entries))

theorem foldlM_sections (before : Entries) (header : List String) {sections : List Section}
    (hsections : ∀ s ∈ sections, s.Plain)
    (hnodup : (before.map Prod.fst ++ sections.map Section.name).Nodup) :
    ∃ last, (sections.flatMap Section.statements).foldlM Growing.step ⟨before, header⟩ =
      some ⟨before ++ sections.map Section.node, last⟩ := by
  induction sections generalizing before header with
  | nil => exact ⟨header, by simp⟩
  | cons s sections ih =>
    rw [List.forall_mem_cons] at hsections
    have hname : s.name ∉ before.map Prod.fst := fun hmem =>
      List.disjoint_of_nodup_append hnodup hmem List.mem_cons_self
    obtain ⟨last, hmore⟩ := ih (before ++ [s.node]) [s.name] hsections.2
      (by simpa [Section.node] using hnodup)
    refine ⟨last, ?_⟩
    have hsection := foldlM_assignments [] hname (by simpa using hsections.1.nodup)
    rw [List.flatMap_cons, List.foldlM_append, Section.statements, List.foldlM_cons, step_table hname]
    simp only [Option.bind_eq_bind, Option.bind_some, hsection, List.nil_append]
    simpa [Section.node] using hmore

/-! ## The table of a document -/

theorem settledEntries_nodes (entries : List (String × Value)) :
    settledEntries (nodes entries) = entries := by
  induction entries with
  | nil => rfl
  | cons entry entries ih =>
    change (entry.1, _) :: settledEntries (nodes entries) = _
    rw [ih]
    rfl

theorem settledEntries_sections (sections : List Section) :
    settledEntries (sections.map Section.node) = sections.map fun s => (s.name, .table s.entries) := by
  induction sections with
  | nil => rfl
  | cons s sections ih =>
    rw [List.map_cons, List.map_cons, ← ih, Section.node, settledEntries, Node.settled, settledEntries_nodes]

/-- A written document starts with a header. -/
theorem withoutMark_print {sections : List Section} {written : List (List Char)}
    (hwritten : sections.mapM Section.chars? = some written) :
    withoutMark (List.intercalate ['\n'] written) = List.intercalate ['\n'] written := by
  cases sections with
  | nil =>
    cases hwritten
    rfl
  | cons s sections =>
    obtain ⟨chars, written, hchars, -, rfl⟩ := mapM_cons_eq_some.mp hwritten
    obtain ⟨lines, -, heq⟩ := Option.bind_eq_some_iff.mp hchars
    cases heq
    cases written <;> rfl

/-- The table that a written document describes has one table for each section. -/
theorem parse?_print? {sections : List Section} {text : String} (hsections : ∀ s ∈ sections, s.Plain)
    (hnodup : (sections.map Section.name).Nodup) (htext : print? sections = some text) :
    parse? text = some (sections.map fun s => (s.name, .table s.entries)) := by
  obtain ⟨written, hwritten, heq⟩ := Option.bind_eq_some_iff.mp htext
  cases heq
  have hstatements := hasStatements_print hsections hwritten _ (Nat.lt_succ_self _)
  obtain ⟨last, hgrown⟩ := foldlM_sections [] [] hsections (by simpa using hnodup)
  rw [parse?, String.toList_ofList, withoutMark_print hwritten, hstatements]
  simp only [Option.bind_eq_bind, Option.bind_some, hgrown, List.nil_append, Option.pure_def,
    settledEntries_sections]

/-! ## What is asked of a format -/

/-- An integer that 64 bits with a sign do not hold. -/
def Value.OversizedScalar : Value → Prop
  | .integer n => isInteger n = false
  | _ => False

/-- Such an integer, or a list with one in it. -/
def Value.Oversized : Value → Prop
  | .array items => ∃ item ∈ items, item.OversizedScalar
  | v => v.OversizedScalar

/-- A format writes and reads scalars and lists of them faithfully. -/
structure Format.Faithful (T : Format) : Prop where
  /-- A document is written unless there is an integer in it that 64 bits with a sign do not hold. -/
  print? : ∀ {document : List Section}, (∀ s ∈ document, s.Plain) → (document.map Section.name).Nodup →
    (T.print? document = none ↔ ∃ s ∈ document, ∃ entry ∈ s.entries, entry.2.Oversized)
  /-- What is written is read as a table with one table for each section. -/
  parse? : ∀ {document : List Section} {text : String}, (∀ s ∈ document, s.Plain) →
    (document.map Section.name).Nodup → T.print? document = some text →
      T.parse? text = some (document.map fun s => (s.name, .table s.entries))

theorem scalarChars?_eq_none {v : Value} (hv : v.LegibleScalar) :
    v.scalarChars? = none ↔ v.OversizedScalar := by
  cases v with
  | integer n => simp [Value.scalarChars?, Value.OversizedScalar]
  | bool b => cases b <;> simp [Value.scalarChars?, Value.OversizedScalar]
  | text _ | float _ => simp [Value.scalarChars?, Value.OversizedScalar]
  | date | array _ | table _ => exact hv.elim

/-- A legible value cannot be written exactly if an integer in it is too large. -/
theorem chars?_eq_none {v : Value} (hv : v.Legible) : v.chars? = none ↔ v.Oversized := by
  cases v with
  | array items =>
    have hline (item : Value) (hitem : item ∈ items) : itemLine? item = none ↔ item.OversizedScalar := by
      rw [← scalarChars?_eq_none (hv item hitem), itemLine?]
      cases item.scalarChars? <;> simp
    have hlines : items.mapM itemLine? = none ↔ ∃ item ∈ items, item.OversizedScalar := by
      rw [mapM_eq_none]
      exact exists_congr fun item => and_congr_right (hline item)
    have hchars : (Value.array items).chars? = none ↔ items.mapM itemLine? = none := by
      change (items.mapM itemLine? >>= fun lines => some (['[', '\n'] ++ lines.flatten ++ [']'])) = none ↔ _
      cases items.mapM itemLine? <;> simp
    exact hchars.trans hlines
  | text value => exact scalarChars?_eq_none (v := .text value) hv
  | integer n => exact scalarChars?_eq_none (v := .integer n) hv
  | float x => exact scalarChars?_eq_none (v := .float x) hv
  | bool value => exact scalarChars?_eq_none (v := .bool value) hv
  | date | table _ => exact hv.elim

theorem Format.byLine_faithful : Format.byLine.Faithful where
  print? hsections _ := by
    -- Value by value, since a section is written as its assignments are.
    refine print?_eq_none.trans (exists_congr fun s => and_congr_right fun hs => ?_)
    refine exists_congr fun entry => and_congr_right fun hentry => ?_
    exact chars?_eq_none ((hsections s hs).legible entry hentry)
  parse? hsections hnodup htext := parse?_print? hsections hnodup htext

end Cadence.Toml
