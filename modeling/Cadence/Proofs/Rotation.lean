import Mathlib
import Cadence.Log.Rotation
import Cadence.Proofs.Lookup

/-!
# What the log files keep

The log is spread over the current file and its archives. Read from the oldest archive to the current file
they give the messages that were written last, each of them whole. What was written before was dropped with
the archive that it was in.

- `Writer.text_rotate`: a rotation moves every file on by one place;
- `Writer.write_cases`: a message is appended to the current file, or it is the first one after a rotation;
- `Writer.Holds`: which messages each of the files holds;
- `Writer.files_keep_latest`: what the files hold after any number of messages and restarts.
-/

namespace Cadence.Log

/-! ## Directories -/

namespace Directory

variable {d : Directory} {name source target other text : String}

theorem lookup_of_not_has (h : ¬ d.has name = true) : d.lookup name = none :=
  Option.not_isSome_iff_eq_none.mp h

theorem mem_names : name ∈ d.map Prod.fst ↔ (d.lookup name).isSome = true := by
  rw [List.lookup_isSome_iff]
  simp

theorem lookup_put : (d.put name text).lookup other = if other = name then some text else d.lookup other := by
  unfold put
  split_ifs with hthere hother hother
  · obtain ⟨old, hold⟩ := Option.isSome_iff_exists.mp hthere
    rw [hother, lookup_replace_self, hold]
    rfl
  · exact lookup_replace_of_ne hother
  · rw [lookup_add (lookup_of_not_has hthere), if_pos hother]
  · rw [lookup_add (lookup_of_not_has hthere), if_neg hother]

theorem lookup_delete : (d.delete name).lookup other = if other = name then none else d.lookup other :=
  lookup_remove

/-- A file that is there takes the place of the other one. A file that is missing leaves the other one
alone. -/
theorem lookup_rename :
    (d.rename source target).lookup other =
      if other = target then (d.lookup source).or (d.lookup target)
      else if other = source then none else d.lookup other := by
  unfold rename
  cases hsource : d.lookup source with
  | none =>
    split_ifs with htarget hother
    · rw [htarget, Option.none_or]
    · rw [hother, hsource]
    · rfl
  | some text =>
    simp only [lookup_put, lookup_delete, Option.some_or]
    split_ifs <;> rfl

/-- What holds of all names still holds of them when a file is written. -/
theorem names_put {P : String → Prop} (h : ∀ other, (d.lookup other).isSome = true → P other)
    (hname : P name) : ∀ other, ((d.put name text).lookup other).isSome = true → P other := by
  intro other hother
  rw [lookup_put] at hother
  split_ifs at hother with heq
  · exact heq ▸ hname
  · exact h other hother

theorem names_delete {P : String → Prop} (name : String)
    (h : ∀ other, (d.lookup other).isSome = true → P other) :
    ∀ other, ((d.delete name).lookup other).isSome = true → P other := by
  intro other hother
  rw [lookup_delete] at hother
  split_ifs at hother with heq
  · cases hother
  · exact h other hother

theorem names_rename {P : String → Prop} (h : ∀ other, (d.lookup other).isSome = true → P other)
    (htarget : P target) : ∀ other, ((d.rename source target).lookup other).isSome = true → P other := by
  unfold rename
  split
  · exact h
  · exact names_put (names_delete _ (names_delete _ h)) htarget

theorem nodup_put (h : (d.map Prod.fst).Nodup) : ((d.put name text).map Prod.fst).Nodup := by
  unfold put
  split_ifs with hthere
  · rw [map_fst_replace]
    exact h
  · have hnew : name ∉ d.map Prod.fst := mem_names.not.mpr hthere
    rw [List.map_append, List.map_singleton, ← List.concat_eq_append]
    exact h.concat hnew

theorem nodup_delete (h : (d.map Prod.fst).Nodup) : ((d.delete name).map Prod.fst).Nodup :=
  h.sublist (List.filter_sublist.map _)

theorem nodup_rename (h : (d.map Prod.fst).Nodup) : ((d.rename source target).map Prod.fst).Nodup := by
  unfold rename
  split
  · exact h
  · exact nodup_put (nodup_delete (nodup_delete h))

end Directory

/-! ## The files of a log -/

/-- The files of a log by their age: the current file, then its archives from the latest to the oldest. -/
def fileName : ℕ → String
  | 0 => currentName
  | index + 1 => archiveName (index + 1)

theorem fileName_inj :
    ∀ i ≤ archiveCount, ∀ j ≤ archiveCount, (fileName i = fileName j ↔ i = j) := by
  decide

namespace Writer

/-- What a file holds, nothing if it is not there. -/
def text (w : Writer) (age : ℕ) : String := (w.directory.lookup (fileName age)).getD ""

/-- What the files hold, read from the oldest one to the current one. -/
def read (w : Writer) : String := w.text 4 ++ w.text 3 ++ w.text 2 ++ w.text 1 ++ w.text 0

/-- The files of a writer are in order: a name has one file, they are the files of the log, and the size of
the current file is known while it is open. -/
structure Ordered (w : Writer) : Prop where
  /-- A name has one file. -/
  nodup : (w.directory.map Prod.fst).Nodup
  /-- There is nothing but the files of the log. -/
  names : ∀ name, (w.directory.lookup name).isSome = true → ∃ age ≤ archiveCount, name = fileName age
  /-- The known size is the one that the current file has. -/
  size : ∀ size, w.size = some size → size = (w.text 0).utf8ByteSize

theorem ordered_start : (start []).Ordered where
  nodup := List.nodup_nil
  names _ h := by cases h
  size _ h := by cases h

variable {w : Writer} {m : Message} {added : String}

/-! ### Opening the current file -/

theorem size_ensureOpen (w : Writer) : w.ensureOpen.2.size = some w.ensureOpen.1 := by
  unfold ensureOpen
  split
  · assumption
  · rfl

/-- Opening the current file makes it if it is missing, and changes nothing else. -/
theorem directory_ensureOpen (w : Writer) :
    w.ensureOpen.2.directory = w.directory ∨
      w.directory.lookup currentName = none ∧
        w.ensureOpen.2.directory = w.directory.put currentName "" := by
  unfold ensureOpen
  split
  · exact .inl rfl
  · simp only
    split_ifs with hthere
    · exact .inl rfl
    · exact .inr ⟨Directory.lookup_of_not_has hthere, rfl⟩

theorem text_ensureOpen (w : Writer) (age : ℕ) : w.ensureOpen.2.text age = w.text age := by
  unfold text
  rcases directory_ensureOpen w with h | ⟨hnone, h⟩
  · rw [h]
  · rw [h, Directory.lookup_put]
    split_ifs with hage
    · rw [hage, hnone]
      rfl
    · rfl

/-- The size that is found is that of the current file. -/
theorem ensureOpen_size (hw : w.Ordered) : w.ensureOpen.1 = (w.text 0).utf8ByteSize := by
  cases hsize : w.size with
  | none => simp only [ensureOpen, hsize, text, fileName]
  | some size =>
    rw [← hw.size size hsize]
    simp only [ensureOpen, hsize]

/-- A file that is open is not opened again. -/
theorem ensureOpen_of_size {size : ℕ} (h : w.size = some size) : w.ensureOpen = (size, w) := by
  simp only [ensureOpen, h]

/-- A file of the log can be written. -/
theorem Ordered.put (hw : w.Ordered) {size : Option ℕ}
    (hsize : ∀ n, size = some n → n = added.utf8ByteSize) :
    Ordered ⟨w.directory.put currentName added, size⟩ where
  nodup := Directory.nodup_put hw.nodup
  names := Directory.names_put hw.names ⟨0, Nat.zero_le _, rfl⟩
  size n h := by
    have htext : text ⟨w.directory.put currentName added, size⟩ 0 = added := by
      rw [text, Directory.lookup_put, fileName, if_pos rfl]
      rfl
    rw [htext]
    exact hsize n h

theorem Ordered.ensureOpen (hw : w.Ordered) : w.ensureOpen.2.Ordered := by
  have hsize : ∀ n, w.ensureOpen.2.size = some n → n = (w.ensureOpen.2.text 0).utf8ByteSize := by
    intro n hn
    rw [text_ensureOpen, ← ensureOpen_size hw]
    exact (Option.some.inj ((size_ensureOpen w).symm.trans hn)).symm
  rcases directory_ensureOpen w with h | ⟨-, h⟩
  · exact ⟨by rw [h]; exact hw.nodup, by rw [h]; exact hw.names, hsize⟩
  · have hput : Ordered ⟨w.directory.put currentName "", none⟩ := hw.put (by simp)
    exact ⟨by rw [h]; exact hput.nodup, by rw [h]; exact hput.names, hsize⟩

/-! ### Appending -/

theorem append_eq (w : Writer) (added : String) :
    w.append added = ⟨w.ensureOpen.2.directory.put currentName (w.text 0 ++ added),
      some (w.ensureOpen.1 + added.utf8ByteSize)⟩ := by
  rw [← text_ensureOpen]
  rfl

theorem text_append (w : Writer) {age : ℕ} (hage : age ≤ archiveCount) :
    (w.append added).text age = if age = 0 then w.text 0 ++ added else w.text age := by
  rw [text, append_eq, Directory.lookup_put]
  split_ifs with hname hzero hzero
  · rfl
  · exact absurd ((fileName_inj _ hage 0 (Nat.zero_le _)).mp hname) hzero
  · exact absurd (by rw [hzero]; rfl) hname
  · exact text_ensureOpen w age

theorem Ordered.append (hw : w.Ordered) : (w.append added).Ordered := by
  rw [append_eq]
  refine hw.ensureOpen.put ?_
  rintro n ⟨⟩
  rw [ensureOpen_size hw, String.utf8ByteSize_append]

/-! ### Rotating -/

/-- The oldest archive is deleted, and every other file takes the place that was left before. -/
theorem directory_rotate (w : Writer) : w.rotate.directory =
    (((((w.directory.delete (fileName 4)).rename (fileName 3) (fileName 4)).rename
      (fileName 2) (fileName 3)).rename (fileName 1) (fileName 2)).rename (fileName 0) (fileName 1)) :=
  rfl

/-- A rotation moves every file on by one place. The oldest archive is gone, and there is no current file. -/
theorem text_rotate (w : Writer) {age : ℕ} (hage : age ≤ archiveCount) :
    w.rotate.text age = if age = 0 then "" else w.text (age - 1) := by
  have hne : ∀ i ≤ archiveCount, ∀ j ≤ archiveCount, i ≠ j → fileName i ≠ fileName j :=
    fun i hi j hj => mt (fileName_inj i hi j hj).mp
  unfold text
  rw [directory_rotate]
  -- The files have names of their own, so each is where the one call that moves it has put it.
  unfold archiveCount at *
  interval_cases age <;>
    simp only [Directory.lookup_rename, Directory.lookup_delete] <;> simp [hne]

theorem Ordered.rotate (hw : w.Ordered) : w.rotate.Ordered where
  nodup := by
    rw [directory_rotate]
    iterate 4 apply Directory.nodup_rename
    exact Directory.nodup_delete hw.nodup
  names := by
    rw [directory_rotate]
    have hlog : ∀ age ≤ archiveCount, ∃ other ≤ archiveCount, fileName age = fileName other :=
      fun age hage => ⟨age, hage, rfl⟩
    have hdeleted := Directory.names_delete (fileName 4) hw.names
    exact Directory.names_rename (Directory.names_rename (Directory.names_rename
      (Directory.names_rename hdeleted (hlog 4 (by decide))) (hlog 3 (by decide)))
        (hlog 2 (by decide))) (hlog 1 (by decide))
  size _ h := by cases h

/-! ### Writing -/

/-- A message is too much for the current file. -/
def Overflows (w : Writer) (m : Message) : Prop :=
  sizeLimit < (w.text 0).utf8ByteSize + (lineOf m).utf8ByteSize

/-- A message is appended to the current file, or it is the first one after a rotation. -/
theorem write_cases (hw : w.Ordered) (m : Message) :
    (w.write m).Ordered ∧
      (¬ w.Overflows m ∧ (∀ age ≤ archiveCount,
          (w.write m).text age = if age = 0 then w.text 0 ++ lineOf m else w.text age) ∨
        w.Overflows m ∧ (∀ age ≤ archiveCount,
          (w.write m).text age = if age = 0 then lineOf m else w.text (age - 1))) := by
  have hrotates : w.ensureOpen.2.rotatesFor m = true ↔ w.Overflows m := by
    rw [rotatesFor, ensureOpen_of_size (size_ensureOpen w), ensureOpen_size hw, decide_eq_true_iff]
    rfl
  unfold write
  simp only
  split_ifs with hfull
  · -- The message is the first one of a file that is new.
    refine ⟨hw.ensureOpen.rotate.append, .inr ⟨hrotates.mp hfull, fun age hage => ?_⟩⟩
    rw [text_append _ hage, text_rotate _ hage, text_rotate _ (Nat.zero_le _), text_ensureOpen, if_pos rfl,
      String.empty_append]
    split_ifs
    · rfl
    · exact text_ensureOpen w (age - 1)
  · refine ⟨hw.ensureOpen.append, .inl ⟨mt hrotates.mpr hfull, fun age hage => ?_⟩⟩
    rw [text_append _ hage, text_ensureOpen, text_ensureOpen]

theorem Ordered.restart (hw : w.Ordered) : (start w.directory).Ordered :=
  ⟨hw.nodup, hw.names, fun _ h => by cases h⟩

/-! ### Messages -/

/-- The lines of some messages, one after another. -/
def linesOf (messages : List Message) : String := String.join (messages.map lineOf)

@[simp]
theorem linesOf_nil : linesOf [] = "" := rfl

theorem linesOf_append (first second : List Message) :
    linesOf (first ++ second) = linesOf first ++ linesOf second := by
  rw [linesOf, List.map_append, String.join_append]
  rfl

theorem linesOf_singleton (m : Message) : linesOf [m] = lineOf m := by
  rw [linesOf, List.map_singleton, String.join_cons, String.join_nil, String.append_empty]

/-- Every file holds whole messages, and one that is larger than the limit holds a single one. -/
structure Holds (w : Writer) (held : ℕ → List Message) : Prop where
  /-- The files are in order. -/
  ordered : w.Ordered
  /-- A file holds its messages, one after another. -/
  text_eq : ∀ age ≤ archiveCount, w.text age = linesOf (held age)
  /-- A file that is too large holds a single message. -/
  single : ∀ age ≤ archiveCount, sizeLimit < (w.text age).utf8ByteSize → ∃ m, held age = [m]

/-- All messages that the files hold, from the oldest one. -/
def kept (held : ℕ → List Message) : List Message := held 4 ++ held 3 ++ held 2 ++ held 1 ++ held 0

theorem Holds.read_eq {held : ℕ → List Message} (h : w.Holds held) : w.read = linesOf (kept held) := by
  obtain ⟨-, htext, -⟩ := h
  rw [read, htext 4 (by decide), htext 3 (by decide), htext 2 (by decide), htext 1 (by decide),
    htext 0 (by decide)]
  simp only [kept, linesOf_append]

theorem holds_start : (start []).Holds fun _ => [] where
  ordered := ordered_start
  text_eq _ _ := rfl
  single _ _ h := absurd h (Nat.not_lt_zero _)

/-- Nothing is lost when a message is written, but the oldest archive if the message is too much for the
current file. -/
theorem Holds.write {held : ℕ → List Message} (h : w.Holds held) (m : Message) :
    ∃ held', (w.write m).Holds held' ∧
      (kept held' = kept held ++ [m] ∨ w.Overflows m ∧ held 4 ++ kept held' = kept held ++ [m]) := by
  obtain ⟨hordered, ⟨hfits, htext⟩ | ⟨hfull, htext⟩⟩ := write_cases h.ordered m
  · -- Only the current file holds one message more.
    refine ⟨fun age => if age = 0 then held 0 ++ [m] else held age, ⟨hordered, fun age hage => ?_,
      fun age hage hlarge => ?_⟩, .inl (by simp [kept])⟩
    · rw [htext age hage]
      split_ifs
      · rw [linesOf_append, linesOf_singleton, h.text_eq 0 (Nat.zero_le _)]
      · exact h.text_eq age hage
    · rw [htext age hage] at hlarge
      split_ifs at hlarge ⊢
      · -- What the message still fits into is no larger than the limit.
        rw [String.utf8ByteSize_append] at hlarge
        exact absurd hlarge hfits
      · exact h.single age hage hlarge
  · -- Each file holds what the one before it did, and the fourth archive is gone.
    refine ⟨fun age => if age = 0 then [m] else held (age - 1), ⟨hordered, fun age hage => ?_,
      fun age hage hlarge => ?_⟩, .inr ⟨hfull, by simp [kept]⟩⟩
    · rw [htext age hage]
      split_ifs
      · rw [linesOf_singleton]
      · exact h.text_eq (age - 1) ((Nat.sub_le _ _).trans hage)
    · rw [htext age hage] at hlarge
      split_ifs at hlarge ⊢
      · exact ⟨m, rfl⟩
      · exact h.single (age - 1) ((Nat.sub_le _ _).trans hage) hlarge

theorem Holds.restart {held : ℕ → List Message} (h : w.Holds held) : (start w.directory).Holds held :=
  ⟨h.ordered.restart, h.text_eq, h.single⟩

/-! ## Histories -/

/-- What happens to a log. -/
inductive Event where
  /-- A message is written. -/
  | write (m : Message)
  /-- The program starts again, and makes a new writer for the directory. -/
  | restart
deriving Repr, DecidableEq

/-- The messages that are written. -/
def Event.messages : Event → List Message
  | .write m => [m]
  | .restart => []

/-- The writer after something happened. -/
def after (w : Writer) : Event → Writer
  | .write m => w.write m
  | .restart => start w.directory

/-- The writer after a history that began with an empty directory. -/
def ofHistory (history : List Event) : Writer := history.foldl after (start [])

theorem Holds.after {held : ℕ → List Message} (h : w.Holds held) (event : Event) :
    ∃ held', (w.after event).Holds held' ∧
      (kept held' = kept held ++ event.messages ∨
        ∃ m, event = .write m ∧ w.Overflows m ∧ held 4 ++ kept held' = kept held ++ [m]) := by
  cases event with
  | write m =>
    obtain ⟨held', hheld', hkept⟩ := h.write m
    exact ⟨held', hheld', hkept.imp id fun hdropped => ⟨m, rfl, hdropped⟩⟩
  | restart => exact ⟨held, h.restart, .inl (List.append_nil _).symm⟩

/-- What the files hold are the messages that were written last. -/
theorem holds_ofHistory (history : List Event) :
    ∃ dropped held, (ofHistory history).Holds held ∧
      history.flatMap Event.messages = dropped ++ kept held := by
  -- The last event is the last step of the fold, so the induction goes from the end.
  induction history using List.reverseRecOn with
  | nil => exact ⟨[], _, holds_start, rfl⟩
  | append_singleton history event ih =>
    obtain ⟨dropped, held, hheld, hwritten⟩ := ih
    obtain ⟨held', hheld', hkept⟩ := hheld.after event
    have hlast : ofHistory (history ++ [event]) = (ofHistory history).after event := by
      rw [ofHistory, List.foldl_concat]
      rfl
    have hmessages : (history ++ [event]).flatMap Event.messages =
        dropped ++ (kept held ++ event.messages) := by
      rw [List.flatMap_append, hwritten, List.append_assoc]
      simp
    rw [hlast, hmessages]
    rcases hkept with hall | ⟨m, rfl, -, hoverflow⟩
    · exact ⟨dropped, held', hheld', by rw [hall]⟩
    · exact ⟨dropped ++ held 4, held', hheld', by rw [List.append_assoc, hoverflow]; rfl⟩

/-- After any history that began with an empty directory: there are at most the current file and four
archives, one of each name. Read from the oldest archive to the current file they give what was written last,
in order and from the beginning of a message on; every file holds whole messages, and one that is larger than
the limit holds a single one. Whatever happens next, nothing is lost of what the files give, unless a message
is too much for the current file; then it is just what the fourth archive holds. -/
theorem files_keep_latest (history : List Event) :
    let w := ofHistory history
    (w.directory.map Prod.fst).Nodup ∧
    (∀ name ∈ w.directory.map Prod.fst,
      name = currentName ∨ ∃ index, 1 ≤ index ∧ index ≤ 4 ∧ name = archiveName index) ∧
    (∃ dropped held, history.flatMap Event.messages = dropped ++ kept held ∧
      w.read = linesOf (kept held) ∧
      (∀ age ≤ 4, w.text age = linesOf (held age)) ∧
      (∀ age ≤ 4, sizeLimit < (w.text age).utf8ByteSize → ∃ m, held age = [m])) ∧
    ∀ event, (w.after event).read = w.read ++ linesOf event.messages ∨
      ∃ m, event = .write m ∧ w.Overflows m ∧ w.text 4 ++ (w.after event).read = w.read ++ lineOf m := by
  intro w
  obtain ⟨dropped, held, hheld, hwritten⟩ := holds_ofHistory history
  refine ⟨hheld.ordered.nodup, fun name hname => ?_,
    ⟨dropped, held, hwritten, hheld.read_eq, hheld.text_eq, hheld.single⟩, fun event => ?_⟩
  · obtain ⟨age, hage, rfl⟩ := hheld.ordered.names name (Directory.mem_names.mp hname)
    cases age with
    | zero => exact .inl rfl
    | succ index => exact .inr ⟨index + 1, Nat.le_add_left _ _, hage, rfl⟩
  · obtain ⟨held', hheld', hkept⟩ := hheld.after event
    rw [hheld'.read_eq, hheld.read_eq]
    rcases hkept with hall | ⟨m, rfl, hoverflow, hdropped⟩
    · exact .inl (by rw [hall, linesOf_append])
    · refine .inr ⟨m, rfl, hoverflow, ?_⟩
      rw [hheld.text_eq 4 le_rfl, ← linesOf_append, hdropped, linesOf_append, linesOf_singleton]

end Writer

end Cadence.Log
