import ProcScript.FileTree

/-!
# Files

What a write changes.  `FileTree.put` changes one place.  Every walk passes through directories
only, and a file is put where none is, so whatever path led somewhere leads there still
(`FileTree.locate_put`), and the path that was written is read back
(`FileTree.written_of_write`).  All else that a program does with files leaves the tree as it is:
it is done alike to `FileTree.view`, the files of a tree that nothing changes.
-/

namespace ProcScript

namespace FileTree

variable {t t' : FileTree} {place other : Place} {path text : String}

/-! ### One place changed -/

@[simp] theorem isDir_put (content : ByteArray) : (t.put place content).isDir other =
    t.isDir other :=
  rfl

@[simp] theorem dirs_put (content : ByteArray) : (t.put place content).dirs = t.dirs := rfl

@[simp] theorem workDir_put (content : ByteArray) : (t.put place content).workDir = t.workDir := rfl

@[simp] theorem file?_put_self (content : ByteArray) :
    (t.put place content).file? place = some content := by
  simp [file?, put]

theorem lookup_filter_ne (h : other ≠ place) :
    (contents : List (Place × ByteArray)) →
      (contents.filter fun e => e.1 ≠ place).lookup other = contents.lookup other
  | []           => rfl
  | (p, c) :: es => by
      rw [List.lookup_cons, List.filter_cons]
      by_cases hp : p = place
      · have hother : (other == p) = false := by simpa [hp] using h
        rw [if_neg (by simpa using hp), hother]
        exact lookup_filter_ne h es
      · rw [if_pos (by simpa using hp), List.lookup_cons, lookup_filter_ne h es]

theorem file?_put_of_ne (content : ByteArray) (h : other ≠ place) :
    (t.put place content).file? other = t.file? other := by
  have hother : (other == place) = false := by simpa using h
  rw [file?, put, List.lookup_cons, hother]
  exact lookup_filter_ne h t.contents

/-! ### Paths after a write -/

/-- A walk that arrives has passed through directories only. -/
theorem walk_put (content : ByteArray) {new : Place} (hnew : t.isDir new = false) :
    (parts : List String) → (place : Place) → t.walk place parts = .ok other →
      (t.put new content).walk place parts = .ok other
  | [],            place, h => h
  | part :: parts, place, h => by
      rw [walk] at h ⊢
      cases hfile : (t.file? place).isSome with
      | true  => simp [hfile] at h
      | false =>
          cases hdir : t.isDir place with
          | false => simp [hfile, hdir] at h
          | true  =>
              have hne : place ≠ new := by
                rintro rfl
                simp [hdir] at hnew
              simp only [hfile, hdir, Bool.false_eq_true, if_false, Bool.not_true] at h
              simp only [file?_put_of_ne content hne, hfile, isDir_put, hdir, Bool.false_eq_true,
                if_false, Bool.not_true]
              split at h
              · rw [if_pos ‹_›]
                exact walk_put content hnew parts place h
              · rw [if_neg ‹_›]
                split at h
                · rw [if_pos ‹_›]
                  exact walk_put content hnew parts place.dropLast h
                · rw [if_neg ‹_›]
                  split at h
                  · cases h
                  · rw [if_neg ‹_›]
                    exact walk_put content hnew parts (place ++ [part]) h

/-- Whatever path led somewhere leads there still when a file is made where no directory is. -/
theorem locate_put (content : ByteArray) (hplace : t.isDir place = false)
    (h : t.locate path = .ok other) : (t.put place content).locate path = .ok other := by
  rw [locate, follow] at h ⊢
  split at h
  · cases h
  · rw [if_neg ‹_›]
    split at h
    · cases h
    · rw [if_neg ‹_›]
      exact walk_put content hplace _ _ h

/-- A file is made where its path leads. -/
theorem locate_of_locateNew (h : t.locateNew path = .ok place) : t.locate path = .ok place := by
  simp only [locateNew] at h
  split at h
  · split at h
    · split at h
      · exact h
      · rename_i hslash _
        cases hf : t.follow path (_ ++ [""]) <;> rw [hf] at h <;> cases h
    · exact h
  · exact h

theorem fromUTF8?_toUTF8 (s : String) : String.fromUTF8? s.toUTF8 = some s := by
  simp only [String.fromUTF8?, String.toUTF8_eq_toByteArray, dif_pos s.isValidUTF8]
  rfl

/-- A file that holds a text is read as that text. -/
theorem read_of_file? (hplace : t.locate path = .ok place)
    (hfile : t.file? place = some text.toUTF8) : t.read path = .ok text := by
  simp only [read, hplace, bind, Except.bind, hfile, fromUTF8?_toUTF8]
  rfl

/-- A path and nothing else was written: its file is the text, and every other file is as before,
and so are the directories. -/
structure Written (t : FileTree) (path text : String) (t' : FileTree) : Prop where
  file : ∃ place, t.locateNew path = .ok place ∧ t.isDir place = false ∧
    t'.file? place = some text.toUTF8 ∧ ∀ other, other ≠ place → t'.file? other = t.file? other
  read : t'.read path = .ok text
  dirs : t'.dirs = t.dirs
  workDir : t'.workDir = t.workDir

theorem write_eq_ok_iff : t.write path text = .ok t' ↔
    ∃ place, t.locateNew path = .ok place ∧ t.isDir place = false ∧
      t' = t.put place text.toUTF8 := by
  rw [write]
  cases hplace : t.locateNew path with
  | error e => exact ⟨nofun, fun ⟨_, h, _⟩ => nomatch h⟩
  | ok place =>
      cases hdir : t.isDir place with
      | true  =>
          refine ⟨fun h => ?_, fun ⟨_, h, hnot, _⟩ => ?_⟩
          · simp [bind, Except.bind, hdir] at h
          · obtain rfl := Except.ok.inj h
            simp [hdir] at hnot
      | false =>
          simp only [bind, Except.bind, hdir, Bool.false_eq_true, if_false]
          refine ⟨fun h => ⟨place, rfl, hdir, (Except.ok.inj h).symm⟩, ?_⟩
          rintro ⟨_, hplace', -, rfl⟩
          obtain rfl := Except.ok.inj hplace'
          rfl

/-- **A write is read back and changes nothing else.** -/
theorem written_of_write (h : t.write path text = .ok t') : t.Written path text t' := by
  obtain ⟨place, hnew, hdir, rfl⟩ := write_eq_ok_iff.mp h
  have hlocate := locate_put text.toUTF8 hdir (locate_of_locateNew hnew)
  exact ⟨⟨place, hnew, hdir, file?_put_self _, fun other => file?_put_of_ne _⟩,
    read_of_file? hlocate (file?_put_self _), dirs_put _, workDir_put _⟩

/-- What was written can be written. -/
theorem Written.write_eq_ok (h : t.Written path text t') : ∃ t'', t.write path text = .ok t'' := by
  obtain ⟨place, hnew, hdir, -⟩ := h.file
  exact ⟨_, write_eq_ok_iff.mpr ⟨place, hnew, hdir, rfl⟩⟩

/-! ### Files that nothing changes -/

/-- The files of a tree that nothing changes; what is written to them is lost. -/
def view (t : FileTree) : Files Id where
  read path := t.read path
  isFile path := t.isFile path
  resolve path := t.resolve path
  write path text := (t.write path text).map fun _ => ()

end FileTree

end ProcScript
