import ExactEdit.Proofs.Result
import ExactEdit.Storage.Disk

/-! # Files on a disk

What is read from a disk after a file was replaced. Replacing puts one entry at the end of the
names of a path and touches no other, so the directories that lead there still do, and the path
leads to the new bytes.

## Main definitions

* `Disk.file?` — the bytes of a file on a disk

## Main results

* `Disk.entry?_put` — one entry is put, and the others stay
* `Disk.file?_of_readText` — what is read is the text of the file's bytes
* `Disk.file?_of_replaceFile` — a file that was replaced has the new bytes
-/

namespace ExactEdit

open Result

/-- The text of some bytes has these bytes. -/
theorem toUTF8_of_textOfFile {path text : String} {bytes : ByteArray}
    (h : textOfFile path bytes = .ok text) : text.toUTF8 = bytes := by
  rw [textOfFile, String.fromUTF8?] at h
  split at h
  · next decoded hdecoded =>
    obtain rfl := Except.ok.inj h
    split at hdecoded
    · obtain rfl := Option.some.inj hdecoded
      rfl
    · cases hdecoded
  · split at h
    · cases h
    · cases h

/-- The bytes of a text are read as this text. -/
theorem textOfFile_toUTF8 (path text : String) : textOfFile path text.toUTF8 = .ok text := by
  rw [textOfFile, String.fromUTF8?, String.toUTF8_eq_toByteArray, dif_pos text.isValidUTF8]
  rfl

namespace Disk

variable {disk replaced : Disk} {names other : List String} {entry : Entry} {path text : String}
variable {bytes : ByteArray}

/-- The bytes of a file, if a path leads to one. -/
def file? (path : String) (disk : Disk) : Option ByteArray := (disk.readBytes path).toOption

theorem file?_eq_some_iff : disk.file? path = some bytes ↔ ∃ mode,
    disk.stat path = .ok (.file bytes mode) := by
  rw [file?, readBytes]
  cases disk.stat path with
  | error error => simp [bind, Except.bind, Except.toOption]
  | ok entry => cases entry <;> simp [bind, Except.bind, Except.toOption]

theorem stat_eq_ok_file_iff {mode : Nat} : disk.stat path = .ok (.file bytes mode) ↔
    asksDirectory path = false ∧ ∃ names, disk.place path = .ok names ∧
      disk.entry? names = some (.file bytes mode) := by
  rw [stat, bind_eq_ok_iff]
  constructor
  · rintro ⟨names, hplace, h⟩
    split at h
    · cases h
    · next hentry =>
      split at h
      · cases h
      · next hfile =>
        obtain ⟨rfl, rfl⟩ := Entry.file.inj (Except.ok.inj h)
        exact ⟨Bool.eq_false_iff.mpr hfile, names, hplace, hentry⟩
    · next hother hentry =>
      obtain rfl := Except.ok.inj h
      exact absurd rfl (hother bytes mode)
  · rintro ⟨hfile, names, hplace, hentry⟩
    refine ⟨names, hplace, ?_⟩
    rw [hentry]
    simp [hfile]

theorem entry?_of_ne_nil (hother : other ≠ []) :
    disk.entry? other = (disk.entries.find? fun entry => entry.1 == other).map (·.2) := by
  unfold entry?
  rw [if_neg (List.isEmpty_iff.not.mpr hother)]

/-- One entry is put, and the others stay. -/
theorem entry?_put (hnames : names ≠ []) :
    Disk.entry? (disk.put names entry) other =
      if other = names then some entry else disk.entry? other := by
  by_cases hroot : other = []
  · rw [hroot, if_neg hnames.symm]
    rfl
  rw [entry?_of_ne_nil hroot, entry?_of_ne_nil hroot, put]
  split
  · next hthere =>
    -- The names stay where they are, so the same place is found as before.
    have hsame : ((fun new : List String × Entry => new.1 == other) ∘
        fun old => if old.1 == names then (names, entry) else old) = fun old => old.1 == other := by
      funext old
      by_cases hold : old.1 = names <;> simp [hold]
    rw [List.find?_map, hsame]
    cases hfound : disk.entries.find? fun old => old.1 == other with
    | none =>
      have hother : other ≠ names := by
        rintro rfl
        obtain ⟨old, hmem, hkey⟩ := List.any_eq_true.mp hthere
        exact List.find?_eq_none.mp hfound old hmem hkey
      rw [if_neg hother]
      rfl
    | some old =>
      have hkey := List.find?_some hfound
      obtain rfl : old.1 = other := beq_iff_eq.mp hkey
      by_cases hnew : old.1 = names <;> simp [hnew]
  · next hmissing =>
    rw [List.find?_append]
    by_cases hnew : other = names
    · subst hnew
      have hnone : (disk.entries.find? fun old => old.1 == other) = none :=
        List.find?_eq_none.mpr fun old hold hkey =>
          hmissing (List.any_eq_true.mpr ⟨old, hold, hkey⟩)
      simp [hnone]
    · simp [hnew, Ne.symm hnew]

theorem checkParents_eq_ok_iff : disk.checkParents names = .ok () ↔
    ∀ depth < names.length, ∃ mode, disk.entry? (names.take depth) = some (.directory mode) := by
  rw [checkParents, forM_eq_ok_iff]
  simp only [List.mem_range]
  refine forall₂_congr fun depth _ => ?_
  rcases disk.entry? (names.take depth) with _ | ⟨bytes, mode⟩ | mode <;> simp

/-- What leads to a place is not touched when an entry is put there. -/
theorem place_put (hnames : names ≠ []) (h : disk.place path = .ok names) :
    (disk.put names entry).place path = .ok names := by
  rw [place] at h ⊢
  cases hpath : names? path with
  | none => simp [hpath] at h
  | some found =>
    rw [hpath] at h
    obtain ⟨_, hparents, rfl⟩ := map_eq_ok_iff.mp h
    refine map_eq_ok_iff.mpr ⟨(), checkParents_eq_ok_iff.mpr fun depth hdepth => ?_, rfl⟩
    have hfront : found.take depth ≠ found := fun heq => by
      have := congrArg List.length heq
      rw [List.length_take] at this
      omega
    rw [entry?_put hnames, if_neg hfront]
    exact checkParents_eq_ok_iff.mp hparents depth hdepth

/-- What is read is the text of the file's bytes. -/
theorem file?_of_readText (h : disk.readText path = .ok text) :
    disk.file? path = some text.toUTF8 := by
  rw [readText] at h
  split at h
  · cases h
  · cases h
  · next bytes mode hstat =>
    rw [file?_eq_some_iff, toUTF8_of_textOfFile h]
    exact ⟨mode, hstat⟩

/-- A file that was replaced has the new bytes. -/
theorem file?_of_replaceFile (hthere : disk.file? path ≠ none)
    (h : disk.replaceFile path bytes = .ok replaced) : replaced.file? path = some bytes := by
  obtain ⟨old, hold⟩ := Option.ne_none_iff_exists'.mp hthere
  obtain ⟨mode, hstat⟩ := file?_eq_some_iff.mp hold
  obtain ⟨hfile, names, hplace, hentry⟩ := stat_eq_ok_file_iff.mp hstat
  obtain ⟨_, hplace', h⟩ := bind_eq_ok_iff.mp h
  obtain rfl := Except.ok.inj (hplace.symm.trans hplace')
  rw [hentry] at h
  obtain rfl := Except.ok.inj h
  have hnames : names ≠ [] := by
    rintro rfl
    cases hentry
  refine file?_eq_some_iff.mpr ⟨mode, stat_eq_ok_file_iff.mpr
    ⟨hfile, names, place_put hnames hplace, ?_⟩⟩
  rw [entry?_put hnames, if_pos rfl]

end Disk

end ExactEdit
