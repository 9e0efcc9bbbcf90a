import ExactEdit.Proofs.Storage.Disk

/-! # Files behind a storage

What is relied on in a storage. The weakest demand is that looking at files, and failing to write
one, leave the files alone. A storage that serves a file gives its text when it is read, and a
write that succeeds puts the new text in its place; reading and writing may fail at any time. A
disk does all of this.

A storage can be made to record the writes that it is asked for. Recording changes nothing else,
and shows how often a file is written, and with which texts.

## Main definitions

* `Storage.KeepsFiles` — reading and failing to write leave the files alone
* `Storage.Serves` — the file at a path is read and written
* `Storage.recording` — the storage with a record of the writes that were tried

## Main results

* `Disk.keepsFiles_storage`, `Disk.serves_storage` — a disk is such a storage
* `Storage.Serves.recording` — so is a storage that records
-/

namespace ExactEdit

variable {σ α : Type}

/-- Reading, and writing without success, leave the files alone; `files` is what is to be seen of
them in a state. -/
structure Storage.KeepsFiles (storage : Storage (StateM σ)) (files : σ → α) : Prop where
  read : ∀ path state, files (storage.read path state).2 = files state
  failedWrite : ∀ path text state error state',
    storage.write path text state = (.error error, state') → files state' = files state

theorem Disk.keepsFiles_storage : Disk.storage.KeepsFiles (id : Disk → Disk) where
  read _ _ := rfl
  failedWrite path text disk error disk' h := by
    simp only [Disk.storage] at h
    split at h
    · cases h
    · obtain ⟨-, rfl⟩ := Prod.mk.inj h
      rfl

/-- The file at a path is read and written; `file` is its bytes in a state, if it is there. What is
read is the text of these bytes, and a file that was there has the bytes of the text that was
written to it with success. -/
structure Storage.Serves (storage : Storage (StateM σ)) (path : String)
    (file : σ → Option ByteArray) : Prop extends storage.KeepsFiles file where
  readText : ∀ state text state', storage.read path state = (.ok text, state') →
    file state = some text.toUTF8
  written : ∀ text state state', file state ≠ none →
    storage.write path text state = (.ok (), state') → file state' = some text.toUTF8

theorem Disk.serves_storage (path : String) : Disk.storage.Serves path (Disk.file? path) where
  read other disk := congrArg _ (Disk.keepsFiles_storage.read other disk)
  failedWrite other text disk error disk' h :=
    congrArg _ (Disk.keepsFiles_storage.failedWrite other text disk error disk' h)
  readText disk text disk' h := Disk.file?_of_readText (Prod.mk.inj h).1
  written text disk disk' hthere h := by
    simp only [Disk.storage] at h
    split at h
    · next replaced hreplaced =>
      obtain ⟨-, rfl⟩ := Prod.mk.inj h
      exact Disk.file?_of_replaceFile hthere hreplaced
    · cases h

/-! ## Recording -/

/-- A write that was tried, and whether it was made. -/
structure Attempt where
  path : String
  text : String
  made : Bool
  deriving DecidableEq, Repr

/-- The storage with a record of the writes that were tried, last first. -/
def Storage.recording (storage : Storage (StateM σ)) :
    Storage (StateM (σ × List Attempt)) where
  read path := fun (state, record) =>
    let (result, state') := storage.read path state
    (result, (state', record))
  write path text := fun (state, record) =>
    match storage.write path text state with
    | (.ok (), state') => (.ok (), (state', ⟨path, text, true⟩ :: record))
    | (.error error, state') => (.error error, (state', ⟨path, text, false⟩ :: record))

theorem Storage.Serves.recording {storage : Storage (StateM σ)} {path : String}
    {file : σ → Option ByteArray} (h : storage.Serves path file) :
    storage.recording.Serves path (file ∘ Prod.fst) where
  read other := fun (state, record) => h.read other state
  failedWrite other text := fun (state, record) error after hfailed => by
    simp only [Storage.recording] at hfailed
    split at hfailed
    · cases hfailed
    · next state' hwrite =>
      obtain ⟨hsame, rfl⟩ := Prod.mk.inj hfailed
      exact h.failedWrite _ _ _ _ _ hwrite
  readText := fun (state, record) text after hread => by
    obtain ⟨htext, -⟩ := Prod.mk.inj hread
    exact h.readText state text _ (Prod.ext htext rfl)
  written := fun text (state, record) after hthere hmade => by
    simp only [Storage.recording] at hmade
    split at hmade
    · next state' hwrite =>
      obtain ⟨-, rfl⟩ := Prod.mk.inj hmade
      exact h.written _ _ _ hthere hwrite
    · cases hmade

/-! ## One file -/

namespace Disk

/-- A disk with the file `f` and nothing else. -/
def ofFile (text : String) : Disk := ⟨[(["f"], .file text.toUTF8 newFileMode)]⟩

theorem place_ofFile (text : String) : (ofFile text).place "f" = .ok ["f"] := by
  -- Neither of the two steps from character to character is one that computes.
  have hsplit : "f".splitOn "/" = ["f"] := by
    rw [String.splitOn, if_neg (by decide), String.splitOnAux, if_neg (by decide +kernel),
      if_neg (by decide +kernel), String.splitOnAux, if_pos (by decide +kernel)]
    decide +kernel
  have hnames : names? "f" = some ["f"] := by
    rw [names?, hsplit, if_neg (by decide +kernel)]
    rfl
  rw [place, hnames]
  rfl

theorem stat_ofFile (text : String) :
    (ofFile text).stat "f" = .ok (.file text.toUTF8 newFileMode) :=
  stat_eq_ok_file_iff.mpr ⟨by decide +kernel, _, place_ofFile text, rfl⟩

theorem read_ofFile (text : String) : storage.read "f" (ofFile text) = (.ok text, ofFile text) := by
  simp only [storage, readText, stat_ofFile, textOfFile_toUTF8]

theorem write_ofFile (old new : String) :
    storage.write "f" new (ofFile old) = (.ok (), ofFile new) := by
  simp only [storage, replaceFile, place_ofFile]
  rfl

theorem file?_ofFile (text : String) : (ofFile text).file? "f" = some text.toUTF8 :=
  file?_eq_some_iff.mpr ⟨_, stat_ofFile text⟩

end Disk

end ExactEdit
