import ExactEdit.Storage.Basic

/-! # Disks

A disk is a directory with the files and directories below it, as a value. Paths are relative to
it; a path that leaves it, or an absolute one, leads to nothing. Operations fail for the reasons
for which those of a real disk do.

## Main definitions

* `Disk`, `Disk.Entry` — files with their bytes and permissions, and directories
* `Disk.stat` — what a path leads to
* `Disk.readText`, `Disk.replaceFile` — how an editor reads and writes
* `Disk.storage` — a disk as a storage
-/

namespace ExactEdit

/-- What is at a path. -/
inductive Disk.Entry where
  | file (bytes : ByteArray) (mode : Nat)
  | directory (mode : Nat)
  deriving Inhabited

/-- The entries below a directory, by the names on the way to them. -/
structure Disk where
  entries : List (List String × Disk.Entry)
  deriving Inhabited

/-- Why a path cannot be used. -/
inductive DiskError where
  | notFound
  | exists
  | notDirectory
  | isDirectory
  deriving DecidableEq, Repr, Inhabited

/-- The message for a reader. -/
def DiskError.message : DiskError → String
  | notFound => "No such file or directory (os error 2)"
  | «exists» => "File exists (os error 17)"
  | notDirectory => "Not a directory (os error 20)"
  | isDirectory => "Is a directory (os error 21)"

namespace Disk

/-- Permissions of a new file. -/
def newFileMode : Nat := 0o644

/-- Permissions of a new directory. -/
def newDirectoryMode : Nat := 0o755

/-- Permissions of a file that replaces none. It was made for its writer alone. -/
def replacementMode : Nat := 0o600

/-- A disk without entries. -/
def empty : Disk := ⟨[]⟩

/-- Takes the names of a path one by one; `..` goes back to the directory above. -/
def follow (above : List String) : List String → Option (List String)
  | [] => some above.reverse
  | name :: rest =>
    if name = "" ∨ name = "." then follow above rest
    else if name = ".." then
      match above with
      | [] => none
      | _ :: above => follow above rest
    else follow (name :: above) rest

/-- The names on the way to a path; none if it leaves the disk. -/
def names? (path : String) : Option (List String) :=
  if path = "" ∨ path.startsWith "/" then none else follow [] (path.splitOn "/")

/-- Whether a path asks for a directory. -/
def asksDirectory (path : String) : Bool := path.endsWith "/" || path.endsWith "/."

/-- The entry at the end of some names. No names lead to the disk itself. -/
def entry? (disk : Disk) (names : List String) : Option Entry :=
  if names.isEmpty then some (.directory newDirectoryMode)
  else (disk.entries.find? fun entry => entry.1 == names).map (·.2)

/-- Checks that the names up to the last lead through directories. -/
def checkParents (disk : Disk) (names : List String) : Except DiskError Unit :=
  (List.range names.length).forM fun depth =>
    match disk.entry? (names.take depth) with
    | some (.directory _) => .ok ()
    | some (.file ..) => .error .notDirectory
    | none => .error .notFound

/-- The names on the way to a path whose parent is a directory. -/
def place (disk : Disk) (path : String) : Except DiskError (List String) :=
  match names? path with
  | none => .error .notFound
  | some names => (disk.checkParents names).map fun _ => names

/-- What a path leads to. -/
def stat (disk : Disk) (path : String) : Except DiskError Entry := do
  match disk.entry? (← disk.place path) with
  | none => .error .notFound
  | some (.file bytes mode) =>
    if asksDirectory path then .error .notDirectory else .ok (.file bytes mode)
  | some entry => .ok entry

/-- Whether a path leads to something. -/
def isThere (disk : Disk) (path : String) : Bool := (disk.stat path).isOk

/-- Puts an entry at the end of some names. -/
def put (disk : Disk) (names : List String) (entry : Entry) : Disk :=
  if disk.entries.any fun other => other.1 == names then
    ⟨disk.entries.map fun other => if other.1 == names then (names, entry) else other⟩
  else ⟨disk.entries ++ [(names, entry)]⟩

/-- Takes away the entry at the end of some names and those below it. -/
def takeAway (disk : Disk) (names : List String) : Disk :=
  ⟨disk.entries.filter fun other => !names.isPrefixOf other.1⟩

/-- The bytes of a file. -/
def readBytes (disk : Disk) (path : String) : Except DiskError ByteArray := do
  match ← disk.stat path with
  | .file bytes _ => .ok bytes
  | .directory _ => .error .isDirectory

/-- The text of a file, or why it cannot be read. -/
def readText (disk : Disk) (path : String) : Except StorageError String :=
  match disk.stat path with
  | .error error => .error (.ofMetadata path error.message)
  | .ok (.directory _) => .error (.ofRead path DiskError.isDirectory.message)
  | .ok (.file bytes _) => textOfFile path bytes

/-- Writes a file, which keeps its permissions if it is there already. -/
def writeFile (disk : Disk) (path : String) (bytes : ByteArray) : Except DiskError Disk := do
  let names ← disk.place path
  match disk.entry? names with
  | some (.directory _) => .error .isDirectory
  | some (.file _ mode) => .ok (disk.put names (.file bytes mode))
  | none =>
    if asksDirectory path then .error .isDirectory
    else .ok (disk.put names (.file bytes newFileMode))

/-- Replaces a file by a new one with its permissions. -/
def replaceFile (disk : Disk) (path : String) (bytes : ByteArray) : Except DiskError Disk := do
  let names ← disk.place path
  match disk.entry? names with
  | some (.directory _) => .error .isDirectory
  | some (.file _ mode) => .ok (disk.put names (.file bytes mode))
  | none => .ok (disk.put names (.file bytes replacementMode))

/-- Takes away a file. -/
def removeFile (disk : Disk) (path : String) : Except DiskError Disk := do
  match ← disk.stat path with
  | .file .. => .ok (disk.takeAway (← disk.place path))
  | .directory _ => .error .isDirectory

/-- Takes away a directory with everything below it. -/
def removeTree (disk : Disk) (path : String) : Except DiskError Disk := do
  match ← disk.stat path with
  | .file .. => .error .notDirectory
  | .directory _ => .ok (disk.takeAway (← disk.place path))

/-- Makes a directory. -/
def makeDirectory (disk : Disk) (path : String) : Except DiskError Disk := do
  let names ← disk.place path
  match disk.entry? names with
  | some _ => .error .exists
  | none => .ok (disk.put names (.directory newDirectoryMode))

/-- Makes the directories that lead to the end of some names and are not there. -/
def makeDirectoriesTo (disk : Disk) (names : List String) : Except DiskError Disk :=
  (List.range (names.length + 1)).foldlM (fun disk depth =>
    match disk.entry? (names.take depth) with
    | some (.directory _) => .ok disk
    | some (.file ..) => .error (if depth = names.length then .exists else .notDirectory)
    | none => .ok (disk.put (names.take depth) (.directory newDirectoryMode))) disk

/-- Makes a directory and those above it that are not there. -/
def makeDirectories (disk : Disk) (path : String) : Except DiskError Disk :=
  match names? path with
  | none => .error .notFound
  | some names => disk.makeDirectoriesTo names

/-- Sets permissions. -/
def setMode (disk : Disk) (path : String) (mode : Nat) : Except DiskError Disk := do
  let names ← disk.place path
  match ← disk.stat path with
  | .file bytes _ => .ok (disk.put names (.file bytes (mode % 0o10000)))
  | .directory _ => .ok (disk.put names (.directory (mode % 0o10000)))

/-- The permissions for reading, writing and executing. -/
def mode? (disk : Disk) (path : String) : Option Nat :=
  match disk.stat path with
  | .ok (.file _ mode) => some (mode % 0o1000)
  | .ok (.directory mode) => some (mode % 0o1000)
  | .error _ => none

/-- The paths of all files in order. -/
def filePaths (disk : Disk) : List String :=
  (disk.entries.filterMap fun entry =>
    match entry.2 with
    | .file .. => some (String.intercalate "/" entry.1)
    | .directory _ => none).mergeSort fun a b => a ≤ b

/-- A disk as a storage. A write that fails leaves it as it is. -/
def storage : Storage (StateM Disk) where
  read path := fun disk => (disk.readText path, disk)
  write path text := fun disk =>
    match disk.replaceFile path text.toUTF8 with
    | .ok disk => (.ok (), disk)
    | .error error => (.error (.ofReplace path error.message), disk)

end Disk

end ExactEdit
