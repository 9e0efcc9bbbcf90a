import ExactEdit.Text.Utf8

/-! # Storage

An editor with a file reads and writes it through a storage, which says what happens in the
language of some monad: a model of a disk, or the disk itself. A file is read as text only if it
is UTF-8; it is replaced as a whole or not at all.
-/

namespace ExactEdit

/-- Why a file could not be read or written: what was tried, and what went wrong. -/
structure StorageError where
  attempt : String
  cause : String
  deriving DecidableEq, Repr, Inhabited

/-- The message for a reader. -/
def StorageError.message (error : StorageError) : String := error.attempt ++ ": " ++ error.cause

/-- Reading and writing of text files by path. -/
structure Storage (m : Type → Type) where
  read : String → m (Except StorageError String)
  write : String → String → m (Except StorageError Unit)

namespace StorageError

/-- The size of a file could not be found out. -/
def ofMetadata (path cause : String) : StorageError :=
  ⟨"Failed to read metadata for " ++ path, cause⟩

/-- A file could not be read. -/
def ofRead (path cause : String) : StorageError := ⟨"Failed to read file " ++ path, cause⟩

/-- A file could not be replaced. -/
def ofReplace (path cause : String) : StorageError := ⟨"Failed to replace " ++ path, cause⟩

end StorageError

/-- Files with more bytes than this are decoded in one piece, and the place of a fault is told. -/
def largeFileSize : Nat := 1024 * 1024

/-- The text of a file's bytes. -/
def textOfFile (path : String) (bytes : ByteArray) : Except StorageError String :=
  match String.fromUTF8? bytes with
  | some text => .ok text
  | none =>
    if largeFileSize < bytes.size then
      let cause := ((Utf8.fault? bytes.toList).map Utf8.Fault.message).getD ""
      .error ⟨path ++ " is not valid UTF-8", cause⟩
    else .error (.ofRead path "stream did not contain valid UTF-8")

end ExactEdit
