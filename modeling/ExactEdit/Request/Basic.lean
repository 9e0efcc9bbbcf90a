import ExactEdit.Request.Constraint

/-! # Requests

A request replaces one occurrence of an old text by a new one, where its constraint allows.
-/

namespace ExactEdit

/-- An old text, the new text for it, and where the edit may land. -/
structure Request where
  oldText : String
  newText : String
  constraint : Constraint
  deriving DecidableEq, Repr, Inhabited

/-- Why a request or a batch of them means nothing in any text. -/
inductive InputError where
  /-- There is nothing to search for. -/
  | emptySearch
  /-- The new text is the old one. -/
  | noOp
  /-- There are no requests. -/
  | emptyBatch
  deriving DecidableEq, Repr, Inhabited

/-- The message for a reader. -/
def InputError.message : InputError → String
  | emptySearch => "search text is empty"
  | noOp => "replacement is identical to the search text"
  | emptyBatch => "batch contains no operations"

/-- Refuses an old and a new text that mean no edit. -/
def checkTexts (old new : String) : Except InputError Unit :=
  if old.isEmpty then .error .emptySearch
  else if old = new then .error .noOp
  else .ok ()

end ExactEdit
