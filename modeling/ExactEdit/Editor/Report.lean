import ExactEdit.Refusal

/-! # Reports

What is told about an edit, a preview or a batch, whether it succeeded or was refused.
-/

namespace ExactEdit

/-- What is told about an edit or a preview. -/
structure EditReport where
  success : Bool
  message : Option String
  error : Option String
  errorKind : Option Category
  warnings : List String
  linesChanged : Option Nat
  preview : Option String
  assessment : Option Assessment
  suggestions : List Suggestion
  deriving DecidableEq, Repr, Inhabited

/-- The report of a refusal. -/
def EditReport.ofRefusal (refusal : Refusal) : EditReport :=
  { success := false
    message := none
    error := some refusal.message
    errorKind := some refusal.category
    warnings := []
    linesChanged := none
    preview := none
    assessment := refusal.assessment?
    suggestions := refusal.suggestions }

/-- What is told about a batch. -/
structure BatchReport where
  success : Bool
  editsApplied : Nat
  linesChanged : Nat
  warnings : List String
  error : Option String
  errorKind : Option Category
  deriving DecidableEq, Repr, Inhabited

/-- The report of a refused batch. -/
def BatchReport.ofRefusal (refusal : Refusal) : BatchReport :=
  { success := false
    editsApplied := 0
    linesChanged := 0
    warnings := []
    error := some refusal.message
    errorKind := some refusal.category }

end ExactEdit
