import ExactEdit.Suggestion

/-! # Assessments

An assessment gathers what speaks for and against an edit: the occurrences of the old text that
the constraint allows, changes of indentation, warnings about the new text, and suggestions.
-/

namespace ExactEdit

/-- The findings about an edit. `ambiguousContext` tells that the filters select more than one
scope, `syntaxValid` that the new text is balanced. -/
structure Assessment where
  occurrences : List Occurrence
  requireUnique : Bool
  ambiguousContext : Bool
  indentationIssues : List String
  syntaxWarnings : List String
  syntaxValid : Bool
  suggestions : List Suggestion
  deriving DecidableEq, Repr, Inhabited

namespace Assessment

/-- Number of occurrences. -/
def occurrenceCount (assessment : Assessment) : Nat := assessment.occurrences.length

/-- Whether there is exactly one occurrence. -/
def isUnique (assessment : Assessment) : Bool := assessment.occurrenceCount == 1

/-- Whether nothing speaks against the edit. -/
def isSafe (assessment : Assessment) : Bool :=
  assessment.syntaxValid && assessment.indentationIssues.isEmpty
    && (assessment.isUnique || !assessment.requireUnique)

end Assessment

end ExactEdit
