import ExactEdit.Check.Balance
import ExactEdit.Check.Indentation
import ExactEdit.Refusal
import ExactEdit.Syntax.Diagnostic

/-! # Making an assessment

An edit is assessed in a fixed order: texts that mean no edit, filters that select nothing, the
occurrences, indentation, balance, the snippet checker, suggestions. The first two refuse the
edit; everything else, no occurrence at all included, is a finding.
-/

namespace ExactEdit

/-- Says what is wrong with a snippet on its own. -/
abbrev SnippetChecker : Type := String → List String

/-- The warnings of a checker about the new text. They count only if the old text has none. -/
def checkerWarnings (checker : Option SnippetChecker) (old new : String) : List String :=
  match checker with
  | none => []
  | some diagnose =>
    if (diagnose old).isEmpty then
      ((diagnose new).take maxDiagnostics).map ("parser: " ++ ·)
    else []

/-- How a call ends if a look-up in its text has no answer. -/
def Failure.ofSource : SourceFailure → Failure
  | .position error => .refused (.position error)
  | .stopped fault => .stopped fault

/-- The scopes that a constraint selects, inside a larger computation. -/
def resolveOrRefuse (table : ScopeTable) (constraint : Constraint) :
    Except Refusal (Option (List Nat)) :=
  (table.resolve constraint).mapError .scope

/-- Whether a selection has more than one scope. -/
def selectsMany : Option (List Nat) → Bool
  | some ids => 1 < ids.length
  | none => false

/-- Assesses the replacement of one text by another under a constraint. -/
def assess (basis : SuggestionBasis) (checker : Option SnippetChecker) (old new : String)
    (constraint : Constraint) : Except Failure Assessment := do
  (checkTexts old new).mapError fun error => .refused (.input error)
  let within ← (resolveOrRefuse basis.scopes constraint).mapError .refused
  let occurrences ←
    (findOccurrences basis.source basis.scopes basis.contextLines old within).mapError .ofSource
  let unbalanced := balanceWarnings new
  let suggested ←
    if 1 < occurrences.length then
      (suggestions basis old new occurrences).mapError .stopped
    else .ok []
  return {
    occurrences
    requireUnique := constraint.requireUnique
    ambiguousContext := selectsMany within
    indentationIssues := indentationIssues old new
    syntaxWarnings := unbalanced ++ checkerWarnings checker old new
    syntaxValid := unbalanced.isEmpty
    suggestions := suggested }

end ExactEdit
