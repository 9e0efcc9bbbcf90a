import ExactEdit.Assessment.Basic
import ExactEdit.Request.Basic
import ExactEdit.Scope.Resolve

/-! # Refusals

A refusal says why an edit was not made, with all that a caller needs to ask again. Every
refusal belongs to a category, which fixes its name in reports, and ends the program with an exit
code. A refusal of a batch is that of the request in it.

## Main definitions

* `Refusal` — the causes
* `Refusal.category`, `Category.exitCode` — the categories and their exit codes
* `Refusal.exitCode` — the exit code of a refusal
* `Refusal.suggestions`, `Refusal.IsAmbiguity` — what an ambiguity carries for a second try
* `Refusal.message`, `Refusal.code`, `Refusal.help?` — what a reader sees
* `Failure` — a refusal, or a stop without an answer
-/

namespace ExactEdit

/-- Why an edit was not made. -/
inductive Refusal where
  /-- The request means nothing. -/
  | input (error : InputError)
  /-- The filters select no scope. -/
  | scope (error : ScopeError)
  /-- The old text does not occur where the filters allow. -/
  | textNotFound (search : String) (scope : Option String)
  /-- The filters select scopes that start on these lines, with `count` occurrences in all. -/
  | ambiguousContext (kind : ScopeKind) (name : String) (lines : List Nat) (count : Nat)
      (suggestions : List Suggestion)
  /-- The old text occurs on these lines. -/
  | ambiguousOccurrence (search : String) (count : Nat) (lines : List Nat)
      (suggestions : List Suggestion)
  /-- Checks of the new text speak against the edit. -/
  | hazard (reasons : List String) (assessment : Assessment)
  /-- A request of a batch was refused. -/
  | batch (index : Nat) (cause : Refusal)
  /-- A batch was taken back at a request. -/
  | transaction (index : Nat) (reason : String)
  /-- A batch could not be taken back. -/
  | rollbackFailed (index : Nat) (reason : String)
  /-- The file is not as it was last seen. -/
  | fileChanged (path : String)
  /-- The file could not be read or written. -/
  | io (action path message : String)
  /-- A coordinate names no place. -/
  | position (error : PositionError)
  /-- The text could not be parsed. -/
  | parse (message : String)
  deriving Repr, Inhabited

/-- What kind of failure a refusal is. -/
inductive Category where
  | input
  | notFound
  | ambiguousContext
  | ambiguousOccurrence
  | hazard
  | transaction
  | io
  deriving DecidableEq, Repr, Inhabited

/-- The name of a category in reports. -/
def Category.label : Category → String
  | input => "input"
  | notFound => "not_found"
  | ambiguousContext => "ambiguous_context"
  | ambiguousOccurrence => "ambiguous_occurrence"
  | hazard => "unsafe"
  | transaction => "transaction"
  | io => "io"

/-- The exit code of a category. -/
def Category.exitCode : Category → Nat
  | ambiguousContext => 2
  | ambiguousOccurrence => 2
  | input => 3
  | notFound => 4
  | hazard => 5
  | transaction => 6
  | io => 7

namespace Refusal

/-- The category of a refusal. -/
def category : Refusal → Category
  | input _ => .input
  | position _ => .input
  | scope _ => .notFound
  | textNotFound .. => .notFound
  | ambiguousContext .. => .ambiguousContext
  | ambiguousOccurrence .. => .ambiguousOccurrence
  | hazard .. => .hazard
  | batch _ cause => cause.category
  | transaction .. => .transaction
  | rollbackFailed .. => .io
  | fileChanged _ => .io
  | io .. => .io
  | parse _ => .io

/-- The exit code of a refusal. -/
def exitCode : Refusal → Nat
  | ambiguousContext .. => 2
  | ambiguousOccurrence .. => 2
  | input _ => 3
  | position _ => 3
  | scope _ => 4
  | textNotFound .. => 4
  | hazard .. => 5
  | batch _ cause => cause.exitCode
  | transaction .. => 6
  | rollbackFailed .. => 7
  | fileChanged _ => 7
  | io .. => 7
  | parse _ => 7

/-- Whether a narrower or more lenient request may succeed. -/
def isRecoverable : Refusal → Bool
  | ambiguousContext .. => true
  | ambiguousOccurrence .. => true
  | hazard .. => true
  | batch _ cause => cause.isRecoverable
  | _ => false

/-- The suggestions of an ambiguity. -/
def suggestions : Refusal → List Suggestion
  | ambiguousContext _ _ _ _ suggestions => suggestions
  | ambiguousOccurrence _ _ _ suggestions => suggestions
  | batch _ cause => cause.suggestions
  | _ => []

/-- A refusal is an ambiguity that carries these suggestions. -/
inductive IsAmbiguity (carried : List Suggestion) : Refusal → Prop
  | context {kind : ScopeKind} {name : String} {lines : List Nat} {count : Nat} :
      IsAmbiguity carried (.ambiguousContext kind name lines count carried)
  | occurrence {search : String} {count : Nat} {lines : List Nat} :
      IsAmbiguity carried (.ambiguousOccurrence search count lines carried)

/-- An ambiguity hands out the suggestions that it carries. -/
theorem IsAmbiguity.suggestions_eq {refusal : Refusal} {carried : List Suggestion}
    (h : refusal.IsAmbiguity carried) : refusal.suggestions = carried := by
  cases h with
  | context => rfl
  | occurrence => rfl

/-- The assessment behind a hazard. -/
def assessment? : Refusal → Option Assessment
  | hazard _ assessment => some assessment
  | batch _ cause => cause.assessment?
  | _ => none

/-- Numbers in a row. -/
def commaSeparated (numbers : List Nat) : String :=
  String.intercalate ", " (numbers.map fun number => toString number)

/-- The message for a reader. -/
def message : Refusal → String
  | input error => error.message
  | scope error => error.message
  | textNotFound search described =>
    let place := (described.map (" in " ++ ·)).getD ""
    s!"`{search}` not found{place}"
  | ambiguousContext kind name lines _ _ =>
    let found := kind.named name
    let count := lines.length
    s!"{found} is ambiguous: {count} scopes match (lines {commaSeparated lines})"
  | ambiguousOccurrence search count lines _ =>
    s!"`{search}` occurs {count} times (lines {commaSeparated lines})"
  | hazard reasons _ => "edit rejected as unsafe: " ++ String.intercalate "; " reasons
  | batch index cause => s!"operation {index} failed validation: " ++ cause.message
  | transaction index reason => s!"transaction rolled back at operation {index}: {reason}"
  | rollbackFailed index reason => s!"rollback after operation {index} failed: {reason}"
  | fileChanged path => s!"{path} changed on disk since it was loaded"
  | io action path message => s!"failed to {action} {path}: {message}"
  | position error => error.message
  | parse message => s!"unable to parse source: {message}"

/-- The code under which a refusal is reported. -/
def code : Refusal → String
  | input _ => "scopedit::input"
  | scope _ => "scopedit::scope_not_found"
  | textNotFound .. => "scopedit::text_not_found"
  | ambiguousContext .. => "scopedit::ambiguous_context"
  | ambiguousOccurrence .. => "scopedit::ambiguous_occurrence"
  | hazard .. => "scopedit::unsafe_edit"
  | batch .. => "scopedit::batch"
  | transaction .. => "scopedit::transaction"
  | rollbackFailed .. => "scopedit::rollback"
  | fileChanged _ => "scopedit::file_changed"
  | io .. => "scopedit::io"
  | position _ => "scopedit::position"
  | parse _ => "scopedit::parse"

/-- What a reader may do about a refusal. -/
def help? : Refusal → Option String
  | scope (.notFound ..) => some "list the available scopes with `scopedit scopes <FILE>`"
  | ambiguousContext .. =>
    some "combine filters (e.g. --within-class with --within-method) to pick one scope"
  | ambiguousOccurrence .. =>
    some "retry with one of the suggested unique replacements, or allow multiple matches"
  | hazard .. =>
    some "indentation issues can be overridden; unbalanced braces or parentheses cannot"
  | rollbackFailed .. =>
    some "the file may be partially edited; restore it from version control"
  | fileChanged _ => some "reload the file and retry"
  | _ => none

end Refusal

/-- How a call ends without a result. -/
inductive Failure where
  /-- The edit was refused. -/
  | refused (refusal : Refusal)
  /-- The program stopped. -/
  | stopped (fault : Fault)
  deriving Repr, Inhabited

end ExactEdit
