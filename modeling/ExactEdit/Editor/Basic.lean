import ExactEdit.Assessment.Assess
import ExactEdit.Diff.Hunk
import ExactEdit.Editor.Report
import ExactEdit.Settings.Basic
import ExactEdit.Source.ContentId

/-! # Editors

An editor holds one text, in memory or from a file, with all that is derived from it: the line
index, the scopes and the content id. This module has what an editor does without a file: it
finds, assesses, plans and previews edits.

## Main definitions

* `Editor` — a text with what is derived from it
* `Editor.inMemory` — an editor of a text without a file
* `Editor.plan` — where and how an edit would be made, or why not
* `Editor.preview` — the difference that an edit would make
-/

namespace ExactEdit

/-- What an editor is doing, or how its last edit ended. -/
inductive Phase where
  | idle
  | validating
  | applying
  | applied
  | rejected
  deriving DecidableEq, Repr, Inhabited

/-- The name of a phase. -/
def Phase.label : Phase → String
  | idle => "idle"
  | validating => "validating"
  | applying => "applying"
  | applied => "applied"
  | rejected => "rejected"

/-- A text with what is derived from it, and how it is edited. -/
structure Editor where
  path : Option String
  language : Option Language
  parser : Parser
  source : Source
  scopes : ScopeTable
  contentId : String
  settings : EditorSettings
  previewContext : Nat
  checker : Option SnippetChecker
  phase : Phase

namespace Editor

/-- The checker that parses a snippet on its own. A snippet without a parse has no diagnostics. -/
def parserChecker (parser : Parser) (language : Language) : SnippetChecker := fun snippet =>
  match parser language snippet with
  | .ok tree => diagnostics snippet.toList tree
  | .error _ => []

/-- The checker of a language, unless the settings turn it off. -/
def defaultChecker (parser : Parser) (language : Option Language) (settings : EditorSettings) :
    Option SnippetChecker :=
  if settings.checksSyntax then language.map (parserChecker parser) else none

/-- The scopes of a source. -/
def scopesOf (parser : Parser) (language : Option Language) (source : Source) :
    Except Refusal ScopeTable :=
  match SyntaxTree.parse parser language source with
  | .ok tree => .ok (ScopeTable.ofTree tree)
  | .error message => .error (.parse message)

/-- An editor of a text without a file. -/
def inMemory (parser : Parser) (language : Option Language) (chars : List Char) :
    Except Refusal Editor := do
  let source := Source.ofChars chars
  let scopes ← scopesOf parser language source
  return {
    path := none
    language
    parser
    source
    scopes
    contentId := ExactEdit.contentId source.text
    settings := .default
    previewContext := Settings.default.previewContext
    checker := defaultChecker parser language .default
    phase := .idle }

/-- The editor with other settings. The checker is chosen anew. -/
def withSettings (editor : Editor) (settings : Settings) : Editor :=
  { editor with
    settings := settings.editor
    previewContext := settings.previewContext
    checker := defaultChecker editor.parser editor.language settings.editor }

/-- The editor with another checker, or none. -/
def withChecker (editor : Editor) (checker : Option SnippetChecker) : Editor :=
  { editor with checker }

/-- The editor in another phase. -/
def inPhase (editor : Editor) (phase : Phase) : Editor := { editor with phase }

/-- The text of the editor. -/
def content (editor : Editor) : String := editor.source.text

/-- What the text is called in differences. -/
def label (editor : Editor) : String := editor.path.getD "buffer"

/-- What suggestions and assessments are made from. -/
def basis (editor : Editor) : SuggestionBasis :=
  { source := editor.source
    scopes := editor.scopes
    language := editor.language
    contextLines := editor.settings.contextLines
    commentRadius := editor.settings.commentRadius }

/-- The occurrences of a search text where a constraint allows. -/
def find (editor : Editor) (search : String) (constraint : Constraint) :
    Except Failure (List Occurrence) :=
  if search.isEmpty then .error (.refused (.input .emptySearch))
  else do
    let within ← (resolveOrRefuse editor.scopes constraint).mapError .refused
    (findOccurrences editor.source editor.scopes editor.settings.contextLines search
      within).mapError .ofSource

/-- The assessment of a request. -/
def assessRequest (editor : Editor) (request : Request) : Except Failure Assessment :=
  assess editor.basis editor.checker request.oldText request.newText request.constraint

/-- The phase after a call that leaves the text alone: a stop leaves the editor as it was in the
middle of the call. -/
def afterLooking {α : Type} (editor : Editor) : Except Failure α → Editor
  | .error (.stopped _) => editor.inPhase .validating
  | _ => editor.inPhase .idle

/-- Assesses a request. -/
def validate (editor : Editor) (request : Request) : Except Failure Assessment × Editor :=
  let result := editor.assessRequest request
  (result, editor.afterLooking result)

/-- An edit that may be made: its place, and what is told about it. -/
structure Plan where
  range : ByteRange
  line : Nat
  assessment : Assessment
  warnings : List String
  deriving DecidableEq, Repr, Inhabited

/-- First lines of the scopes that a constraint selects. -/
def selectedLines (editor : Editor) (constraint : Constraint) : List Nat :=
  match editor.scopes.resolve constraint with
  | .ok (some ids) => ids.filterMap fun id => (editor.scopes.get? id).map (·.startLine)
  | _ => []

/-- What speaks against an edit in the end: an unbalanced new text always, changes of indentation
unless they are allowed. -/
def hazards? (assessment : Assessment) (constraint : Constraint) : Option (List String) :=
  let indentationBlocks :=
    !assessment.indentationIssues.isEmpty && !constraint.allowIndentationChanges
  if !assessment.syntaxValid || indentationBlocks then
    some (assessment.syntaxWarnings
      ++ if indentationBlocks then assessment.indentationIssues else [])
  else none

/-- What is told about an edit that is made all the same. -/
def planWarnings (assessment : Assessment) (target : Occurrence) : List String :=
  let count := assessment.occurrenceCount
  assessment.syntaxWarnings ++ assessment.indentationIssues
    ++ if 1 < count then
      [s!"{count} occurrences found; replaced the first at line {target.line}"]
    else []

/-- Decides on an assessed edit: filters that select several scopes, no occurrence, several
occurrences and hazards refuse it, in this order. -/
def decide (editor : Editor) (request : Request) (assessment : Assessment) :
    Except Refusal Plan :=
  let constraint := request.constraint
  match constraint.filters.head?, assessment.ambiguousContext && constraint.requireUnique with
  | some (kind, name), true =>
    .error (.ambiguousContext kind name (editor.selectedLines constraint)
      assessment.occurrenceCount assessment.suggestions)
  | _, _ =>
    match assessment.occurrences with
    | [] => .error (.textNotFound request.oldText constraint.describe?)
    | target :: _ =>
      if !assessment.isUnique && constraint.requireUnique then
        .error (.ambiguousOccurrence request.oldText assessment.occurrenceCount
          (assessment.occurrences.map (·.line)) assessment.suggestions)
      else
        match hazards? assessment constraint with
        | some reasons => .error (.hazard reasons assessment)
        | none =>
          .ok
            { range := target.range
              line := target.line
              assessment
              warnings := planWarnings assessment target }

/-- Where and how an edit would be made, or why not. -/
def plan (editor : Editor) (request : Request) : Except Failure Plan := do
  let assessment ← editor.assessRequest request
  (editor.decide request assessment).mapError .refused

/-- The text after an edit. -/
def splice (editor : Editor) (range : ByteRange) (new : String) : List Char :=
  Text.splice range new.toList editor.source.chars

/-- What a preview tells of a plan: the difference that it would make. -/
def previewReport (editor : Editor) (request : Request) (plan : Plan) :
    Except Failure EditReport := do
  let before := editor.content
  let after := String.ofList (editor.splice plan.range request.newText)
  let shown ←
    (Diff.unified editor.label before after editor.previewContext).mapError .stopped
  return {
    success := true
    message := some s!"Preview of change at line {plan.line}"
    error := none
    errorKind := none
    warnings := plan.warnings
    linesChanged := some (Diff.changedLines before after)
    preview := some shown
    assessment := some plan.assessment
    suggestions := [] }

/-- The difference that an edit would make. Once it is planned the editor is idle, so it stays idle
if showing the difference stops the program. -/
def preview (editor : Editor) (request : Request) : Except Failure EditReport × Editor :=
  let planned := editor.plan request
  (planned >>= editor.previewReport request, editor.afterLooking planned)

end Editor

end ExactEdit
