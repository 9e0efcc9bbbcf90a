import ExactEdit.Command.Ending
import ExactEdit.Command.Invocation
import ExactEdit.Command.Paint
import ExactEdit.Editor.ReportJson

/-! # Output

What the program prints about the end of a command: results on one stream, warnings, refusals and
suggestions on the other, or everything as JSON on the first.

## Main definitions

* `Output` — the lines on both streams
* `Ending.output` — what is printed about an end
-/

namespace ExactEdit

/-- The lines on the stream of results and on that of messages. -/
structure Output where
  results : List String
  messages : List String
  deriving DecidableEq, Repr, Inhabited

namespace Output

/-- No lines. -/
def none : Output := ⟨[], []⟩

/-- Results alone. -/
def ofResults (lines : List String) : Output := ⟨lines, []⟩

/-- A JSON value over several lines. -/
def ofJson (value : JsonValue) : Output := ofResults [value.spread]

/-- Lines as a text. -/
def textOf (lines : List String) : String := String.join (lines.map (· ++ "\n"))

/-- The text on the stream of results. -/
def resultText (output : Output) : String := textOf output.results

/-- The text on the stream of messages. -/
def messageText (output : Output) : String := textOf output.messages

end Output

namespace ReportStyle

/-- A text that is set off, if colours are wanted. -/
def set (style : ReportStyle) (paint : Paint) (text : String) : String :=
  paint.on style.plain text

/-- Warnings. -/
def warningLines (style : ReportStyle) (warnings : List String) : List String :=
  warnings.map fun warning => style.set (.strong .yellow) "warning:" ++ " " ++ warning

/-- How to follow a suggestion: a scope to name, or a text to search for. -/
def adviceLines (style : ReportStyle) (suggestion : Suggestion) : List String :=
  match suggestion.constraint.bind Constraint.describe? with
  | some scope =>
    ["     retry with the edit restricted to " ++ style.set (.colored .cyan) scope]
  | none => (Text.linesOf suggestion.oldText).map fun line => "     " ++ style.set .faint line

/-- A suggestion with its number. -/
def suggestionLines (style : ReportStyle) (number : Nat) (suggestion : Suggestion) :
    List String :=
  let percent := 10 * suggestion.strategy.confidence
  s!"  {number}. [{percent}%] {suggestion.description} (line {suggestion.line})"
    :: style.adviceLines suggestion

/-- Suggestions with their heading, if there are any. -/
def adviceOn (style : ReportStyle) (suggestions : List Suggestion) : List String :=
  if suggestions.isEmpty then []
  else
    style.set .heavy "Suggestions:"
      :: (suggestions.zipIdx 1).flatMap fun (suggestion, number) =>
        style.suggestionLines number suggestion

/-- A refusal with its code, and help if there is some. -/
def refusalLines (refusal : Refusal) : List String :=
  let code := refusal.code
  s!"report[{code}]: {refusal.message}" :: (refusal.help?.map ("help: " ++ ·)).toList

/-- The output about a refusal. -/
def refusalOutput (style : ReportStyle) (refusal : Refusal) : Output :=
  ⟨[], refusalLines refusal ++ style.adviceOn refusal.suggestions⟩

/-- Lines that are left out where only what is essential is wanted. -/
def unlessQuiet (style : ReportStyle) (lines : List String) : List String :=
  if style.quiet then [] else lines

/-- How a line of a difference is set off. -/
def differencePaint (line : String) : Paint :=
  if line.startsWith "+++" || line.startsWith "---" then .heavy
  else if line.startsWith "+" then .colored .green
  else if line.startsWith "-" then .colored .red
  else if line.startsWith "@@" then .colored .cyan
  else .none

/-- The lines of a difference. -/
def differenceLines (style : ReportStyle) (difference : String) : List String :=
  (Text.linesOf difference).map fun line => style.set (differencePaint line) line

/-- Whether an edit would be safe, in a word. -/
def verdict (style : ReportStyle) (assessment : Assessment) : String :=
  if assessment.isSafe then style.set (.strong .green) "safe"
  else style.set (.strong .red) "unsafe"

/-- An occurrence on one line. -/
def occurrenceLine (style : ReportStyle) (occurrence : Occurrence) : String :=
  let scope := style.set (.colored .cyan) (occurrence.enclosingScope.getD "<top level>")
  let text := Text.trimmed occurrence.lineText
  s!"  line {occurrence.line}:{occurrence.column} in {scope}: {text}"

/-- The warning that filters are ambiguous. -/
def contextWarnings (assessment : Assessment) : List String :=
  if assessment.ambiguousContext then ["scope filters match more than one scope"] else []

/-- An assessment in words. -/
def assessmentOutput (style : ReportStyle) (file : String) (assessment : Assessment) : Output :=
  let count := assessment.occurrenceCount
  let found := style.verdict assessment
  { results :=
      s!"{file}: {count} occurrence(s), {found}"
        :: assessment.occurrences.map style.occurrenceLine
    messages :=
      style.warningLines
        (contextWarnings assessment ++ assessment.indentationIssues ++ assessment.syntaxWarnings)
        ++ style.adviceOn assessment.suggestions }

/-- A text with blanks in front up to a width. -/
def padLeft (width : Nat) (text : String) : String :=
  String.ofList (List.replicate (width - text.length) ' ') ++ text

/-- A text with blanks behind it up to a width. -/
def padRight (width : Nat) (text : String) : String :=
  text ++ String.ofList (List.replicate (width - text.length) ' ')

/-- A scope on one line. The codes of a colour count towards the width of its column. -/
def scopeLine (style : ReportStyle) (table : ScopeTable) (id : Nat) (scope : Scope) : String :=
  padLeft 5 (toString scope.startLine) ++ "-" ++ padRight 5 (toString scope.endLine) ++ " "
    ++ padRight 9 (style.set (.colored .cyan) scope.kind.label) ++ " " ++ table.qualifiedName id

/-- A list of scopes in words. -/
def scopeLines (style : ReportStyle) (language : Option Language) (table : ScopeTable) :
    List String :=
  if table.isEmpty then
    let name := (language.map Language.name).getD "unknown"
    style.unlessQuiet [s!"no scopes found (language: {name})"]
  else table.scopes.zipIdx.map fun (scope, id) => style.scopeLine table id scope

/-- A list of scopes as JSON. -/
def scopesJson (table : ScopeTable) : JsonValue :=
  .array (table.scopes.zipIdx.map fun (scope, id) =>
    .object [("qualifiedName", .string (table.qualifiedName id)), ("scope", scope.toJson)])

/-- An assessment with its occurrences as JSON. -/
def assessmentJson (assessment : Assessment) : JsonValue :=
  .object
    [("validation", assessment.toJson widenedConfidence),
      ("occurrences", .array (assessment.occurrences.map Occurrence.toJson))]

/-- The output about a finding in words. -/
def findingOutput (style : ReportStyle) : Finding → Output
  | .edited report =>
    let changed := report.linesChanged.getD 0
    let message := report.message.getD ""
    let applied := style.set (.strong .green) "Applied"
    ⟨style.unlessQuiet [s!"{applied} {message} ({changed} line(s) changed)"],
      style.warningLines report.warnings⟩
  | .previewed report =>
    ⟨style.differenceLines (report.preview.getD ""), style.warningLines report.warnings⟩
  | .assessed file assessment => style.assessmentOutput file assessment
  | .batchMade report =>
    let applied := style.set (.strong .green) "Applied"
    ⟨style.unlessQuiet
        [s!"{applied} {report.editsApplied} edit(s), {report.linesChanged} line(s) changed"],
      style.warningLines report.warnings⟩
  | .scopesListed language table => .ofResults (style.scopeLines language table)
  | .settingsWritten path =>
    .ofResults (style.unlessQuiet [s!"Created config file at {path}"])
  | .scriptWritten path => ⟨[], style.unlessQuiet [s!"Wrote completion to {path}"]⟩
  | .scriptShown script => .ofResults (Text.linesOf script)

/-- A finding as JSON; none if it is told in words in any case. -/
def findingJson? : Finding → Option JsonValue
  | .edited report => some report.toJson
  | .previewed report => some report.toJson
  | .assessed _ assessment => some (assessmentJson assessment).sorted
  | .batchMade report => some report.toJson
  | .scopesListed _ table => some (scopesJson table).sorted
  | _ => none

end ReportStyle

/-- The end of a command as JSON; none if it is told in words in any case. -/
def Ending.toJson? : Ending → Option JsonValue
  | found finding => ReportStyle.findingJson? finding
  | refused refusal => some (EditReport.ofRefusal refusal).toJson
  | batchRefused refusal => some (BatchReport.ofRefusal refusal).toJson
  | _ => none

/-- The end of a command in words. Of an end for another reason than the edit the program itself
tells. -/
def Ending.told (style : ReportStyle) : Ending → Output
  | found finding => style.findingOutput finding
  | refused refusal => style.refusalOutput refusal
  | batchRefused refusal => style.refusalOutput refusal
  | _ => .none

/-- What is printed about the end of a command. -/
def Ending.output (style : ReportStyle) (ending : Ending) : Output :=
  match style.json, ending.toJson? with
  | true, some value => .ofJson value
  | _, _ => ending.told style

end ExactEdit
