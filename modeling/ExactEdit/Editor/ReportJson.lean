import ExactEdit.Editor.Report
import ExactEdit.Request.Json

/-! # Reports as JSON

Reports, assessments and what they hold, as JSON values with their fields in a fixed order. A
confidence is written in one of two ways: as the decimal it is meant to be, or as the exact value
of the single-precision number nearest to it.
-/

namespace ExactEdit

/-- A confidence in tenths as a decimal. -/
def plainConfidence (tenths : Nat) : String := s!"0.{tenths}"

/-- A confidence in tenths, rounded to single precision and written with the digits that tell that
number apart among doubles. -/
def widenedConfidence (tenths : Nat) : String :=
  match tenths with
  | 9 => "0.8999999761581421"
  | 8 => "0.800000011920929"
  | 7 => "0.699999988079071"
  | _ => plainConfidence tenths

/-- A suggestion as a record. -/
def Suggestion.toJson (confidence : Nat → String) (suggestion : Suggestion) : JsonValue :=
  .object
    ([("strategy", .string suggestion.strategy.label),
      ("description", .string suggestion.description),
      ("oldString", .string suggestion.oldText),
      ("newString", .string suggestion.newText),
      ("confidence", .number (confidence suggestion.strategy.confidence)),
      ("line", .nat suggestion.line)]
      ++ JsonValue.optional "context" Constraint.toJson suggestion.constraint)

/-- An occurrence as a record. -/
def Occurrence.toJson (occurrence : Occurrence) : JsonValue :=
  .object
    ([("line", .nat occurrence.line), ("column", .nat occurrence.column),
      ("endLine", .nat occurrence.endLine), ("lineText", .string occurrence.lineText)]
      ++ JsonValue.optional "enclosingScope" .string occurrence.enclosingScope
      ++ [("surroundingContext", .string occurrence.surroundingContext)])

/-- An assessment as a record. -/
def Assessment.toJson (confidence : Nat → String) (assessment : Assessment) : JsonValue :=
  .object
    [("isUnique", .bool assessment.isUnique),
      ("isSafe", .bool assessment.isSafe),
      ("syntaxValid", .bool assessment.syntaxValid),
      ("occurrenceCount", .nat assessment.occurrenceCount),
      ("ambiguousContext", .bool assessment.ambiguousContext),
      ("indentationIssues", .strings assessment.indentationIssues),
      ("syntaxWarnings", .strings assessment.syntaxWarnings),
      ("suggestions", .array (assessment.suggestions.map (Suggestion.toJson confidence)))]

/-- The report of an edit or a preview as a record. -/
def EditReport.toJson (report : EditReport) : JsonValue :=
  .object
    ([("success", .bool report.success)]
      ++ JsonValue.optional "message" .string report.message
      ++ JsonValue.optional "error" .string report.error
      ++ JsonValue.optional "errorKind" (fun kind => .string kind.label) report.errorKind
      ++ JsonValue.unlessEmpty "warnings" .string report.warnings
      ++ JsonValue.optional "linesChanged" .nat report.linesChanged
      ++ JsonValue.optional "preview" .string report.preview
      ++ JsonValue.optional "validation" (Assessment.toJson plainConfidence) report.assessment
      ++ JsonValue.unlessEmpty "suggestions" (Suggestion.toJson plainConfidence)
        report.suggestions)

/-- The report of a batch as a record. -/
def BatchReport.toJson (report : BatchReport) : JsonValue :=
  .object
    ([("success", .bool report.success), ("editsApplied", .nat report.editsApplied),
      ("linesChanged", .nat report.linesChanged)]
      ++ JsonValue.unlessEmpty "warnings" .string report.warnings
      ++ JsonValue.optional "error" .string report.error
      ++ JsonValue.optional "errorKind" (fun kind => .string kind.label) report.errorKind)

/-- A scope as a record. -/
def Scope.toJson (scope : Scope) : JsonValue :=
  .object
    [("kind", .string scope.kind.label), ("name", .string scope.name),
      ("startLine", .nat scope.startLine), ("endLine", .nat scope.endLine),
      ("startCol", .nat scope.startColumn), ("endCol", .nat scope.endColumn),
      ("parent", .orNull .nat scope.parent)]

end ExactEdit
