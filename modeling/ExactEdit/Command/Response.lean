import ExactEdit.Command.Output
import ExactEdit.Command.Perform

/-! # Responses

How the program answers: what it prints, and how it ends. Each kind of finding and of refusal is
answered in its own way, as JSON or in words, and every one of these answers comes with an exit code
of its own. Only the settings file and the completion scripts are told in words in any case.

## Main definitions

* `Response` — what is printed, and how the program ends
* `Ending.respond` — the response to what came of a command
* `Invocation.answer` — performs a command and responds
-/

namespace ExactEdit

/-- What the program prints, and how it ends. -/
structure Response where
  output : Output
  outcome : Outcome
  deriving DecidableEq, Repr, Inhabited

namespace ReportStyle

/-- The response to a refusal. -/
def respondToRefusal (style : ReportStyle) (refusal : Refusal) : Response :=
  let code := refusal.exitCode
  if style.json then ⟨.ofJson (EditReport.ofRefusal refusal).toJson, .exit code⟩
  else ⟨style.refusalOutput refusal, .exit code⟩

/-- The response to a refusal of a batch, which is reported as a batch in JSON only. -/
def respondToBatchRefusal (style : ReportStyle) (refusal : Refusal) : Response :=
  if style.json then
    let code := refusal.exitCode
    ⟨.ofJson (BatchReport.ofRefusal refusal).toJson, .exit code⟩
  else style.respondToRefusal refusal

/-- The response to an assessment. -/
def respondToAssessment (style : ReportStyle) (file : String) (assessment : Assessment) :
    Response :=
  let code := assessment.exitCode
  if style.json then ⟨.ofJson (assessmentJson assessment).sorted, .exit code⟩
  else ⟨style.assessmentOutput file assessment, .exit code⟩

/-- The response to a list of scopes. -/
def respondToScopes (style : ReportStyle) (language : Option Language) (table : ScopeTable) :
    Response :=
  if style.json then ⟨.ofJson (scopesJson table).sorted, .exit 0⟩
  else ⟨.ofResults (style.scopeLines language table), .exit 0⟩

/-- The response to a finding. -/
def respondToFinding (style : ReportStyle) (finding : Finding) : Response :=
  match finding with
  | .edited report =>
    if style.json then ⟨.ofJson report.toJson, .exit 0⟩
    else ⟨style.findingOutput finding, .exit 0⟩
  | .previewed report =>
    if style.json then ⟨.ofJson report.toJson, .exit 0⟩
    else ⟨style.findingOutput finding, .exit 0⟩
  | .assessed file assessment => style.respondToAssessment file assessment
  | .batchMade report =>
    if style.json then ⟨.ofJson report.toJson, .exit 0⟩
    else ⟨style.findingOutput finding, .exit 0⟩
  | .scopesListed language table => style.respondToScopes language table
  | .settingsWritten _ => ⟨style.findingOutput finding, .exit 0⟩
  | .scriptWritten _ => ⟨style.findingOutput finding, .exit 0⟩
  | .scriptShown _ => ⟨style.findingOutput finding, .exit 0⟩

end ReportStyle

/-- The response to what came of a command. An end for another reason than the edit is told in one
line, whatever the style. -/
def Ending.respond (style : ReportStyle) : Ending → Response
  | found finding => style.respondToFinding finding
  | refused refusal => style.respondToRefusal refusal
  | batchRefused refusal => style.respondToBatchRefusal refusal
  | aborted message cause =>
    ⟨⟨[], ["Error: " ++ message ++ ((cause.map (": " ++ ·)).getD "")]⟩, .aborted message⟩
  | stopped fault => ⟨⟨[], ["stopped: a slice reaches past the end of its text"]⟩, .stopped fault⟩

/-- Performs the command of an invocation, and responds in its style. -/
def Invocation.answer {m : Type → Type} [Monad m] (host : Host m) (parser : Parser)
    (invocation : Invocation) : m Response := do
  return (← invocation.command.perform host parser).respond invocation.style

end ExactEdit
