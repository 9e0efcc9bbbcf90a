import ExactEdit.Command.Response
import ExactEdit.Proofs.Command.Arguments

/-! # How to report changes no outcome

A program that can tell the same thing in several ways may differ in more than words. Here it does
not: each response, as JSON or in words, ends with the exit code that belongs to what came of the
command, and the command itself is performed without knowing how it will be reported. Two calls of
the program that differ in nothing else therefore end in the same way and leave the same behind,
wherever the options for it stand among the arguments.

## Main results

* `Ending.outcome_respond` — a response ends the program as the command did
* `style_changes_no_outcome` — two calls that differ in how to report only
-/

namespace ExactEdit

variable {style : ReportStyle}

/-! ## Responses -/

/-- An end that can be told as JSON is told so if that is asked for. -/
theorem Ending.output_of_toJson? {ending : Ending} {value : JsonValue}
    (h : ending.toJson? = some value) :
    ending.output style = if style.json then .ofJson value else ending.told style := by
  rw [output, h]
  cases style.json with
  | false => rfl
  | true => rfl

/-- Any other end is told in words. -/
theorem Ending.output_of_toJson?_eq_none {ending : Ending} (h : ending.toJson? = none) :
    ending.output style = ending.told style := by
  rw [output, h]
  cases style.json with
  | false => rfl
  | true => rfl

/-- Two responses with one outcome differ in what they print only. -/
theorem Response.ite_mk (asked : Bool) (json words : Output) (outcome : Outcome) :
    (if asked then ⟨json, outcome⟩ else ⟨words, outcome⟩ : Response) =
      ⟨if asked then json else words, outcome⟩ := by
  cases asked with
  | false => rfl
  | true => rfl

namespace ReportStyle

theorem respondToRefusal_eq (refusal : Refusal) :
    style.respondToRefusal refusal =
      ⟨(Ending.refused refusal).output style, (Ending.refused refusal).outcome⟩ := by
  rw [Ending.output_of_toJson? rfl]
  exact Response.ite_mk ..

/-- In words a batch is refused as a single edit is. -/
theorem respondToBatchRefusal_eq (refusal : Refusal) :
    style.respondToBatchRefusal refusal =
      ⟨(Ending.batchRefused refusal).output style, (Ending.batchRefused refusal).outcome⟩ := by
  rw [respondToBatchRefusal, respondToRefusal_eq, Ending.output_of_toJson? rfl,
    Ending.output_of_toJson? rfl]
  by_cases hjson : style.json = true
  · rw [if_pos hjson, if_pos hjson]
    rfl
  · rw [if_neg hjson, if_neg hjson, if_neg hjson]
    rfl

/-- Whatever is found, both ways to tell it end with the exit code of the finding. -/
theorem respondToFinding_eq (finding : Finding) :
    style.respondToFinding finding =
      ⟨(Ending.found finding).output style, (Ending.found finding).outcome⟩ := by
  cases finding with
  | edited report =>
    rw [Ending.output_of_toJson? rfl]
    exact Response.ite_mk ..
  | previewed report =>
    rw [Ending.output_of_toJson? rfl]
    exact Response.ite_mk ..
  | assessed file assessment =>
    rw [Ending.output_of_toJson? rfl]
    exact Response.ite_mk ..
  | batchMade report =>
    rw [Ending.output_of_toJson? rfl]
    exact Response.ite_mk ..
  | scopesListed language table =>
    rw [Ending.output_of_toJson? rfl]
    exact Response.ite_mk ..
  | settingsWritten path =>
    rw [Ending.output_of_toJson?_eq_none rfl]
    rfl
  | scriptWritten path =>
    rw [Ending.output_of_toJson?_eq_none rfl]
    rfl
  | scriptShown script =>
    rw [Ending.output_of_toJson?_eq_none rfl]
    rfl

end ReportStyle

/-- A response ends the program in the way that what came of the command tells. -/
theorem Ending.outcome_respond (ending : Ending) :
    (ending.respond style).outcome = ending.outcome := by
  cases ending with
  | found finding => rw [respond, style.respondToFinding_eq]
  | refused refusal => rw [respond, style.respondToRefusal_eq]
  | batchRefused refusal => rw [respond, style.respondToBatchRefusal_eq]
  | aborted message cause => rfl
  | stopped fault => rfl

/-! ## Calls of the program -/

namespace Invocation

variable {σ : Type} (host : Host (StateM σ)) (parser : Parser) (state : σ)

/-- The outcome of an answer is that of what came of the command. -/
theorem outcome_answer (invocation : Invocation) :
    (invocation.answer host parser state).1.outcome =
      (invocation.command.perform host parser state).1.outcome :=
  Ending.outcome_respond _

/-- To answer changes nothing that the command did not. -/
theorem state_answer (invocation : Invocation) :
    (invocation.answer host parser state).2 =
      (invocation.command.perform host parser state).2 := rfl

end Invocation

/-- Two lists of arguments that the program takes, and that differ only in how to report, end in the
same way, with the same exit code or the same failure, and leave the same behind. This holds for
every host with a state, a disk with its settings and environment among them. There is such a pair
for any two styles: with the arguments for one of them in front of the others, the program takes the
arguments for the same command and that style. -/
theorem style_changes_no_outcome {arguments arguments' : List String}
    {invocation invocation' : Invocation} (h : Invocation.read arguments = .ok invocation)
    (h' : Invocation.read arguments' = .ok invocation')
    (hsame : withoutStyle arguments = withoutStyle arguments') :
    (∀ (σ : Type) (host : Host (StateM σ)) (parser : Parser) (state : σ),
      (invocation.answer host parser state).1.outcome =
          (invocation'.answer host parser state).1.outcome ∧
        (invocation.answer host parser state).2 = (invocation'.answer host parser state).2) ∧
    ∀ style : ReportStyle,
      Invocation.read (style.arguments ++ withoutStyle arguments) =
        .ok ⟨style, invocation.command⟩ := by
  have hread := fun style => Invocation.read_arguments_withoutStyle style h
  have hcommand : invocation.command = invocation'.command := by
    -- Both are what is read without any of these arguments.
    have hplain := hread ⟨false, false, false⟩
    rw [hsame, Invocation.read_arguments_withoutStyle ⟨false, false, false⟩ h'] at hplain
    exact (congrArg Invocation.command (Except.ok.inj hplain)).symm
  refine ⟨fun σ host parser state => ⟨?_, ?_⟩, hread⟩
  · rw [Invocation.outcome_answer, Invocation.outcome_answer, hcommand]
  · rw [Invocation.state_answer, Invocation.state_answer, hcommand]

/-- One call asks for JSON behind the file, the other in front of the command for no colours. -/
theorem style_changes_no_outcome_of_scopes :
    Invocation.read ["scopes", "a.py", "--json"] =
        .ok ⟨⟨false, false, true⟩, .scopes "a.py" none⟩ ∧
      Invocation.read ["--no-color", "scopes", "a.py"] =
        .ok ⟨⟨false, true, false⟩, .scopes "a.py" none⟩ ∧
      withoutStyle ["scopes", "a.py", "--json"] = withoutStyle ["--no-color", "scopes", "a.py"] ∧
      ∀ (σ : Type) (host : Host (StateM σ)) (parser : Parser) (state : σ),
        (Invocation.answer host parser ⟨⟨false, false, true⟩, .scopes "a.py" none⟩
            state).1.outcome =
          (Invocation.answer host parser ⟨⟨false, true, false⟩, .scopes "a.py" none⟩
            state).1.outcome := by
  have h : Invocation.read ["scopes", "a.py", "--json"] =
      .ok ⟨⟨false, false, true⟩, .scopes "a.py" none⟩ := by
    decide +kernel
  have h' : Invocation.read ["--no-color", "scopes", "a.py"] =
      .ok ⟨⟨false, true, false⟩, .scopes "a.py" none⟩ := by
    decide +kernel
  have hsame : withoutStyle ["scopes", "a.py", "--json"] =
      withoutStyle ["--no-color", "scopes", "a.py"] := by decide
  exact ⟨h, h', hsame, fun σ host parser state =>
    ((style_changes_no_outcome h h' hsame).1 σ host parser state).1⟩

end ExactEdit
