import ExactEdit.Command.Perform
import ExactEdit.Proofs.Editor.Objection
import ExactEdit.Proofs.Editor.Run
import ExactEdit.Proofs.Editor.Showing
import ExactEdit.Proofs.Storage.Files

/-! # Whether validating predicts a preview

Validating and previewing read the same things and make the same assessment, but each takes its own
way from there to an exit code. The one counts occurrences and asks whether anything speaks against
the edit; the other decides as an edit does, in the order of an edit and with the permissions of
the request. The two ways part at three kinds of assessments, and nowhere else.

## Main definitions

* `Assessment.previewExitCode` — the exit code of a preview, told by the assessment
* `Assessment.Overlooks` — the exit code of an assessment leaves something out

## Main results

* `Assessment.exitCode_eq_previewExitCode_iff` — when the two exit codes agree
* `Command.exists_withRequest` — commands on a file differ only once there is an editor
* `Command.validate_predicts_preview_iff` — when validating a file predicts previewing it
-/

namespace ExactEdit

open Result

variable {σ : Type} {editor : Editor} {request : Request} {assessment : Assessment}
variable {constraint : Constraint}

/-! ## Two exit codes -/

namespace Assessment

/-- The exit code of a preview: it decides on the filters, on the occurrences and on what the
checks say, in this order. -/
def previewExitCode (assessment : Assessment) (constraint : Constraint) : Nat :=
  if assessment.ambiguousContext = true ∧ constraint.requireUnique = true then
    Category.ambiguousContext.exitCode
  else if assessment.occurrenceCount = 0 then Category.notFound.exitCode
  else if assessment.isUnique = false ∧ constraint.requireUnique = true then
    Category.ambiguousOccurrence.exitCode
  else if assessment.syntaxValid = true ∧
      (assessment.indentationIssues = [] ∨ constraint.allowIndentationChanges = true) then 0
  else Category.hazard.exitCode

/-- The exit code of an assessment leaves out something that a preview minds, or that the request
permits. -/
inductive Overlooks (assessment : Assessment) (constraint : Constraint) : Prop
  /-- The filters select several scopes, which do not hold several occurrences. -/
  | context (unique : constraint.requireUnique = true)
      (scopes : assessment.ambiguousContext = true) (few : assessment.occurrenceCount < 2)
  /-- One of several occurrences is asked for, and it is the new text that is minded. -/
  | hazard (lenient : constraint.requireUnique = false) (several : 2 ≤ assessment.occurrenceCount)
      (minded : assessment.syntaxValid = false ∨ assessment.indentationIssues ≠ [])
  /-- Only the indentation changes, and it may. -/
  | indentation (permitted : constraint.allowIndentationChanges = true)
      (once : assessment.occurrenceCount = 1) (balanced : assessment.syntaxValid = true)
      (changed : assessment.indentationIssues ≠ [])

/-! ### By the number of occurrences -/

theorem isUnique_of_once (honce : assessment.occurrenceCount = 1) :
    assessment.isUnique = true := by
  rw [isUnique, honce]
  rfl

theorem isUnique_of_several (hseveral : 2 ≤ assessment.occurrenceCount) :
    assessment.isUnique = false := by
  rw [isUnique, beq_eq_false_iff_ne]
  omega

theorem exitCode_of_none (hnone : assessment.occurrenceCount = 0) : assessment.exitCode = 4 := by
  rw [exitCode, if_pos hnone]
  rfl

theorem exitCode_of_once (honce : assessment.occurrenceCount = 1) :
    assessment.exitCode =
      if assessment.syntaxValid = true ∧ assessment.indentationIssues = [] then 0 else 5 := by
  rw [exitCode, honce, if_neg Nat.one_ne_zero, isSafe, isUnique_of_once honce]
  cases assessment.syntaxValid <;> cases assessment.indentationIssues <;> rfl

theorem exitCode_of_several (hseveral : 2 ≤ assessment.occurrenceCount) :
    assessment.exitCode =
      if assessment.requireUnique = false ∧ assessment.syntaxValid = true ∧
        assessment.indentationIssues = [] then 0 else 2 := by
  rw [exitCode, if_neg (by omega), isSafe, isUnique_of_several hseveral]
  cases assessment.requireUnique <;> cases assessment.syntaxValid <;>
    cases assessment.indentationIssues <;> rfl

section Preview

variable (hscopes : ¬ (assessment.ambiguousContext = true ∧ constraint.requireUnique = true))
include hscopes

theorem previewExitCode_of_none (hnone : assessment.occurrenceCount = 0) :
    assessment.previewExitCode constraint = 4 := by
  rw [previewExitCode, if_neg hscopes, if_pos hnone]
  rfl

theorem previewExitCode_of_ambiguous (hseveral : 2 ≤ assessment.occurrenceCount)
    (hunique : constraint.requireUnique = true) : assessment.previewExitCode constraint = 2 := by
  rw [previewExitCode, if_neg hscopes, if_neg (by omega),
    if_pos ⟨isUnique_of_several hseveral, hunique⟩]
  rfl

/-- With one occurrence, or with several and a request for the first, only the checks are left. -/
theorem previewExitCode_of_target (hsome : assessment.occurrenceCount ≠ 0)
    (hunique : assessment.isUnique = true ∨ constraint.requireUnique = false) :
    assessment.previewExitCode constraint =
      if assessment.syntaxValid = true ∧
        (assessment.indentationIssues = [] ∨ constraint.allowIndentationChanges = true) then 0
      else 5 := by
  have htarget : ¬ (assessment.isUnique = false ∧ constraint.requireUnique = true) := by
    rintro ⟨hmany, hrequired⟩
    rcases hunique with hone | hlenient
    · rw [hone] at hmany
      cases hmany
    · rw [hlenient] at hrequired
      cases hrequired
  rw [previewExitCode, if_neg hscopes, if_neg hsome, if_neg htarget]
  rfl

end Preview

/-! ### When the two agree -/

/-- Where the filters are minded, an assessment tells of it only by several occurrences. -/
theorem agreement_of_scopes (hrequired : assessment.requireUnique = constraint.requireUnique)
    (hscopes : assessment.ambiguousContext = true)
    (hunique : constraint.requireUnique = true) :
    assessment.exitCode = assessment.previewExitCode constraint ↔
      ¬ assessment.Overlooks constraint := by
  have hpreview : assessment.previewExitCode constraint = 2 := by
    rw [previewExitCode, if_pos ⟨hscopes, hunique⟩]
    rfl
  rw [hpreview]
  rcases Nat.lt_or_ge assessment.occurrenceCount 2 with hfew | hseveral
  -- Fewer than two occurrences are told by 4, 0 or 5, never by 2.
  · refine iff_of_false ?_ (not_not_intro (.context hunique hscopes hfew))
    obtain hnone | honce : assessment.occurrenceCount = 0 ∨ assessment.occurrenceCount = 1 := by
      omega
    · rw [exitCode_of_none hnone]
      decide
    · rw [exitCode_of_once honce]
      split <;> decide
  · refine iff_of_true ?_ ?_
    · rw [exitCode_of_several hseveral, hrequired, hunique, if_neg (by simp)]
    · rintro (⟨-, -, few⟩ | ⟨lenient, -, -⟩ | ⟨-, once, -, -⟩)
      · omega
      · rw [hunique] at lenient
        cases lenient
      · omega

/-- Of one occurrence, only a permitted change of indentation is told apart. -/
theorem agreement_of_once
    (hscopes : ¬ (assessment.ambiguousContext = true ∧ constraint.requireUnique = true))
    (honce : assessment.occurrenceCount = 1) :
    assessment.exitCode = assessment.previewExitCode constraint ↔
      ¬ assessment.Overlooks constraint := by
  have hoverlooks : assessment.Overlooks constraint ↔
      constraint.allowIndentationChanges = true ∧ assessment.syntaxValid = true ∧
        assessment.indentationIssues ≠ [] := by
    constructor
    · rintro (⟨unique, scopes, -⟩ | ⟨-, several, -⟩ | ⟨permitted, -, balanced, changed⟩)
      · exact absurd ⟨scopes, unique⟩ hscopes
      · omega
      · exact ⟨permitted, balanced, changed⟩
    · rintro ⟨permitted, balanced, changed⟩
      exact .indentation permitted honce balanced changed
  rw [hoverlooks, exitCode_of_once honce,
    previewExitCode_of_target hscopes (by omega) (.inl (isUnique_of_once honce))]
  cases assessment.syntaxValid <;> cases assessment.indentationIssues <;>
    cases constraint.allowIndentationChanges <;> simp

/-- Of several occurrences, an assessment is ambiguous even where the first of them is asked for. -/
theorem agreement_of_several (hrequired : assessment.requireUnique = constraint.requireUnique)
    (hscopes : ¬ (assessment.ambiguousContext = true ∧ constraint.requireUnique = true))
    (hseveral : 2 ≤ assessment.occurrenceCount) :
    assessment.exitCode = assessment.previewExitCode constraint ↔
      ¬ assessment.Overlooks constraint := by
  have hoverlooks : assessment.Overlooks constraint ↔ constraint.requireUnique = false ∧
      (assessment.syntaxValid = false ∨ assessment.indentationIssues ≠ []) := by
    constructor
    · rintro (⟨unique, scopes, -⟩ | ⟨lenient, -, minded⟩ | ⟨-, once, -, -⟩)
      · exact absurd ⟨scopes, unique⟩ hscopes
      · exact ⟨lenient, minded⟩
      · omega
    · rintro ⟨lenient, minded⟩
      exact .hazard lenient hseveral minded
  rw [hoverlooks, exitCode_of_several hseveral, hrequired]
  cases hunique : constraint.requireUnique with
  | true => simp [previewExitCode_of_ambiguous hscopes hseveral hunique]
  | false =>
    rw [previewExitCode_of_target hscopes (by omega) (.inr hunique)]
    cases assessment.syntaxValid <;> cases assessment.indentationIssues <;>
      cases constraint.allowIndentationChanges <;> simp

/-- The exit code of an assessment is that of a preview unless it leaves something out. -/
theorem exitCode_eq_previewExitCode_iff
    (hrequired : assessment.requireUnique = constraint.requireUnique) :
    assessment.exitCode = assessment.previewExitCode constraint ↔
      ¬ assessment.Overlooks constraint := by
  by_cases hscopes : assessment.ambiguousContext = true ∧ constraint.requireUnique = true
  · exact agreement_of_scopes hrequired hscopes.1 hscopes.2
  obtain hnone | honce | hseveral : assessment.occurrenceCount = 0 ∨
      assessment.occurrenceCount = 1 ∨ 2 ≤ assessment.occurrenceCount := by omega
  · refine iff_of_true ?_ ?_
    · rw [exitCode_of_none hnone, previewExitCode_of_none hscopes hnone]
    · rintro (⟨unique, scopes, -⟩ | ⟨-, several, -⟩ | ⟨-, once, -, -⟩)
      · exact hscopes ⟨scopes, unique⟩
      · omega
      · omega
  · exact agreement_of_once hscopes honce
  · exact agreement_of_several hrequired hscopes hseveral

end Assessment

/-! ## Deciding on an assessment -/

namespace Editor

/-- Several scopes are selected only by a filter. -/
theorem exists_filter_of_ambiguousContext (hassess : editor.assessRequest request = .ok assessment)
    (hscopes : assessment.ambiguousContext = true) :
    ∃ filter, request.constraint.filters.head? = some filter := by
  obtain ⟨-, within, hwithin, _, -, _, -, rfl⟩ := assess_eq_ok_iff.mp hassess
  cases within with
  | none => cases hscopes
  | some ids => exact ScopeTable.exists_filter_of_resolve_eq_some hwithin

/-- The exit code of a decision. -/
def decisionExitCode : Except Refusal Plan → Nat
  | .ok _ => 0
  | .error refusal => refusal.exitCode

/-- A decision has the exit code told by its assessment. -/
theorem decisionExitCode_decide (hassess : editor.assessRequest request = .ok assessment) :
    decisionExitCode (editor.decide request assessment) =
      assessment.previewExitCode request.constraint := by
  -- The cases are those of a decision, in its order; each refusal has the exit code of its kind.
  by_cases hscopes : assessment.ambiguousContext = true ∧ request.constraint.requireUnique = true
  · obtain ⟨⟨kind, name⟩, hfilter⟩ := exists_filter_of_ambiguousContext hassess hscopes.1
    rw [decide_eq_ambiguousContext editor hfilter hscopes.1 hscopes.2,
      Assessment.previewExitCode, if_pos hscopes]
    rfl
  have hone : (assessment.ambiguousContext && request.constraint.requireUnique) = false := by
    simpa using hscopes
  cases hoccurrences : assessment.occurrences with
  | nil =>
    have hnone : assessment.occurrenceCount = 0 := by
      rw [Assessment.occurrenceCount, hoccurrences]
      rfl
    rw [decide_eq_textNotFound editor hone hoccurrences,
      Assessment.previewExitCode_of_none hscopes hnone]
    rfl
  | cons target rest =>
    have hcount : assessment.occurrenceCount = rest.length + 1 := by
      rw [Assessment.occurrenceCount, hoccurrences]
      rfl
    by_cases hmany : rest ≠ [] ∧ request.constraint.requireUnique = true
    · have hseveral : 2 ≤ assessment.occurrenceCount := by
        have := List.length_pos_iff.mpr hmany.1
        omega
      rw [decide_eq_ambiguousOccurrence editor hone hseveral hmany.2,
        Assessment.previewExitCode_of_ambiguous hscopes hseveral hmany.2]
      rfl
    · have hunique : request.constraint.requireUnique = true → rest = [] := by
        intro hrequired
        by_contra hrest
        exact hmany ⟨hrest, hrequired⟩
      have htarget : assessment.isUnique = true ∨ request.constraint.requireUnique = false := by
        cases hrequired : request.constraint.requireUnique with
        | false => exact .inr rfl
        | true =>
          rw [hunique hrequired] at hcount
          exact .inl (Assessment.isUnique_of_once hcount)
      rw [decide_eq_of_target editor hone hoccurrences hunique, hazards?_eq,
        Assessment.previewExitCode_of_target hscopes (by omega) htarget]
      by_cases hclear : assessment.syntaxValid = true ∧
          (assessment.indentationIssues = [] ∨ request.constraint.allowIndentationChanges = true)
      · rw [if_pos hclear, if_pos hclear]
        rfl
      · rw [if_neg hclear, if_neg hclear]
        rfl

/-- A preview of a request that was assessed ends with the exit code told by its assessment, or
stops. -/
theorem outcome_of_preview (hassess : editor.assessRequest request = .ok assessment)
    (hreturns : ∀ fault, (editor.preview request).1 ≠ .error (.stopped fault)) :
    (Ending.ofResult .previewed (editor.preview request).1).outcome =
      .exit (assessment.previewExitCode request.constraint) := by
  have hplan := plan_eq_of_assessRequest hassess
  rw [← decisionExitCode_decide hassess]
  cases hdecide : editor.decide request assessment with
  | error refusal =>
    rw [hdecide] at hplan
    rw [preview_eq_error_of_plan hplan]
    rfl
  | ok plan =>
    rw [hdecide] at hplan
    rw [preview_of_plan_eq_ok hplan] at hreturns ⊢
    cases hreport : editor.previewReport request plan with
    | ok view => rfl
    | error failure =>
      obtain ⟨-, rfl⟩ := previewReport_eq_error_iff.mp hreport
      exact absurd hreport (hreturns _)

/-- So validating it ends as the preview does, unless the exit code of its assessment leaves
something out. -/
theorem outcome_assessed_eq_iff (file : String)
    (hassess : editor.assessRequest request = .ok assessment)
    (hreturns : ∀ fault, (editor.preview request).1 ≠ .error (.stopped fault)) :
    (Ending.ofResult (.assessed file) (.ok assessment)).outcome =
        (Ending.ofResult .previewed (editor.preview request).1).outcome ↔
      ¬ assessment.Overlooks request.constraint := by
  have hrequired : assessment.requireUnique = request.constraint.requireUnique := by
    obtain ⟨-, _, -, _, -, _, -, rfl⟩ := assess_eq_ok_iff.mp hassess
    rfl
  rw [outcome_of_preview hassess hreturns]
  change Outcome.exit assessment.exitCode = _ ↔ _
  rw [Outcome.exit.injEq, Assessment.exitCode_eq_previewExitCode_iff hrequired]

/-- A preview fails as its assessment does. -/
theorem preview_eq_error_of_assessRequest {failure : Failure}
    (hassess : editor.assessRequest request = .error failure) :
    (editor.preview request).1 = .error failure :=
  preview_eq_error_of_plan (bind_eq_error_iff.mpr (.inl hassess))

/-- Once a request was assessed, its preview stops only in showing the difference. -/
theorem eq_sumOverflow_of_preview {fault : Fault}
    (hassess : editor.assessRequest request = .ok assessment)
    (hstopped : (editor.preview request).1 = .error (.stopped fault)) : fault = .sumOverflow := by
  rcases preview_eq_error_iff.mp hstopped with hplan | ⟨_, -, -, hsame⟩
  · rw [plan_eq_stopped_iff, hassess] at hplan
    cases hplan
  · exact Failure.stopped.inj hsame

end Editor

/-- Nothing is found by what fails. -/
theorem Ending.ofFailure_ne_found (failure : Failure) (finding : Finding) :
    ofFailure failure ≠ .found finding := by
  cases failure with
  | refused refusal => exact fun h => Ending.noConfusion h
  | stopped fault => exact fun h => Ending.noConfusion h

/-- Only what stops ends in a stop. -/
theorem Ending.eq_stopped_of_ofResult {α : Type} {finding : α → Finding} {result : Except Failure α}
    {fault : Fault} (h : ofResult finding result = .stopped fault) :
    result = .error (.stopped fault) := by
  rcases result with (refusal | stopped) | a
  · cases h
  · exact congrArg (Except.error ∘ Failure.stopped) (Ending.stopped.inj h)
  · cases h

/-! ## Commands on a file -/

namespace Command

variable {host : Host (StateM σ)} {parser : Parser} {arguments : EditArguments} {state : σ}

/-- A command on a file reads the settings, its two texts and the file, in this order. -/
theorem withRequest_run {next : Editor → Request → StateM σ Ending} :
    withRequest host parser arguments next state =
      match host.loadSettings state with
      | (.error error, after) => (.aborted error.message none, after)
      | (.ok settings, loaded) =>
        match textOf host arguments.oldText loaded with
        | (.error error, after) => (.ofStorageError error, after)
        | (.ok oldText, readOld) =>
          match textOf host arguments.newText readOld with
          | (.error error, after) => (.ofStorageError error, after)
          | (.ok newText, readNew) =>
            match openEditor host parser settings arguments.file arguments.language readNew with
            | (.error refusal, after) => (.refused refusal, after)
            | (.ok editor, after) =>
              next editor ⟨oldText, newText, arguments.constraint⟩ after := by
  rw [withRequest, withSettings]
  -- Each read is one bind; only an answer leads on to the next, in the state that it left.
  change StateT.bind host.loadSettings _ state = _
  rw [StateT.bind]
  rcases host.loadSettings state with ⟨error | settings, loaded⟩
  · rfl
  change StateT.bind (textOf host arguments.oldText) _ loaded = _
  rw [StateT.bind]
  rcases hold : textOf host arguments.oldText loaded with ⟨error | oldText, readOld⟩
  · simp only [hold]
    rfl
  change StateT.bind (textOf host arguments.newText) _ readOld = _
  rw [StateT.bind]
  simp only [hold]
  rcases textOf host arguments.newText readOld with ⟨error | newText, readNew⟩
  · rfl
  change StateT.bind (openEditor host parser settings arguments.file arguments.language) _ readNew =
    _
  rw [StateT.bind]
  simp only
  rcases openEditor host parser settings arguments.file arguments.language readNew with
    ⟨refusal | editor, after⟩
  · rfl
  · rfl

/-- Commands on a file differ only once there is an editor and a request. What can go wrong before
goes wrong alike in all of them. -/
theorem exists_withRequest (host : Host (StateM σ)) (parser : Parser) (arguments : EditArguments)
    (state : σ) :
    (∃ ending after, (∀ finding, ending ≠ .found finding) ∧
      ∀ next, withRequest host parser arguments next state = (ending, after)) ∨
    ∃ editor request after, request.constraint = arguments.constraint ∧
      ∀ next, withRequest host parser arguments next state = next editor request after := by
  have haborted : ∀ message cause finding, Ending.aborted message cause ≠ .found finding :=
    fun _ _ _ h => Ending.noConfusion h
  simp only [withRequest_run]
  rcases host.loadSettings state with ⟨error | settings, loaded⟩ <;> dsimp only
  · exact .inl ⟨_, loaded, haborted error.message none, fun _ => rfl⟩
  rcases textOf host arguments.oldText loaded with ⟨error | oldText, readOld⟩ <;> dsimp only
  · exact .inl ⟨_, readOld, haborted error.attempt (some error.cause), fun _ => rfl⟩
  rcases textOf host arguments.newText readOld with ⟨error | newText, readNew⟩ <;> dsimp only
  · exact .inl ⟨_, readNew, haborted error.attempt (some error.cause), fun _ => rfl⟩
  rcases openEditor host parser settings arguments.file arguments.language readNew with
    ⟨refusal | editor, after⟩ <;> dsimp only
  · exact .inl ⟨.refused refusal, after, fun _ h => Ending.noConfusion h, fun _ => rfl⟩
  · exact .inr ⟨editor, ⟨oldText, newText, arguments.constraint⟩, after, rfl, fun _ => rfl⟩

/-- Validating a file and previewing it end in the same way before there is an editor, or they look
at the same request of the same editor. -/
theorem exists_validate_and_preview (host : Host (StateM σ)) (parser : Parser)
    (arguments : EditArguments) (state : σ) :
    (∃ ending after, (∀ finding, ending ≠ .found finding) ∧
      perform host parser (.validate arguments) state = (ending, after) ∧
      perform host parser (.preview arguments) state = (ending, after)) ∨
    ∃ (editor : Editor) (request : Request) (after : σ),
      request.constraint = arguments.constraint ∧
      perform host parser (.validate arguments) state =
        (.ofResult (.assessed (editor.path.getD "")) (editor.assessRequest request), after) ∧
      perform host parser (.preview arguments) state =
        (.ofResult .previewed (editor.preview request).1, after) := by
  rw [perform, perform, performValidate, performPreview]
  rcases exists_withRequest host parser arguments state with
    ⟨ending, after, hfound, hending⟩ | ⟨editor, request, after, hconstraint, hreached⟩
  · exact .inl ⟨ending, after, hfound, hending _, hending _⟩
  · exact .inr ⟨editor, request, after, hconstraint, hreached _, hreached _⟩

/-- Validating a file and previewing it leave the same behind. If validating ends without an
assessment, previewing ends in the same way. If it ends with one, previewing ends with the exit code
that the assessment tells of, unless it stops because twice the lines that it shows around a change
are no word. So two commands that return end alike unless there is an assessment whose own exit code
leaves something out. -/
theorem validate_predicts_preview_iff (host : Host (StateM σ)) (parser : Parser)
    (arguments : EditArguments) (state : σ) :
    let validated := perform host parser (.validate arguments) state
    let previewed := perform host parser (.preview arguments) state
    previewed.2 = validated.2 ∧
    ((∀ file assessment, validated.1 ≠ .found (.assessed file assessment)) →
      previewed.1 = validated.1) ∧
    (∀ file assessment fault, validated.1 = .found (.assessed file assessment) →
      previewed.1 = .stopped fault → fault = .sumOverflow) ∧
    ((∀ fault, previewed.1 ≠ .stopped fault) →
      (∀ file assessment, validated.1 = .found (.assessed file assessment) →
        previewed.1.outcome = .exit (assessment.previewExitCode arguments.constraint)) ∧
      (validated.1.outcome = previewed.1.outcome ↔ ∀ file assessment,
        validated.1 = .found (.assessed file assessment) →
          ¬ assessment.Overlooks arguments.constraint)) := by
  dsimp only
  rcases exists_validate_and_preview host parser arguments state with
    ⟨ending, after, hfound, hvalidated, hpreviewed⟩ |
      ⟨editor, request, after, hconstraint, hvalidated, hpreviewed⟩
  · rw [hvalidated, hpreviewed]
    exact ⟨rfl, fun _ => rfl, fun _ _ _ h => absurd h (hfound _), fun _ =>
      ⟨fun _ _ h => absurd h (hfound _), iff_of_true rfl fun _ _ h => absurd h (hfound _)⟩⟩
  rw [hvalidated, hpreviewed, ← hconstraint]
  refine ⟨rfl, ?_⟩
  cases hassess : editor.assessRequest request with
  | error failure =>
    have hnothing : ∀ {finding}, Ending.ofResult (.assessed (editor.path.getD ""))
        (.error failure) ≠ .found finding := Ending.ofFailure_ne_found failure _
    rw [Editor.preview_eq_error_of_assessRequest hassess]
    exact ⟨fun _ => rfl, fun _ _ _ h => absurd h hnothing, fun _ =>
      ⟨fun _ _ h => absurd h hnothing, iff_of_true rfl fun _ _ h => absurd h hnothing⟩⟩
  | ok assessment =>
    have hsame : ∀ file other, Ending.ofResult (.assessed (editor.path.getD "")) (.ok assessment) =
        .found (.assessed file other) → other = assessment := by
      intro file other h
      exact (Finding.assessed.inj (Ending.found.inj h)).2.symm
    refine ⟨fun hnone => absurd rfl (hnone _ _), fun _ _ fault _ hstopped => ?_, fun hreturns => ?_⟩
    · exact Editor.eq_sumOverflow_of_preview hassess (Ending.eq_stopped_of_ofResult hstopped)
    have hreturns : ∀ fault, (editor.preview request).1 ≠ .error (.stopped fault) := by
      intro fault hstopped
      rw [hstopped] at hreturns
      exact hreturns fault rfl
    constructor
    · intro file other h
      rw [hsame file other h]
      exact Editor.outcome_of_preview hassess hreturns
    · rw [Editor.outcome_assessed_eq_iff _ hassess hreturns]
      constructor
      · intro hagrees file other h
        rw [hsame file other h]
        exact hagrees
      · intro hagrees
        exact hagrees _ assessment rfl

/-! ### A name with two classes

In the text below `x` stands in the first of two classes with the name `A`. Validating counts one
occurrence and finds nothing against the edit; previewing refuses to choose between the classes. -/

/-- The text of two classes. -/
def twoClassesText : String := "class A:\n    x\nclass A:\n    y\n"

/-- A tree with two classes, named by the bytes 6 and 21. -/
def twoClasses : ParseTree :=
  .node ⟨"module", true, false, false, false, ⟨0, 30⟩, none⟩
    [.node ⟨"class_definition", true, false, false, false, ⟨0, 14⟩, none⟩
      [.node ⟨"identifier", true, false, false, false, ⟨6, 7⟩, some .name⟩ []],
     .node ⟨"class_definition", true, false, false, false, ⟨15, 29⟩, none⟩
      [.node ⟨"identifier", true, false, false, false, ⟨21, 22⟩, some .name⟩ []]]

/-- A disk on which no settings are found. -/
def hostWithoutSettings : Host (StateM Disk) :=
  { Disk.host [] with isThere := fun _ disk => (false, disk) }

/-- The edit of `x` in a class `A`. -/
def editInClass : EditArguments :=
  ⟨"f", .inline "x", .inline "z", some .python, Constraint.ofScope .classBody "A"⟩

/-- The editor that the commands on the two classes get. -/
def twoClassesFile : Editor :=
  { path := some "f"
    language := some .python
    parser := fun _ _ => .ok twoClasses
    source := Source.ofChars twoClassesText.toList
    scopes := ScopeTable.ofTree (SyntaxTree.ofParse .python
      (Source.ofChars twoClassesText.toList) twoClasses)
    contentId := ExactEdit.contentId (Source.ofChars twoClassesText.toList).text
    settings := .default
    previewContext := Settings.default.previewContext
    checker := Editor.defaultChecker (fun _ _ => .ok twoClasses) (some .python) .default
    phase := .idle }

theorem withRequest_twoClasses (next : Editor → Request → StateM Disk Ending) :
    withRequest hostWithoutSettings (fun _ _ => .ok twoClasses) editInClass next
        (Disk.ofFile twoClassesText) =
      next twoClassesFile ⟨"x", "z", editInClass.constraint⟩ (Disk.ofFile twoClassesText) := by
  have hsettings : hostWithoutSettings.loadSettings (Disk.ofFile twoClassesText) =
      (.ok .default, Disk.ofFile twoClassesText) := rfl
  have hold : textOf hostWithoutSettings editInClass.oldText (Disk.ofFile twoClassesText) =
      (.ok "x", Disk.ofFile twoClassesText) := rfl
  have hnew : textOf hostWithoutSettings editInClass.newText (Disk.ofFile twoClassesText) =
      (.ok "z", Disk.ofFile twoClassesText) := rfl
  have hopened : openEditor hostWithoutSettings (fun _ _ => .ok twoClasses) .default
      editInClass.file editInClass.language (Disk.ofFile twoClassesText) =
        (.ok twoClassesFile, Disk.ofFile twoClassesText) := by
    rw [openEditor]
    change StateT.bind (Editor.openFile Disk.storage _ "f" (some .python)) _ _ = _
    rw [StateT.bind, Editor.openFile_run, Disk.read_ofFile]
    rfl
  simp only [withRequest_run, hsettings, hold, hnew, hopened]

/-- Validating says that the edit is safe, and previewing that it is ambiguous. -/
theorem editInClass_unpredicted :
    (perform hostWithoutSettings (fun _ _ => .ok twoClasses) (.validate editInClass)
        (Disk.ofFile twoClassesText)).1.outcome = .exit 0 ∧
    (perform hostWithoutSettings (fun _ _ => .ok twoClasses) (.preview editInClass)
        (Disk.ofFile twoClassesText)).1.outcome = .exit 2 := by
  rw [perform, perform, performValidate, performPreview, withRequest_twoClasses,
    withRequest_twoClasses]
  constructor
  · change (Ending.ofResult (.assessed "f") (twoClassesFile.validate _).1).outcome = _
    decide +kernel
  · change (Ending.ofResult .previewed (twoClassesFile.preview _).1).outcome = _
    decide +kernel

end Command

end ExactEdit
