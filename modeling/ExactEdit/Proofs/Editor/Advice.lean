import ExactEdit.Proofs.Editor.Saving
import ExactEdit.Proofs.Refusal

/-! # What a checker can change

A checker reads the snippets of a request, and what it says goes into a list with the warnings that
decide about the request. It is put there when the decision about the balance has been taken, and
nothing that comes later asks whether the list is empty. So a checker gives advice: two runs with
different checkers differ in what their checkers say, and in nothing else.

The checkers are any functions; the one that parses a snippet is not mentioned here.

## Main definitions

* `SameBut` — two lists that differ in members of one kind only
* `IsAdvice`, `IsBatchAdvice` — what a checker says, about an edit and in a batch
* `Assessment.Alike`, `Refusal.Alike`, `EditReport.Alike`, `BatchReport.Alike` — the same but for
  what checkers say
* `Editor.RunsAlike` — two runs that end alike

## Main results

* `assess_eq_map_none` — what a checker adds to an assessment
* `Editor.plan_endsAlike` — a checker does not change where and whether an edit is planned
* `Editor.checker_is_advisory` — previews, edits and batches run alike under any two checkers
-/

namespace ExactEdit

open Result

/-! ## Lists that differ in advice -/

section Lists

variable {α β : Type} {extra : α → Prop} {first first' second second' : List α}

/-- Two lists are the same but for extra members, which each may have where it likes. -/
inductive SameBut (extra : α → Prop) : List α → List α → Prop
  | nil : SameBut extra [] []
  | both {a : α} {list list' : List α} (rest : SameBut extra list list') :
      SameBut extra (a :: list) (a :: list')
  | left {a : α} {list list' : List α} (more : extra a) (rest : SameBut extra list list') :
      SameBut extra (a :: list) list'
  | right {a : α} {list list' : List α} (more : extra a) (rest : SameBut extra list list') :
      SameBut extra list (a :: list')

namespace SameBut

theorem refl (list : List α) : SameBut extra list list := by
  induction list with
  | nil => exact .nil
  | cons a rest ih => exact .both ih

theorem append (h : SameBut extra first first') (h' : SameBut extra second second') :
    SameBut extra (first ++ second) (first' ++ second') := by
  induction h with
  | nil => exact h'
  | both rest ih => exact .both ih
  | left more rest ih => exact .left more ih
  | right more rest ih => exact .right more ih

/-- Lists of extra members only are the same. -/
theorem of_extra (h : ∀ a ∈ first, extra a) (h' : ∀ a ∈ first', extra a) :
    SameBut extra first first' := by
  induction first with
  | cons a rest ih =>
    obtain ⟨ha, hrest⟩ := List.forall_mem_cons.mp h
    exact .left ha (ih hrest)
  | nil =>
    induction first' with
    | nil => exact .nil
    | cons a rest ih =>
      obtain ⟨ha, hrest⟩ := List.forall_mem_cons.mp h'
      exact .right ha (ih hrest)

theorem map {extra' : β → Prop} (f : α → β) (hf : ∀ a, extra a → extra' (f a))
    (h : SameBut extra first first') : SameBut extra' (first.map f) (first'.map f) := by
  induction h with
  | nil => exact .nil
  | both rest ih => exact .both ih
  | left more rest ih => exact .left (hf _ more) ih
  | right more rest ih => exact .right (hf _ more) ih

end SameBut

end Lists

/-- A warning that a checker gives about a new text. -/
def IsAdvice (warning : String) : Prop := ∃ diagnostic, warning = "parser: " ++ diagnostic

/-- Such a warning, told with the number of a request in a batch. -/
def IsBatchAdvice (warning : String) : Prop :=
  ∃ index : Nat, ∃ advice, IsAdvice advice ∧ warning = s!"operation {index}: " ++ advice

theorem isAdvice_of_mem_checkerWarnings {checker : Option SnippetChecker} {old new warning : String}
    (h : warning ∈ checkerWarnings checker old new) : IsAdvice warning := by
  cases checker with
  | none => cases h
  | some diagnose =>
    simp only [checkerWarnings] at h
    split at h
    · obtain ⟨diagnostic, -, rfl⟩ := List.mem_map.mp h
      exact ⟨diagnostic, rfl⟩
    · cases h

/-! ## Results that differ in advice -/

/-- Assessments that are the same but for what checkers say. -/
structure Assessment.Alike (assessment other : Assessment) : Prop where
  other_eq : other = { assessment with syntaxWarnings := other.syntaxWarnings }
  syntaxWarnings : SameBut IsAdvice assessment.syntaxWarnings other.syntaxWarnings

namespace Assessment.Alike

variable {assessment other : Assessment} (h : assessment.Alike other)
include h

theorem occurrences_eq : other.occurrences = assessment.occurrences := by rw [h.other_eq]

theorem occurrenceCount_eq : other.occurrenceCount = assessment.occurrenceCount :=
  congrArg List.length h.occurrences_eq

theorem isUnique_eq : other.isUnique = assessment.isUnique :=
  congrArg (· == 1) h.occurrenceCount_eq

theorem ambiguousContext_eq : other.ambiguousContext = assessment.ambiguousContext := by
  rw [h.other_eq]

theorem suggestions_eq : other.suggestions = assessment.suggestions := by rw [h.other_eq]

end Assessment.Alike

/-- Refusals that are the same but for what checkers say, which is told of hazards only. -/
inductive Refusal.Alike : Refusal → Refusal → Prop
  | same (refusal : Refusal) : Alike refusal refusal
  | hazard {reasons reasons' : List String} {assessment other : Assessment}
      (reasons_same : SameBut IsAdvice reasons reasons') (alike : assessment.Alike other) :
      Alike (.hazard reasons assessment) (.hazard reasons' other)
  | batch {index : Nat} {cause cause' : Refusal} (alike : Alike cause cause') :
      Alike (.batch index cause) (.batch index cause')

/-- Refusals that are alike are of one kind: they have the same category, the same code and the
same exit code. -/
theorem Refusal.Alike.kind_eq {refusal other : Refusal} (h : refusal.Alike other) :
    other.category = refusal.category ∧ other.code = refusal.code ∧
      other.exitCode = refusal.exitCode := by
  have hcategory : other.category = refusal.category := by
    induction h with
    | same refusal => rfl
    | hazard reasons_same alike => rfl
    | batch alike ih => exact ih
  refine ⟨hcategory, ?_, by rw [exitCode_eq, exitCode_eq, hcategory]⟩
  cases h with
  | same refusal => rfl
  | hazard reasons_same alike => rfl
  | batch alike => rfl

/-- Plans that are the same but for what checkers say. -/
structure Editor.Plan.Alike (plan other : Editor.Plan) : Prop where
  other_eq : other = { plan with assessment := other.assessment, warnings := other.warnings }
  assessment : plan.assessment.Alike other.assessment
  warnings : SameBut IsAdvice plan.warnings other.warnings

/-- Reports that are the same but for what checkers say. -/
structure EditReport.Alike (report other : EditReport) : Prop where
  other_eq : other = { report with warnings := other.warnings, assessment := other.assessment }
  warnings : SameBut IsAdvice report.warnings other.warnings
  assessment : Option.Rel Assessment.Alike report.assessment other.assessment

/-- Reports of batches that are the same but for what checkers say. -/
structure BatchReport.Alike (report other : BatchReport) : Prop where
  other_eq : other = { report with warnings := other.warnings }
  warnings : SameBut IsBatchAdvice report.warnings other.warnings

/-- Two computations end alike: both with results that are alike, with refusals that are alike, or
with the same stop. -/
inductive EndsAlike {α : Type} (alike : α → α → Prop) : Except Failure α → Except Failure α → Prop
  | ok {a b : α} (same : alike a b) : EndsAlike alike (.ok a) (.ok b)
  | refused {refusal other : Refusal} (same : refusal.Alike other) :
      EndsAlike alike (.error (.refused refusal)) (.error (.refused other))
  | stopped (fault : Fault) : EndsAlike alike (.error (.stopped fault)) (.error (.stopped fault))

namespace EndsAlike

variable {α β : Type} {alike : α → α → Prop} {alike' : β → β → Prop}
variable {first second : Except Failure α}

theorem same_error (alike : α → α → Prop) (failure : Failure) :
    EndsAlike alike (.error failure) (.error failure) := by
  cases failure with
  | refused refusal => exact .refused (.same refusal)
  | stopped fault => exact .stopped fault

theorem bind {next next' : α → Except Failure β} (h : EndsAlike alike first second)
    (hnext : ∀ a b, alike a b → EndsAlike alike' (next a) (next' b)) :
    EndsAlike alike' (first >>= next) (second >>= next') := by
  cases h with
  | ok same => exact hnext _ _ same
  | refused same => exact .refused same
  | stopped fault => exact .stopped fault

end EndsAlike

/-! ## Assessing -/

/-- Without a checker an assessment is the same, but for what the checker says. -/
theorem assess_eq_map_none (basis : SuggestionBasis) (checker : Option SnippetChecker)
    (old new : String) (constraint : Constraint) :
    assess basis checker old new constraint = (assess basis none old new constraint).map
      fun assessment => { assessment with
        syntaxWarnings := assessment.syntaxWarnings ++ checkerWarnings checker old new } := by
  rw [assess, assess]
  cases checkTexts old new with
  | error error => rfl
  | ok _ =>
    cases resolveOrRefuse basis.scopes constraint with
    | error refusal => rfl
    | ok within =>
      simp only [Except.mapError, bind, Except.bind]
      cases findOccurrences basis.source basis.scopes basis.contextLines old within with
      | error error => rfl
      | ok occurrences =>
        -- Suggestions are made without the checker, whose warnings stand last in the list.
        dsimp only
        split
        · cases suggestions basis old new occurrences with
          | error fault => rfl
          | ok suggested => exact congrArg Except.ok (by simp [checkerWarnings])
        · exact congrArg Except.ok (by simp [checkerWarnings])

/-- Two checkers lead to assessments that are the same but for what they say. -/
theorem assess_endsAlike (basis : SuggestionBasis) (checker other : Option SnippetChecker)
    (old new : String) (constraint : Constraint) :
    EndsAlike Assessment.Alike (assess basis checker old new constraint)
      (assess basis other old new constraint) := by
  rw [assess_eq_map_none basis checker, assess_eq_map_none basis other]
  cases assess basis none old new constraint with
  | error failure => exact .same_error _ failure
  | ok assessment =>
    exact .ok ⟨rfl, (SameBut.refl _).append (.of_extra
      (fun _ => isAdvice_of_mem_checkerWarnings) fun _ => isAdvice_of_mem_checkerWarnings)⟩

/-! ## Planning -/

namespace Editor

variable {σ : Type} {storage : Storage (StateM σ)} {assessment assessment' : Assessment}
variable {target : Occurrence}

/-- What is held against an edit differs in advice only, and is so wherever there is any. -/
theorem hazards?_alike (constraint : Constraint) (h : assessment.Alike assessment') :
    Option.Rel (SameBut IsAdvice) (hazards? assessment constraint)
      (hazards? assessment' constraint) := by
  obtain ⟨hother, hwarnings⟩ := h
  rw [hother]
  simp only [hazards?]
  split
  · exact .some (hwarnings.append (.refl _))
  · exact .none

theorem planWarnings_alike (h : assessment.Alike assessment') :
    SameBut IsAdvice (planWarnings assessment target) (planWarnings assessment' target) := by
  obtain ⟨hother, hwarnings⟩ := h
  rw [hother]
  exact (hwarnings.append (.refl _)).append (.refl _)

theorem decide_endsAlike (editor : Editor) (request : Request)
    (h : assessment.Alike assessment') :
    EndsAlike Plan.Alike ((editor.decide request assessment).mapError .refused)
      ((editor.decide request assessment').mapError .refused) := by
  have hhazards := hazards?_alike request.constraint h
  simp only [decide, h.occurrences_eq, h.occurrenceCount_eq, h.isUnique_eq,
    h.ambiguousContext_eq, h.suggestions_eq]
  split
  · exact .refused (.same _)
  split
  · exact .refused (.same _)
  · next target rest hoccurrences =>
    split
    · exact .refused (.same _)
    · -- Only from here on the warnings are looked at.
      generalize hazards? assessment request.constraint = minded at hhazards
      generalize hazards? assessment' request.constraint = minded' at hhazards
      cases hhazards with
      | none => exact .ok ⟨rfl, h, planWarnings_alike h⟩
      | some same => exact .refused (.hazard same h)

/-- A checker does not change where and whether an edit is planned. -/
theorem plan_endsAlike (editor : Editor) (checker other : Option SnippetChecker)
    (request : Request) :
    EndsAlike Plan.Alike ((editor.withChecker checker).plan request)
      ((editor.withChecker other).plan request) :=
  (assess_endsAlike editor.basis checker other request.oldText request.newText
    request.constraint).bind fun _ _ h => decide_endsAlike editor request h

/-! ## Running -/

/-- Two runs end alike: with results that are alike, in editors that are the same but for the
checker, and in the same state. -/
structure RunsAlike {α : Type} (alike : α → α → Prop)
    (run other : (Except Failure α × Editor) × σ) : Prop where
  result : EndsAlike alike run.1.1 other.1.1
  editor : other.1.2 = run.1.2.withChecker other.1.2.checker
  state : other.2 = run.2

/-- A preview shows the same of plans that are alike. -/
theorem previewReport_endsAlike {plan other : Plan} (editor : Editor) (request : Request)
    (h : plan.Alike other) :
    EndsAlike EditReport.Alike (editor.previewReport request plan)
      (editor.previewReport request other) := by
  rw [h.other_eq, previewReport, previewReport]
  cases Diff.unified editor.label editor.content
      (String.ofList (editor.splice plan.range request.newText)) editor.previewContext with
  | error fault => exact .stopped fault
  | ok text => exact .ok ⟨rfl, h.warnings, .some h.assessment⟩

theorem preview_runsAlike (editor : Editor) (checker other : Option SnippetChecker)
    (request : Request) (state : σ) :
    RunsAlike EditReport.Alike ((editor.withChecker checker).preview request, state)
      ((editor.withChecker other).preview request, state) := by
  have hplan := plan_endsAlike editor checker other request
  refine ⟨hplan.bind fun _ _ h => previewReport_endsAlike editor request h, ?_, rfl⟩
  -- The phase after depends on how planning ends.
  simp only [preview]
  generalize (editor.withChecker checker).plan request = planned at hplan ⊢
  generalize (editor.withChecker other).plan request = planned' at hplan ⊢
  cases hplan with
  | refused same => rfl
  | stopped fault => rfl
  | ok same => rfl

/-- Saving does not ask the checker. -/
theorem persist_withChecker (editor : Editor) (checker : Option SnippetChecker)
    (text expected : String) (state : σ) :
    (editor.withChecker checker).persist storage text expected state =
      ((editor.persist storage text expected state).1.map (·.withChecker checker),
        (editor.persist storage text expected state).2) := by
  have hcongr : (editor.withChecker checker).persist storage text expected state =
      ((editor.persist storage text expected state).1.map fun _ =>
        { editor.withChecker checker with contentId := ExactEdit.contentId text },
        (editor.persist storage text expected state).2) := persist_congr rfl rfl
  rw [hcongr]
  rcases hsaving : editor.persist storage text expected state with ⟨refusal | written, after⟩
  · rfl
  · rw [eq_of_persist_eq_ok hsaving]
    rfl

theorem restage_withChecker (editor : Editor) (checker : Option SnippetChecker)
    (chars : List Char) : (editor.withChecker checker).restage chars =
      (editor.restage chars).map (·.withChecker checker) := by
  rw [restage, restage]
  change (scopesOf editor.parser editor.language (Source.ofChars chars) >>= _) =
    Except.map _ (scopesOf editor.parser editor.language (Source.ofChars chars) >>= _)
  cases scopesOf editor.parser editor.language (Source.ofChars chars) with
  | error cause => rfl
  | ok scopes => rfl

theorem commit_withChecker (editor : Editor) (checker : Option SnippetChecker)
    (chars : List Char) (state : σ) :
    (editor.withChecker checker).commit storage chars state =
      (((editor.commit storage chars state).1.1,
        (editor.commit storage chars state).1.2.withChecker checker),
        (editor.commit storage chars state).2) := by
  have hid : (editor.withChecker checker).contentId = editor.contentId := rfl
  rw [commit_run, commit_run, persist_withChecker, hid]
  rcases editor.persist storage (String.ofList chars) editor.contentId state with
    ⟨refusal | written, after⟩
  · rfl
  · simp only [Except.map, restage_withChecker]
    cases written.restage chars with
    | error cause => rfl
    | ok restaged => rfl

theorem edit_runsAlike (storage : Storage (StateM σ)) (editor : Editor)
    (checker other : Option SnippetChecker) (request : Request) (state : σ) :
    RunsAlike EditReport.Alike ((editor.withChecker checker).edit storage request state)
      ((editor.withChecker other).edit storage request state) := by
  have hplan := plan_endsAlike editor checker other request
  rw [edit_run, edit_run]
  generalize (editor.withChecker checker).plan request = planned at hplan ⊢
  generalize (editor.withChecker other).plan request = planned' at hplan ⊢
  cases hplan with
  | refused same => exact ⟨.refused same, rfl, rfl⟩
  | stopped fault => exact ⟨.stopped fault, rfl, rfl⟩
  | @ok plan plan' same =>
    have hrange : plan'.range = plan.range := by rw [same.other_eq]
    have hsplice : ∀ checker, (editor.withChecker checker).splice plan.range request.newText =
      editor.splice plan.range request.newText := fun _ => rfl
    simp only [hrange, hsplice, commit_withChecker]
    rcases editor.commit storage (editor.splice plan.range request.newText) state with
      ⟨⟨refusal | _, written⟩, after⟩
    · exact ⟨.refused (.same refusal), rfl, rfl⟩
    · refine ⟨.ok ?_, rfl, rfl⟩
      rw [same.other_eq]
      exact ⟨rfl, same.warnings, .some same.assessment⟩

/-! ### Batches -/

theorem planAll_endsAlike (editor : Editor) (checker other : Option SnippetChecker) (index : Nat)
    (requests : List Request) :
    EndsAlike (SameBut IsBatchAdvice) ((editor.withChecker checker).planAll index requests)
      ((editor.withChecker other).planAll index requests) := by
  induction requests generalizing index with
  | nil => exact .ok .nil
  | cons request rest ih =>
    have hplan := plan_endsAlike editor checker other request
    simp only [planAll]
    generalize (editor.withChecker checker).plan request = planned at hplan ⊢
    generalize (editor.withChecker other).plan request = planned' at hplan ⊢
    cases hplan with
    | refused same => exact .refused (.batch same)
    | stopped fault => exact .stopped fault
    | ok same =>
      -- What was advice stays advice when the number of the request is put in front of it.
      refine (ih (index + 1)).bind fun warnings warnings' hrest => .ok (.append ?_ hrest)
      exact same.warnings.map _ fun advice hadvice => ⟨index, advice, hadvice, rfl⟩

/-- The staging of an editor with another checker. -/
def Staging.withChecker (checker : Option SnippetChecker) : Staging → Staging
  | .done editor transaction => .done (editor.withChecker checker) transaction
  | .broken editor index cause => .broken (editor.withChecker checker) index cause

/-- Requests are made in memory without asking the checker. -/
theorem stageAll_withChecker (editor : Editor) (checker : Option SnippetChecker)
    (transaction : Transaction) (index : Nat) (requests : List Request) :
    stageAll (editor.withChecker checker) transaction index requests =
      (stageAll editor transaction index requests).withChecker checker := by
  induction requests generalizing editor transaction index with
  | nil => rfl
  | cons request rest ih =>
    have hstage : (editor.withChecker checker).stage request =
        (editor.stage request).map (·.withChecker checker) := by
      rw [stage, stage]
      -- A request is located by text and scopes, which are those of the same editor.
      change (editor.locate request >>= fun range => ((editor.withChecker checker).restage
        (editor.splice range request.newText)).mapError Failure.refused) = _
      cases editor.locate request with
      | error failure => rfl
      | ok range =>
        simp only [bind, Except.bind, restage_withChecker]
        cases editor.restage (editor.splice range request.newText) with
        | error cause => rfl
        | ok restaged => rfl
    rw [stageAll, stageAll, hstage]
    cases editor.stage request with
    | error cause => rfl
    | ok staged => exact ih staged transaction.record (index + 1)

theorem takeBack_withChecker (editor : Editor) (checker : Option SnippetChecker)
    (transaction : Transaction) (index : Nat) (refusal : Refusal) :
    (editor.withChecker checker).takeBack transaction index refusal =
      ((editor.takeBack transaction index refusal).1,
        (editor.takeBack transaction index refusal).2.withChecker checker) := by
  rw [takeBack, takeBack, restage_withChecker]
  cases editor.restage transaction.rollback with
  | error cause => rfl
  | ok restored => rfl

/-- A batch that is taken back ends alike under any checker. -/
theorem takeBack_runsAlike (editor : Editor) (checker other : Option SnippetChecker)
    (transaction : Transaction) (index : Nat) (refusal : Refusal) (state : σ) :
    RunsAlike BatchReport.Alike
      ((editor.withChecker checker).takeBack transaction index refusal, state)
      ((editor.withChecker other).takeBack transaction index refusal, state) := by
  rw [takeBack_withChecker, takeBack_withChecker, takeBack]
  cases editor.restage transaction.rollback with
  | error cause => exact ⟨.same_error _ _, rfl, rfl⟩
  | ok restored => exact ⟨.same_error _ _, rfl, rfl⟩

theorem editAll_runsAlike (storage : Storage (StateM σ)) (editor : Editor)
    (checker other : Option SnippetChecker) (requests : List Request) (state : σ) :
    RunsAlike BatchReport.Alike ((editor.withChecker checker).editAll storage requests state)
      ((editor.withChecker other).editAll storage requests state) := by
  have hplanned := planAll_endsAlike editor checker other 1 requests
  rw [editAll_run, editAll_run]
  split
  · exact ⟨.same_error _ _, rfl, rfl⟩
  generalize (editor.withChecker checker).planAll 1 requests = planned at hplanned ⊢
  generalize (editor.withChecker other).planAll 1 requests = planned' at hplanned ⊢
  cases hplanned with
  | refused same => exact ⟨.refused same, rfl, rfl⟩
  | stopped fault => exact ⟨.stopped fault, rfl, rfl⟩
  | ok same =>
    have hstaging : ∀ checker, stageAll ((editor.withChecker checker).inPhase .applying)
        (Transaction.start (editor.withChecker checker).source
          (editor.withChecker checker).contentId) 1 requests =
        (stageAll (editor.inPhase .applying) (Transaction.start editor.source editor.contentId) 1
          requests).withChecker checker :=
      fun checker => stageAll_withChecker (editor.inPhase .applying) checker _ 1 requests
    simp only [hstaging]
    cases stageAll (editor.inPhase .applying) (Transaction.start editor.source editor.contentId) 1
        requests with
    | broken staged index failure =>
      cases failure with
      | stopped fault => exact ⟨.stopped fault, rfl, rfl⟩
      | refused cause => exact takeBack_runsAlike staged checker other _ index _ state
    | done staged finished =>
      have hcontent : ∀ checker, (staged.withChecker checker).content = staged.content :=
        fun _ => rfl
      simp only [Staging.withChecker, persist_withChecker, hcontent]
      rcases staged.persist storage staged.content finished.contentId state with
        ⟨refusal | written, after⟩
      · exact takeBack_runsAlike staged checker other finished requests.length refusal after
      · exact ⟨.ok ⟨rfl, same⟩, rfl, rfl⟩

/-- Under any two checkers, or none, previews, edits and batches run alike: they succeed for the
same requests, in the same text with the same number of changed lines, and fail with refusals of
one kind. Only what the checkers say may differ, in warnings and in the reasons of a hazard. -/
theorem checker_is_advisory (storage : Storage (StateM σ)) (editor : Editor)
    (checker other : Option SnippetChecker) (state : σ) :
    (∀ request, RunsAlike EditReport.Alike ((editor.withChecker checker).preview request, state)
      ((editor.withChecker other).preview request, state)) ∧
    (∀ request, RunsAlike EditReport.Alike ((editor.withChecker checker).edit storage request state)
      ((editor.withChecker other).edit storage request state)) ∧
    (∀ requests, RunsAlike BatchReport.Alike
      ((editor.withChecker checker).editAll storage requests state)
      ((editor.withChecker other).editAll storage requests state)) ∧
    ∀ refusal refusal' : Refusal, refusal.Alike refusal' →
      refusal'.category = refusal.category ∧ refusal'.code = refusal.code ∧
        refusal'.exitCode = refusal.exitCode :=
  ⟨fun request => preview_runsAlike editor checker other request state,
    fun request => edit_runsAlike storage editor checker other request state,
    fun requests => editAll_runsAlike storage editor checker other requests state,
    fun _ _ h => h.kind_eq⟩

end Editor

end ExactEdit
