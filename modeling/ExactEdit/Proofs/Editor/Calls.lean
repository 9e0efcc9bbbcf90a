import ExactEdit.Proofs.Editor.Making
import ExactEdit.Proofs.Editor.Saving

/-! # What a call does

Whatever is asked of an open editor, one of four things happens if the call returns. It may end with
nothing looked at but memory; then all is as it was, up to the phase. Otherwise it has a new text,
and tries once to save it, expecting the file to have the content id of the editor. If that fails,
the editor is as it was before. If it succeeds, the new text becomes the text of the editor with all
that is derived from it, unless the parser rejects it; a batch asks the parser before it saves, so
this happens to single edits alone.

A call that stops the program has saved nothing. A batch may stop with some of its requests made in
memory, and its editor is left with the text that these led to, under the old content id.

## Main definitions

* `Call`, `Call.run` — what can be asked of an open editor, and how it ends
* `Call.Stages` — a call comes to the point where its new text is saved
* `Call.Outcome.Returns` — a call returned
* `Call.Effect` — the ways in which a call ends

## Main results

* `Call.effect_run` — every call ends in one of them
* `Call.exists_run_recording` — a record of the writes changes nothing else
-/

namespace ExactEdit

open Editor

/-- What is asked of an open editor. -/
inductive Call where
  | find (search : String) (constraint : Constraint)
  | validate (request : Request)
  | preview (request : Request)
  | edit (request : Request)
  | editAll (requests : List Request)

/-- How a call ended. What is told of a success is left out. -/
structure Call.Outcome (σ : Type) where
  result : Except Failure Unit
  editor : Editor
  state : σ

namespace Call

variable {σ : Type} {storage : Storage (StateM σ)} {editor : Editor} {state : σ} {call : Call}

/-- The call returned: it did not stop the program. -/
def Outcome.Returns (outcome : Outcome σ) : Prop :=
  ∀ fault, outcome.result ≠ .error (.stopped fault)

/-- The outcome of a call that was run over a state. -/
def outcomeOf {α : Type} (run : (Except Failure α × Editor) × σ) : Outcome σ :=
  ⟨run.1.1.map fun _ => (), run.1.2, run.2⟩

/-- Asks something of an editor. -/
def run (storage : Storage (StateM σ)) (editor : Editor) (state : σ) : Call → Outcome σ
  | find search constraint =>
    outcomeOf ((editor.find search constraint, editor), state)
  | validate request => outcomeOf (editor.validate request, state)
  | preview request => outcomeOf (editor.preview request, state)
  | edit request => outcomeOf (editor.edit storage request state)
  | editAll requests => outcomeOf (editor.editAll storage requests state)

/-- A call comes to the point where its new text is saved: an edit that is planned, or a batch whose
requests are all planned and made in memory. -/
def Stages (editor : Editor) : Call → Prop
  | edit request => ∃ plan, editor.plan request = .ok plan
  | editAll requests => requests ≠ [] ∧ (∃ warnings, editor.planAll 1 requests = .ok warnings) ∧
      ∃ staged finished, stageAll (editor.inPhase .applying)
        (Transaction.start editor.source editor.contentId) 1 requests = .done staged finished
  | _ => False

/-- The ways in which a call ends. -/
inductive Effect (storage : Storage (StateM σ)) (editor : Editor) (state : σ) (call : Call) :
    Outcome σ → Prop
  /-- Nothing but memory was looked at. -/
  | looked {result : Except Failure Unit} {phase : Phase} (early : ¬ call.Stages editor) :
      Effect storage editor state call ⟨result, editor.inPhase phase, state⟩
  /-- The program stopped among the requests of a batch. -/
  | broken {fault : Fault} {staged : Editor} {requests : List Request}
      (batch : call = .editAll requests) (early : ¬ call.Stages editor) (parsed : staged.IsParsed)
      (kept : (editor.inPhase .applying).SameButText staged) :
      Effect storage editor state call ⟨.error (.stopped fault), staged, state⟩
  /-- The new text was not saved. -/
  | unsaved {text : String} {refusal : Refusal} {state' : σ} (stages : call.Stages editor)
      (saving : editor.persist storage text editor.contentId state = (.error refusal, state')) :
      Effect storage editor state call
        ⟨.error (.refused refusal), editor.inPhase .rejected, state'⟩
  /-- The new text was saved and is that of the editor. -/
  | made {chars : List Char} {scopes : ScopeTable} {written : Editor} {state' : σ}
      (stages : call.Stages editor)
      (saving : editor.persist storage (String.ofList chars) editor.contentId state =
        (.ok written, state'))
      (parsed : scopesOf editor.parser editor.language (Source.ofChars chars) = .ok scopes) :
      Effect storage editor state call
        ⟨.ok (), { editor with
          source := Source.ofChars chars
          scopes
          contentId := ExactEdit.contentId (String.ofList chars)
          phase := .applied }, state'⟩
  /-- The new text was saved, but the parser rejects it. -/
  | unparsed {chars : List Char} {cause : Refusal} {written : Editor} {state' : σ}
      (stages : call.Stages editor)
      (saving : editor.persist storage (String.ofList chars) editor.contentId state =
        (.ok written, state'))
      (rejected : scopesOf editor.parser editor.language (Source.ofChars chars) = .error cause) :
      Effect storage editor state call
        ⟨.error (.refused cause), { editor with
          contentId := ExactEdit.contentId (String.ofList chars)
          phase := .rejected }, state'⟩

/-! ## Single calls -/

/-- A call that only looks leaves the editor in some phase. -/
theorem exists_afterLooking_eq {α : Type} (result : Except Failure α) :
    ∃ phase, editor.afterLooking result = editor.inPhase phase := by
  rcases result with (refusal | fault) | a
  · exact ⟨_, rfl⟩
  · exact ⟨_, rfl⟩
  · exact ⟨_, rfl⟩

theorem effect_edit (request : Request) :
    Effect storage editor state (.edit request) (run storage editor state (.edit request)) := by
  rw [run]
  cases hplan : editor.plan request with
  | error failure =>
    have hearly : ¬ (Call.edit request).Stages editor := by
      rintro ⟨plan, hplanned⟩
      rw [hplan] at hplanned
      cases hplanned
    rw [edit_run, hplan]
    cases failure with
    | stopped fault => exact .looked hearly
    | refused refusal => exact .looked hearly
  | ok plan =>
    have hstages : (Call.edit request).Stages editor := ⟨plan, hplan⟩
    rw [edit_eq_of_plan_eq_ok hplan]
    rcases hsaving : editor.persist storage (editor.plannedText request plan) editor.contentId state
      with ⟨refusal | written, state'⟩
    · exact .unsaved hstages hsaving
    · simp only
      cases hscopes : scopesOf editor.parser editor.language
          (Source.ofChars (editor.splice plan.range request.newText)) with
      | error cause => exact .unparsed hstages hsaving hscopes
      | ok scopes => exact .made hstages hsaving hscopes

/-- A batch is parsed before it is saved. -/
theorem effect_editAll (hparsed : editor.IsParsed) (requests : List Request) :
    Effect storage editor state (.editAll requests)
      (run storage editor state (.editAll requests)) := by
  rw [run, editAll_run]
  split
  · next hempty => exact .looked fun hstages => hstages.1 (List.isEmpty_iff.mp hempty)
  · next hsome =>
    cases hplanned : editor.planAll 1 requests with
    | error failure =>
      have hearly : ¬ (Call.editAll requests).Stages editor := by
        rintro ⟨-, ⟨warnings, hwarnings⟩, -⟩
        rw [hplanned] at hwarnings
        cases hwarnings
      cases failure with
      | stopped fault => exact .looked hearly
      | refused refusal => exact .looked hearly
    | ok warnings =>
      cases hstaging : stageAll (editor.inPhase .applying)
          (Transaction.start editor.source editor.contentId) 1 requests with
      | broken staged index failure =>
        have hearly : ¬ (Call.editAll requests).Stages editor := by
          rintro ⟨-, -, staged, finished, hdone⟩
          rw [hstaging] at hdone
          cases hdone
        obtain ⟨hstaged, hsame⟩ := kept_of_stageAll_eq_broken (hparsed.inPhase .applying) hstaging
        cases failure with
        | stopped fault => exact .broken rfl hearly hstaged hsame
        | refused cause =>
          have hback : staged.takeBack (Transaction.start editor.source editor.contentId) index
              (.transaction index cause.message) = _ := takeBack_eq hparsed hsame rfl
          simp only [hback]
          exact .looked hearly
      | done staged finished =>
        have hstages : (Call.editAll requests).Stages editor :=
          ⟨List.isEmpty_iff.not.mp hsome, ⟨warnings, hplanned⟩, staged, finished, hstaging⟩
        have hsame := sameButText_of_stageAll_eq_done hstaging
        simp only [persist_of_stageAll_eq_done hstaging]
        rcases hpersist : editor.persist storage staged.content editor.contentId state with
          ⟨refusal | written, state'⟩
        · simp only [Except.map]
          rw [takeBack_eq hparsed hsame (snapshot_of_stageAll_eq_done hstaging).1]
          exact .unsaved hstages hpersist
        · obtain ⟨hsource, hscopes⟩ := isParsed_of_stageAll_eq_done (hparsed.inPhase _) hstaging
          rw [hsame.parser_eq, hsame.language_eq, hsource] at hscopes
          simp only [Except.map]
          have hmade := Effect.made hstages hpersist hscopes
          rw [← hsource] at hmade
          rw [SameButText] at hsame
          rw [hsame]
          exact hmade

/-- Every call ends in one of these ways. -/
theorem effect_run (hparsed : editor.IsParsed) (storage : Storage (StateM σ)) (state : σ)
    (call : Call) : Effect storage editor state call (call.run storage editor state) := by
  cases call with
  | find search constraint => exact .looked id
  | validate request =>
    obtain ⟨phase, hphase⟩ : ∃ phase,
        editor.afterLooking (editor.assessRequest request) = editor.inPhase phase :=
      exists_afterLooking_eq _
    simp only [run, outcomeOf, Editor.validate, hphase]
    exact .looked id
  | preview request =>
    obtain ⟨phase, hphase⟩ : ∃ phase,
        editor.afterLooking (editor.plan request) = editor.inPhase phase :=
      exists_afterLooking_eq _
    simp only [run, outcomeOf, Editor.preview, hphase]
    exact .looked id
  | edit request => exact effect_edit request
  | editAll requests => exact effect_editAll hparsed requests

/-! ## Recorded calls -/

/-- Recording the writes changes nothing else about a call. -/
theorem exists_run_recording (storage : Storage (StateM σ)) (editor : Editor) (state : σ)
    (record : List Attempt) (call : Call) :
    ∃ record', call.run storage.recording editor (state, record) =
      ⟨(call.run storage editor state).result, (call.run storage editor state).editor,
        ((call.run storage editor state).state, record')⟩ := by
  cases call with
  | find search constraint => exact ⟨record, rfl⟩
  | validate request => exact ⟨record, rfl⟩
  | preview request => exact ⟨record, rfl⟩
  | edit request =>
    rw [run, run]
    cases hplan : editor.plan request with
    | error failure =>
      rw [edit_run, edit_run, hplan]
      cases failure with
      | stopped fault => exact ⟨record, rfl⟩
      | refused refusal => exact ⟨record, rfl⟩
    | ok plan =>
      obtain ⟨record', hsaving⟩ := exists_persist_recording storage editor
        (editor.plannedText request plan) editor.contentId state record
      rw [edit_eq_of_plan_eq_ok hplan, edit_eq_of_plan_eq_ok hplan, hsaving]
      rcases editor.persist storage (editor.plannedText request plan) editor.contentId state with
        ⟨refusal | written, state'⟩
      · exact ⟨record', rfl⟩
      · simp only
        cases scopesOf editor.parser editor.language
            (Source.ofChars (editor.splice plan.range request.newText)) with
        | error cause => exact ⟨record', rfl⟩
        | ok scopes => exact ⟨record', rfl⟩
  | editAll requests =>
    rw [run, run, editAll_run, editAll_run]
    split
    · exact ⟨record, rfl⟩
    · rcases editor.planAll 1 requests with (refusal | fault) | warnings
      · exact ⟨record, rfl⟩
      · exact ⟨record, rfl⟩
      · simp only
        cases stageAll (editor.inPhase .applying)
            (Transaction.start editor.source editor.contentId) 1 requests with
        | broken staged index failure =>
          cases failure with
          | stopped fault => exact ⟨record, rfl⟩
          | refused cause => exact ⟨record, rfl⟩
        | done staged finished =>
          obtain ⟨record', hsaving⟩ :=
            exists_persist_recording storage staged staged.content finished.contentId state record
          simp only [hsaving]
          rcases staged.persist storage staged.content finished.contentId state with
            ⟨refusal | written, state'⟩
          · exact ⟨record', rfl⟩
          · exact ⟨record', rfl⟩

end Call

end ExactEdit
