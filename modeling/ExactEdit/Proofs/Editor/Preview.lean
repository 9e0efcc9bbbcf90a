import ExactEdit.Proofs.Editor.Session

/-! # Previews

A preview carries out its plan on paper: it splices the new text in, compares before and after, and
puts everything back. An edit carries out the same plan for good, but takes the text after from the
editor that it has built. The two tell the same as long as nothing beyond the plan can fail, that
is, if the parser reads every text and the file can be written.

Previews leave nothing behind that is read again. So there may be any number of them in front of an
edit, for the same request or for others.

## Main definitions

* `Editor.CanSave` — nothing keeps the file of an editor from being written
* `Editor.previewAll` — any number of previews

## Main results

* `Editor.exists_previewAll_eq` — previews leave the editor and the state as they are
* `Editor.edit_inPhase` — an edit does not depend on the phase before
* `Editor.edit_as_previewed` — an edit does what its preview shows
-/

namespace ExactEdit.Editor

open Result

variable {σ : Type} {storage : Storage (StateM σ)} {editor : Editor} {request : Request}
variable {plan : Plan} {state : σ} {text : String}

/-! ## Looking -/

/-- Previews of some requests, one after the other. -/
def previewAll (storage : Storage (StateM σ)) : List Request → Editor → σ → Editor × σ
  | [], editor, state => (editor, state)
  | request :: rest, editor, state =>
    let outcome := Call.run storage editor state (.preview request)
    previewAll storage rest outcome.editor outcome.state

/-- A preview leaves all but the phase as it is. -/
theorem exists_run_preview_eq (storage : Storage (StateM σ)) (editor : Editor) (state : σ)
    (request : Request) : ∃ phase,
      (Call.run storage editor state (.preview request)).editor = editor.inPhase phase ∧
      (Call.run storage editor state (.preview request)).state = state := by
  obtain ⟨phase, hphase⟩ : ∃ phase, editor.afterLooking (editor.plan request) =
    editor.inPhase phase := Call.exists_afterLooking_eq _
  exact ⟨phase, hphase, rfl⟩

/-- So does any number of previews. -/
theorem exists_previewAll_eq (storage : Storage (StateM σ)) (looks : List Request)
    (editor : Editor) (state : σ) :
    ∃ phase, previewAll storage looks editor state = (editor.inPhase phase, state) := by
  induction looks generalizing editor with
  | nil => exact ⟨editor.phase, rfl⟩
  | cons request rest ih =>
    obtain ⟨phase, heditor, hstate⟩ := exists_run_preview_eq storage editor state request
    obtain ⟨last, hlast⟩ := ih (editor.inPhase phase)
    rw [previewAll, heditor, hstate, hlast]
    -- Of several phases the last one stays.
    exact ⟨last, rfl⟩

/-- An edit does not depend on the phase before. -/
theorem edit_inPhase (phase : Phase) :
    (editor.inPhase phase).edit storage request state = editor.edit storage request state := by
  cases hplan : editor.plan request with
  | error failure =>
    have hplan' : (editor.inPhase phase).plan request = .error failure := hplan
    rw [edit_run, edit_run, hplan, hplan']
    cases failure with
    | refused refusal => rfl
    | stopped fault => rfl
  | ok plan =>
    have hplan' : (editor.inPhase phase).plan request = .ok plan := hplan
    have hsaving : (editor.inPhase phase).persist storage
          ((editor.inPhase phase).plannedText request plan) (editor.inPhase phase).contentId state =
        ((editor.persist storage (editor.plannedText request plan) editor.contentId state).1.map
          fun _ => { editor.inPhase phase with
            contentId := ExactEdit.contentId (editor.plannedText request plan) },
          (editor.persist storage (editor.plannedText request plan) editor.contentId state).2) :=
      persist_congr rfl rfl
    rw [edit_eq_of_plan_eq_ok hplan, edit_eq_of_plan_eq_ok hplan', hsaving]
    -- Both save the same text, and the phase after depends on how that ends.
    rcases editor.persist storage (editor.plannedText request plan) editor.contentId state with
      ⟨refusal | written, after⟩
    · rfl
    · rfl

/-! ## Editing -/

/-- If an editor has a file, it finds it as it knows it, and a text can be written to it. -/
def CanSave (storage : Storage (StateM σ)) (editor : Editor) (text : String) (state : σ) : Prop :=
  ∀ path, editor.path = some path → ∃ looked after,
    editor.checkUnchanged storage path editor.contentId state = (.ok (), looked) ∧
    storage.write path text looked = (.ok (), after)

theorem CanSave.exists_persist (h : editor.CanSave storage text state) : ∃ written after,
    editor.persist storage text editor.contentId state = (.ok written, after) := by
  cases hpath : editor.path with
  | none => exact ⟨_, _, persist_eq_of_path_eq_none hpath⟩
  | some path =>
    obtain ⟨looked, after, hlooked, hwritten⟩ := h path hpath
    exact ⟨_, after, (persist_eq_ok_iff hpath).mpr ⟨rfl, looked, hlooked, hwritten⟩⟩

/-- A plan is carried out if its text can be saved and parsed. -/
theorem exists_edit_of_canSave (haccepts : editor.AcceptsAll)
    (hplan : editor.plan request = .ok plan)
    (hsaves : editor.CanSave storage (editor.plannedText request plan) state) :
    ∃ edited after, edited.content = editor.plannedText request plan ∧
      editor.edit storage request state =
        ((.ok (editReport editor.content edited.content plan request.constraint), edited),
          after) := by
  obtain ⟨written, after, hsaving⟩ := hsaves.exists_persist
  obtain ⟨scopes, hscopes⟩ := haccepts (editor.splice plan.range request.newText)
  have hmade := edit_eq_ok_iff.mpr ⟨plan, scopes, written, hplan, hsaving, hscopes, rfl, rfl⟩
  exact ⟨_, after, rfl, hmade⟩

/-- What a preview shows of a plan, told by what an edit reports of it, unless the program stops
because the difference cannot be shown. -/
theorem exists_preview_of_plan_eq_ok (hplan : editor.plan request = .ok plan) :
    (Diff.Overflows editor.content (editor.plannedText request plan) editor.previewContext ∧
      (editor.preview request).1 = .error (.stopped .sumOverflow)) ∨
    ∃ view text, (editor.preview request).1 = .ok view ∧ view.warnings = plan.warnings ∧
      view.linesChanged =
        some (Diff.changedLines editor.content (editor.plannedText request plan)) ∧
      view.assessment = some plan.assessment ∧
      Diff.unified editor.label editor.content (editor.plannedText request plan)
        editor.previewContext = .ok text ∧ view.preview = some text := by
  rw [preview_of_plan_eq_ok hplan]
  cases hreport : editor.previewReport request plan with
  | error failure =>
    obtain ⟨hover, rfl⟩ := previewReport_eq_error_iff.mp hreport
    exact .inl ⟨hover, rfl⟩
  | ok view =>
    obtain ⟨text, htext, rfl⟩ := previewReport_eq_ok_iff.mp hreport
    exact .inr ⟨_, text, rfl, rfl, rfl, rfl, htext, rfl⟩

/-- Any number of previews leaves text, scopes, content id and file as they are, and so changes no
later preview. The edit is then refused exactly as its preview is, and stops only if its preview
does. If it is made, the preview tells the same warnings, number of changed lines and assessment,
and shows the difference between the text before and the text that the edit leaves. It stops instead
if there are so many lines of context that this difference cannot be shown. -/
theorem edit_as_previewed (storage : Storage (StateM σ)) (looks : List Request)
    (request : Request) (state : σ) (haccepts : editor.AcceptsAll)
    (hsaves : ∀ plan, editor.plan request = .ok plan →
      editor.CanSave storage (editor.plannedText request plan) state) :
    ∃ shown, previewAll storage looks editor state = (shown, state) ∧
      (shown.content = editor.content ∧ shown.scopes = editor.scopes ∧
        shown.contentId = editor.contentId ∧ shown = editor.inPhase shown.phase) ∧
      (shown.preview request).1 = (editor.preview request).1 ∧
      (∀ refusal, (editor.preview request).1 = .error (.refused refusal) ↔
        (shown.edit storage request state).1.1 = .error (.refused refusal)) ∧
      (∀ fault, (shown.edit storage request state).1.1 = .error (.stopped fault) →
        (editor.preview request).1 = .error (.stopped fault)) ∧
      ∀ report edited after, shown.edit storage request state = ((.ok report, edited), after) →
        (Diff.Overflows editor.content edited.content editor.previewContext ∧
          (editor.preview request).1 = .error (.stopped .sumOverflow)) ∨
        ∃ view text, (editor.preview request).1 = .ok view ∧ view.warnings = report.warnings ∧
          view.linesChanged = report.linesChanged ∧ view.assessment = report.assessment ∧
          Diff.unified editor.label editor.content edited.content editor.previewContext = .ok text ∧
          view.preview = some text := by
  obtain ⟨phase, hlooks⟩ := exists_previewAll_eq storage looks editor state
  refine ⟨editor.inPhase phase, hlooks, ⟨rfl, rfl, rfl, rfl⟩, rfl, ?_⟩
  rw [edit_inPhase]
  -- Without a plan both end as planning does. With one the edit is made, and the preview shows its
  -- text if the difference can be shown at all.
  cases hplan : editor.plan request with
  | error failure =>
    have hpreview : (editor.preview request).1 = .error failure := preview_eq_error_of_plan hplan
    have hedit : (editor.edit storage request state).1.1 = .error failure := by
      rw [edit_run, hplan]
      cases failure with
      | stopped fault => rfl
      | refused refusal => rfl
    rw [hpreview, hedit]
    refine ⟨fun _ => Iff.rfl, fun _ => id, fun report edited after hmade => ?_⟩
    rw [hmade] at hedit
    cases hedit
  | ok plan =>
    obtain ⟨edited, after, hcontent, hedit⟩ :=
      exists_edit_of_canSave haccepts hplan (hsaves plan hplan)
    have hpreview := exists_preview_of_plan_eq_ok hplan
    -- The preview shows the text that was planned, which is the one that the edit leaves.
    rw [← hcontent] at hpreview
    rw [hedit]
    refine ⟨fun refusal => ?_, fun fault hstopped => ?_, ?_⟩
    · rw [preview_eq_refused_iff, hplan]
      exact iff_of_false nofun nofun
    · cases hstopped
    · rintro report _ _ ⟨⟩
      exact hpreview

/-! ### A preview in front of an edit -/

theorem functionFile_canSave (new : String) :
    functionFile.CanSave Disk.storage new (Disk.ofFile "def f():\n  a\na") := by
  intro path hpath
  obtain rfl : "f" = path := Option.some.inj hpath
  refine ⟨Disk.ofFile "def f():\n  a\na", Disk.ofFile new, ?_, Disk.write_ofFile _ new⟩
  exact checkUnchanged_eq_ok_iff.mpr (.inr ⟨rfl, "def f():\n  a\na", Disk.read_ofFile _, rfl⟩)

/-- The difference that the edit in the function makes. -/
theorem unified_function : Diff.unified "f" "def f():\n  a\na" "def f():\n  b\na" 3 =
    .ok "--- a/f\n+++ b/f\n@@ -1,3 +1,3 @@\n def f():\n-  a\n+  b\n a\n" := by
  decide +kernel

/-- The edit in the function, previewed twice, is the one that is made. -/
theorem functionFile_edit_as_previewed : functionFile.AcceptsAll ∧
    (∀ new, functionFile.CanSave Disk.storage new (Disk.ofFile "def f():\n  a\na")) ∧
    ∃ shown view report edited,
      previewAll Disk.storage [functionEdit, functionEdit] functionFile
        (Disk.ofFile "def f():\n  a\na") = (shown, Disk.ofFile "def f():\n  a\na") ∧
      (shown.preview functionEdit).1 = .ok view ∧
      shown.edit Disk.storage functionEdit (Disk.ofFile "def f():\n  a\na") =
        ((.ok report, edited), Disk.ofFile "def f():\n  b\na") ∧
      view.warnings = report.warnings ∧ view.linesChanged = report.linesChanged ∧
      view.assessment = report.assessment ∧ view.preview =
        some "--- a/f\n+++ b/f\n@@ -1,3 +1,3 @@\n def f():\n-  a\n+  b\n a\n" := by
  have haccepts : functionFile.AcceptsAll := fun _ => ⟨_, rfl⟩
  obtain ⟨shown, hlooks, ⟨-, -, -, hphase⟩, hpreview, -, -, hmade⟩ :=
    edit_as_previewed Disk.storage [functionEdit, functionEdit] functionEdit
      (Disk.ofFile "def f():\n  a\na") haccepts fun _ _ => functionFile_canSave _
  obtain ⟨report, edited, hedit, hcontent⟩ := exists_functionFile_edited
  rw [← edit_inPhase shown.phase, ← hphase] at hedit
  have hshows := hmade report edited _ hedit
  rw [hcontent] at hshows
  rcases hshows with ⟨⟨hmany, -⟩, -⟩ |
    ⟨view, text, hview, hwarnings, hlines, hassessment, htext, hshown⟩
  · -- Three lines of context are few.
    exact absurd hmany (by decide)
  · obtain rfl := Except.ok.inj (htext.symm.trans unified_function)
    exact ⟨haccepts, functionFile_canSave, shown, view, report, edited, hlooks,
      hpreview.trans hview, hedit, hwarnings, hlines, hassessment, hshown⟩

end ExactEdit.Editor
