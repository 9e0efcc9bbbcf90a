import ExactEdit.Proofs.Diff.Rendering
import ExactEdit.Proofs.Editor.Plan

/-! # What a preview shows

A preview shows the difference between the text of an editor and the text that a plan leads to, and
tells what the plan says of the edit. It fails as its plan fails, and else only by stopping, if the
difference cannot be shown.

## Main definitions

* `Editor.plannedText` — the text that a plan leads to

## Main results

* `Editor.preview_of_plan_eq_ok`, `Editor.previewReport_eq_ok_iff` — what a preview tells of a plan
* `Editor.preview_eq_error_iff`, `Editor.preview_eq_refused_iff` — when there is none
-/

namespace ExactEdit.Editor

open Result

variable {editor : Editor} {request : Request} {plan : Plan} {view : EditReport}
variable {refusal : Refusal} {failure : Failure}

/-- The text that a plan for a request leads to. -/
def plannedText (editor : Editor) (request : Request) (plan : Plan) : String :=
  String.ofList (editor.splice plan.range request.newText)

/-- What a preview tells of a plan, once the difference is there. -/
theorem previewReport_eq_ok_iff :
    editor.previewReport request plan = .ok view ↔ ∃ text,
      Diff.unified editor.label editor.content (editor.plannedText request plan)
        editor.previewContext = .ok text ∧
      view =
        { success := true
          message := some s!"Preview of change at line {plan.line}"
          error := none
          errorKind := none
          warnings := plan.warnings
          linesChanged :=
            some (Diff.changedLines editor.content (editor.plannedText request plan))
          preview := some text
          assessment := some plan.assessment
          suggestions := [] } := by
  simp only [previewReport, bind_eq_ok_iff, mapError_eq_ok_iff, pure_eq_ok_iff]
  rfl

theorem previewReport_eq_error_iff :
    editor.previewReport request plan = .error failure ↔
      Diff.Overflows editor.content (editor.plannedText request plan) editor.previewContext ∧
        failure = .stopped .sumOverflow := by
  rw [previewReport]
  refine bind_ok_eq_error_iff.trans (mapError_eq_error_iff.trans ?_)
  constructor
  · intro ⟨fault, hfault, hfailure⟩
    obtain ⟨hover, rfl⟩ := Diff.unified_eq_error_iff.mp hfault
    exact ⟨hover, hfailure.symm⟩
  · intro ⟨hover, hfailure⟩
    exact ⟨.sumOverflow, Diff.unified_eq_error_iff.mpr ⟨hover, rfl⟩, hfailure.symm⟩

/-- A preview fails as its plan does, or stops where the difference of the plan cannot be shown. -/
theorem preview_eq_error_iff :
    (editor.preview request).1 = .error failure ↔
      editor.plan request = .error failure ∨ ∃ plan, editor.plan request = .ok plan ∧
        Diff.Overflows editor.content (editor.plannedText request plan) editor.previewContext ∧
          failure = .stopped .sumOverflow := by
  rw [preview, bind_eq_error_iff]
  simp only [previewReport_eq_error_iff]

theorem preview_eq_error_of_plan (h : editor.plan request = .error failure) :
    (editor.preview request).1 = .error failure :=
  preview_eq_error_iff.mpr (.inl h)

/-- Showing a difference refuses nothing. -/
theorem preview_eq_refused_iff :
    (editor.preview request).1 = .error (.refused refusal) ↔
      editor.plan request = .error (.refused refusal) := by
  rw [preview_eq_error_iff]
  simp only [reduceCtorEq, and_false, exists_false, or_false]

/-- What a preview shows of a plan: the difference, unless showing it stops the program. -/
theorem preview_of_plan_eq_ok (hplan : editor.plan request = .ok plan) :
    (editor.preview request).1 = editor.previewReport request plan := by
  rw [preview, hplan]
  rfl

end ExactEdit.Editor
