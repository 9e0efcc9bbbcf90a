import ExactEdit.Proofs.Editor.Saving
import ExactEdit.Proofs.Editor.Stopping

/-! # From a plan to an edit

A single edit is decided by its plan. A request that is not planned leaves the editor as it is but
for its phase. A request that is planned is made unless the file or the parser refuses the new text,
and whenever it is made, its plan is carried out; an editor without a file whose parser reads every
text makes every planned request.

## Main definitions

* `Editor.AcceptsAll` — the parser of an editor reads every text

## Main results

* `Editor.edit_eq_of_plan_eq_refused` — a request that is not planned
* `Editor.of_edit_eq_ok` — an edit that is made carries out a plan
* `Editor.exists_edit_of_plan_eq_ok`, `Editor.of_edit_eq_refused` — in memory a plan is carried out,
  and only a request without one is refused
-/

namespace ExactEdit.Editor

open Result

variable {σ : Type} {storage : Storage (StateM σ)} {editor edited : Editor} {request : Request}
variable {plan : Plan} {report : EditReport} {refusal : Refusal} {state state' : σ}
variable {chars : List Char}

/-- The parser of an editor reads every text. -/
def AcceptsAll (editor : Editor) : Prop :=
  ∀ chars, ∃ scopes, scopesOf editor.parser editor.language (Source.ofChars chars) = .ok scopes

theorem ofText_acceptsAll (chars : List Char) : (ofText chars).AcceptsAll :=
  fun _ => ⟨_, rfl⟩

/-- Any text becomes the text of such an editor, under whatever content id. -/
theorem AcceptsAll.exists_restage (h : editor.AcceptsAll) (contentId : String)
    (chars : List Char) : ∃ restaged, { editor with contentId }.restage chars = .ok restaged := by
  obtain ⟨scopes, hscopes⟩ := h chars
  exact ⟨_, restage_eq_ok_iff.mpr ⟨scopes, hscopes, rfl⟩⟩

/-- A request that is not planned changes nothing but the phase. -/
theorem edit_eq_of_plan_eq_refused (h : editor.plan request = .error (.refused refusal)) :
    editor.edit storage request state =
      ((.error (.refused refusal), editor.inPhase .rejected), state) := by
  rw [edit_run, h]

/-- An edit that is made carries out a plan. -/
theorem of_edit_eq_ok (h : editor.edit storage request state = ((.ok report, edited), state')) :
    ∃ plan, editor.plan request = .ok plan ∧
      edited.source = Source.ofChars (editor.splice plan.range request.newText) := by
  obtain ⟨plan, scopes, written, hplan, -, -, rfl, -⟩ := edit_eq_ok_iff.mp h
  exact ⟨plan, hplan, rfl⟩

/-- Without a file there is nothing to write. -/
theorem persist_eq_of_path_eq_none {text expected : String} (hpath : editor.path = none) :
    editor.persist storage text expected state =
      (.ok { editor with contentId := ExactEdit.contentId text }, state) := by
  rw [persist_run]
  split
  · rfl
  · next path hsome =>
    rw [hpath] at hsome
    cases hsome

/-- Without a file, and with a parser that reads every text, a plan is carried out. -/
theorem exists_edit_of_plan_eq_ok (storage : Storage (StateM σ)) (state : σ)
    (hpath : editor.path = none) (haccepts : editor.AcceptsAll)
    (h : editor.plan request = .ok plan) :
    ∃ report edited, editor.edit storage request state = ((.ok report, edited), state) ∧
      edited.source = Source.ofChars (editor.splice plan.range request.newText) := by
  obtain ⟨restaged, hrestage⟩ := haccepts.exists_restage
    (ExactEdit.contentId (String.ofList (editor.splice plan.range request.newText)))
    (editor.splice plan.range request.newText)
  have hedit : ∃ report edited,
      editor.edit storage request state = ((.ok report, edited), state) := by
    rw [edit_run, h]
    simp only [commit_run, persist_eq_of_path_eq_none hpath, hrestage]
    exact ⟨_, _, rfl⟩
  obtain ⟨report, edited, hedit⟩ := hedit
  obtain ⟨plan', hplan', hsource⟩ := of_edit_eq_ok hedit
  obtain rfl := Except.ok.inj (h.symm.trans hplan')
  exact ⟨report, edited, hedit, hsource⟩

/-- So there a request that is refused was not planned. -/
theorem of_edit_eq_refused {after : Editor} (hpath : editor.path = none)
    (haccepts : editor.AcceptsAll)
    (h : editor.edit storage request state = ((.error (.refused refusal), after), state')) :
    editor.plan request = .error (.refused refusal) ∧ after = editor.inPhase .rejected ∧
      state' = state := by
  cases hplan : editor.plan request with
  | ok plan =>
    obtain ⟨report, edited, hedit, -⟩ :=
      exists_edit_of_plan_eq_ok storage state hpath haccepts hplan
    rw [hedit] at h
    cases h
  | error failure =>
    cases failure with
    | stopped fault =>
      rw [edit_run, hplan] at h
      cases h
    | refused cause =>
      rw [edit_eq_of_plan_eq_refused hplan] at h
      obtain ⟨hresult, rfl⟩ := Prod.mk.inj h
      obtain ⟨hrefused, rfl⟩ := Prod.mk.inj hresult
      obtain rfl := Failure.refused.inj (Except.error.inj hrefused)
      exact ⟨rfl, rfl, rfl⟩

/-- A request whose old text ends in no line end does not stop the program. -/
theorem edit_ne_stopped_of_getLast (hsource : editor.source = Source.ofChars chars)
    (hword : editor.source.lineCount + editor.settings.contextLines < UInt64.size)
    (hfeed : request.oldText.toList.getLast? ≠ some '\n')
    (hreturn : request.oldText.toList.getLast? ≠ some '\r') (fault : Fault) :
    (editor.edit storage request state).1.1 ≠ .error (.stopped fault) := by
  intro hstopped
  exact not_hasOverhang_of_getLast hsource hfeed hreturn
    ((exists_plan_eq_stopped_iff hsource hword).mp ⟨fault, edit_eq_stopped_iff.mp hstopped⟩)

end ExactEdit.Editor
