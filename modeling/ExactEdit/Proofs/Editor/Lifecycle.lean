import ExactEdit.Proofs.Editor.Session

/-! # The phase between calls

The phase of an editor is set at many points of a call, and calls can end at many points. Between
calls it tells of the past all the same: the last call that was no search and no batch without
requests, and whether it was an edit that was made, an edit that was refused, or no edit. This is
for calls that return; one that stops the program leaves the editor in the middle of the call.

The phase does not hold the past, so the calls are recorded beside the editor, with how each ended.

## Main definitions

* `Call.isPassive`, `Call.isEdit` — calls that leave the phase alone, and calls that edit
* `Call.phaseAfter` — the phase that any other call leaves behind
* `Editor.History` — a session with a record of its calls, all of which returned
* `lastTelling` — the last call of a record that tells of the phase

## Main results

* `Call.phase_run` — the phase after one call
* `Editor.History.phase_eq` — the phase after a record of calls
* `Editor.phase_tells_last_edit` — what each phase says about the past
-/

namespace ExactEdit

open Editor Result

variable {σ : Type} {storage : Storage (StateM σ)} {others : σ → σ → Prop}
variable {editor start : Editor} {state origin : σ} {call : Call} {result : Except Refusal Unit}
variable {calls : List (Call × Except Refusal Unit)}

/-! ## One call -/

namespace Call

/-- Whether a call leaves the phase alone: a search, or a batch without requests. -/
def isPassive : Call → Bool
  | find .. => true
  | editAll requests => requests.isEmpty
  | _ => false

/-- Whether a call is an edit or a batch. -/
def isEdit : Call → Bool
  | edit _ => true
  | editAll _ => true
  | _ => false

/-- The phase that a call leaves behind when it returns, unless it is passive. -/
def phaseAfter (call : Call) (result : Except Refusal Unit) : Phase :=
  if call.isEdit then
    match result with
    | .ok () => .applied
    | .error _ => .rejected
  else .idle

/-- Whether an outcome has the phase for how it returned, if it did. -/
def Outcome.Leaves (outcome : Outcome σ) (phase : Except Refusal Unit → Phase) : Prop :=
  ∀ result, outcome.result = result.mapError .refused → outcome.editor.phase = phase result

namespace Outcome

variable {phase : Except Refusal Unit → Phase}

theorem leaves_stopped {fault : Fault} :
    (⟨.error (.stopped fault), editor, state⟩ : Outcome σ).Leaves phase := by
  intro result hreturns
  cases result with
  | error refusal => cases hreturns
  | ok _ => cases hreturns

theorem leaves_refused {refusal : Refusal} (h : editor.phase = phase (.error refusal)) :
    (⟨.error (.refused refusal), editor, state⟩ : Outcome σ).Leaves phase := by
  intro result hreturns
  cases result with
  | error other =>
    cases hreturns
    exact h
  | ok _ => cases hreturns

theorem leaves_ok (h : editor.phase = phase (.ok ())) :
    (⟨.ok (), editor, state⟩ : Outcome σ).Leaves phase := by
  intro result hreturns
  cases result with
  | error other => cases hreturns
  | ok _ => exact h

/-- A call that leaves the text alone is idle again, unless what it looks at stops it. -/
theorem leaves_afterLooking {α : Type} {looked : Except Failure α} {result : Except Failure Unit}
    (hstops : ∀ fault, looked = .error (.stopped fault) → result = .error (.stopped fault)) :
    (⟨result, editor.afterLooking looked, state⟩ : Outcome σ).Leaves fun _ => .idle := by
  rcases looked with (refusal | fault) | _
  · exact fun _ _ => rfl
  · rw [hstops fault rfl]
    exact leaves_stopped
  · exact fun _ _ => rfl

end Outcome

open Call.Outcome

theorem leaves_edit (request : Request) :
    (run storage editor state (.edit request)).Leaves (phaseAfter (.edit request)) := by
  rw [run, edit_run]
  cases editor.plan request with
  | error failure =>
    cases failure with
    | stopped fault => exact leaves_stopped
    | refused refusal => exact leaves_refused rfl
  | ok plan =>
    simp only
    rcases editor.commit storage (editor.splice plan.range request.newText) state with
      ⟨⟨refusal | _, edited⟩, state'⟩
    · exact leaves_refused rfl
    · exact leaves_ok rfl

/-- A batch that is taken back is rejected, because the text from before was parsed once. -/
theorem leaves_editAll (hparsed : editor.IsParsed) {requests : List Request}
    (hrequests : requests ≠ []) :
    (run storage editor state (.editAll requests)).Leaves (phaseAfter (.editAll requests)) := by
  rw [run, editAll_run, if_neg (List.isEmpty_iff.not.mpr hrequests)]
  cases editor.planAll 1 requests with
  | error failure =>
    cases failure with
    | stopped fault => exact leaves_stopped
    | refused refusal => exact leaves_refused rfl
  | ok warnings =>
    simp only
    -- Whatever was staged, the text that comes back is the one of the editor.
    cases hstaging : stageAll (editor.inPhase .applying)
        (Transaction.start editor.source editor.contentId) 1 requests with
    | broken staged index failure =>
      cases failure with
      | stopped fault => exact leaves_stopped
      | refused cause =>
        have hsame := (kept_of_stageAll_eq_broken (hparsed.inPhase .applying) hstaging).2
        have hback : staged.takeBack (Transaction.start editor.source editor.contentId) index
            (.transaction index cause.message) = _ := takeBack_eq hparsed hsame rfl
        simp only [hback]
        exact leaves_refused rfl
    | done staged finished =>
      simp only
      rcases staged.persist storage staged.content finished.contentId state with
        ⟨refusal | written, state'⟩
      · simp only
        rw [takeBack_eq hparsed (sameButText_of_stageAll_eq_done hstaging)
          (snapshot_of_stageAll_eq_done hstaging).1]
        exact leaves_refused rfl
      · exact leaves_ok rfl

/-- A search returns if the lines that it shows have numbers. -/
theorem exists_result_of_find {chars : List Char} (search : String) (constraint : Constraint)
    (hsource : editor.source = Source.ofChars chars)
    (hword : editor.source.lineCount + editor.settings.contextLines < UInt64.size) :
    ∃ result, (run storage editor state (.find search constraint)).result =
      Except.mapError .refused result := by
  rw [run, outcomeOf]
  cases hfind : editor.find search constraint with
  | ok occurrences => exact ⟨.ok (), rfl⟩
  | error failure =>
    obtain ⟨refusal, rfl, -⟩ := exists_refusal_of_find_eq_error hsource hword hfind
    exact ⟨.error refusal, rfl⟩

theorem phase_run_of_isPassive (hpassive : call.isPassive = true) :
    (call.run storage editor state).editor.phase = editor.phase := by
  cases call with
  | find search constraint => rfl
  | validate request => cases hpassive
  | preview request => cases hpassive
  | edit request => cases hpassive
  | editAll requests =>
    have hempty : requests.isEmpty = true := hpassive
    rw [run, editAll_run, if_pos hempty]
    rfl

/-- A call that returns and is not passive leaves the phase that tells how it ended. -/
theorem phase_run (hparsed : editor.IsParsed) (htells : call.isPassive = false)
    (hreturns : (call.run storage editor state).result = result.mapError .refused) :
    (call.run storage editor state).editor.phase = call.phaseAfter result := by
  have hleaves : (call.run storage editor state).Leaves call.phaseAfter := by
    cases call with
    | find search constraint => cases htells
    | validate request =>
      refine leaves_afterLooking fun fault hstopped => ?_
      rw [Editor.validate, hstopped]
      rfl
    | preview request =>
      refine leaves_afterLooking fun fault hstopped => ?_
      rw [preview_eq_error_of_plan hstopped]
      rfl
    | edit request => exact leaves_edit request
    | editAll requests =>
      refine leaves_editAll hparsed fun hempty => ?_
      rw [hempty] at htells
      cases htells
  exact hleaves result hreturns

end Call

/-! ## All calls -/

/-- The last call of a record that is not passive, with how it ended. -/
def lastTelling (calls : List (Call × Except Refusal Unit)) : Option (Call × Except Refusal Unit) :=
  (calls.filter fun ended => !ended.1.isPassive).getLast?

theorem lastTelling_concat (ended : Call × Except Refusal Unit) :
    lastTelling (calls ++ [ended]) =
      if ended.1.isPassive then lastTelling calls else some ended := by
  rw [lastTelling, List.filter_append, List.getLast?_append, List.filter_singleton]
  cases ended.1.isPassive with
  | true => rfl
  | false => rfl

namespace Editor

/-- The editors and states that calls lead to from where it was opened, as in a session, with a
record of the calls. All of them returned, and the record has how each ended. -/
inductive History (storage : Storage (StateM σ)) (others : σ → σ → Prop) (start : Editor)
    (origin : σ) : List (Call × Except Refusal Unit) → Editor → σ → Prop
  | start : History storage others start origin [] start origin
  | call {calls : List (Call × Except Refusal Unit)} {editor : Editor} {state : σ}
      (before : History storage others start origin calls editor state) (call : Call)
      {result : Except Refusal Unit}
      (returns : (call.run storage editor state).result = result.mapError .refused) :
      History storage others start origin (calls ++ [(call, result)])
        (call.run storage editor state).editor (call.run storage editor state).state
  | others {calls : List (Call × Except Refusal Unit)} {editor : Editor} {state state' : σ}
      (before : History storage others start origin calls editor state)
      (change : others state state') : History storage others start origin calls editor state'

theorem History.session (h : History storage others start origin calls editor state) :
    Session storage others (fun _ => True) start origin editor state := by
  induction h with
  | start => exact .start
  | call _ call returns ih => exact ih.call call trivial
  | others _ change ih => exact ih.others change

theorem Opened.phase_eq (h : Opened storage editor state) : editor.phase = .idle := by
  induction h with
  | inMemory opened =>
    obtain ⟨scopes, -, hpure⟩ := bind_eq_ok_iff.mp opened
    rw [← Except.ok.inj hpure]
  | openFile opened =>
    obtain ⟨text, opened, -, hopened, rfl⟩ := openFile_eq_ok_iff.mp opened
    obtain ⟨scopes, -, hpure⟩ := bind_eq_ok_iff.mp hopened
    rw [← Except.ok.inj hpure]
  | withSettings _ settings ih => exact ih
  | withChecker _ checker ih => exact ih

/-- The phase is the one that the last call left behind, apart from passive ones. -/
theorem History.phase_eq (hparsed : start.IsParsed)
    (h : History storage others start origin calls editor state) :
    editor.phase = (lastTelling calls).elim start.phase fun ended =>
      ended.1.phaseAfter ended.2 := by
  -- The induction is on the record. A batch may have to go back to the text before it, so the
  -- editor has to be parsed at every call; this is an invariant of sessions.
  induction h with
  | start => rfl
  | @call calls editor state before call result returns ih =>
    rw [lastTelling_concat]
    cases hpassive : call.isPassive with
    | true => exact (call.phase_run_of_isPassive hpassive).trans ih
    | false =>
      have hnow : editor.IsParsed := (before.session.isParsed_and_sameMeans hparsed).1
      exact call.phase_run hnow hpassive returns
  | others _ change ih => exact ih

/-- Between calls an editor is neither validating nor applying. It is in the phase of an edit that
was applied, or of one that was rejected, exactly if the last call was an edit or a batch that ended
so, and otherwise idle. Searches and batches without requests do not count. -/
theorem phase_tells_last_edit (hopened : Opened storage start origin)
    (h : History storage others start origin calls editor state) :
    editor.phase ≠ .validating ∧ editor.phase ≠ .applying ∧
    (editor.phase = .applied ↔
      ∃ call, lastTelling calls = some (call, .ok ()) ∧ call.isEdit = true) ∧
    (editor.phase = .rejected ↔
      ∃ call refusal, lastTelling calls = some (call, .error refusal) ∧ call.isEdit = true) ∧
    (editor.phase = .idle ↔
      ∀ call result, lastTelling calls = some (call, result) → call.isEdit = false) := by
  have hphase := h.phase_eq hopened.isCurrent.toIsParsed
  rw [hopened.phase_eq] at hphase
  cases hlast : lastTelling calls with
  | none =>
    have hidle : editor.phase = .idle := by rw [hphase, hlast, Option.elim_none]
    simp [hidle]
  | some ended =>
    obtain ⟨call, result⟩ := ended
    simp only [hlast, Option.elim_some, Call.phaseAfter] at hphase
    cases hedit : call.isEdit with
    | false => simp [hphase, hedit]
    | true =>
      cases result with
      | error refusal => simp [hphase, hedit]
      | ok _ => simp [hphase, hedit]

/-- The edit in the function was applied, and a search after it does not change that. -/
theorem functionFile_applied :
    Opened Disk.storage functionFile (Disk.ofFile "def f():\n  a\na") ∧
    ∃ result editor disk, History Disk.storage (fun _ _ => False) functionFile
        (Disk.ofFile "def f():\n  a\na")
        [(.edit functionEdit, .ok ()), (.find "a" .default, result)] editor disk ∧
      editor.phase = .applied := by
  obtain ⟨report, edited, hedit, hcontent⟩ := exists_functionFile_edited
  have hstart : History Disk.storage (fun _ _ => False) functionFile
      (Disk.ofFile "def f():\n  a\na") [] functionFile (Disk.ofFile "def f():\n  a\na") := .start
  have hrun : Call.run Disk.storage functionFile (Disk.ofFile "def f():\n  a\na")
      (.edit functionEdit) = ⟨.ok (), edited, Disk.ofFile "def f():\n  b\na"⟩ := by
    rw [Call.run, hedit]
    rfl
  have happlied : (Call.run Disk.storage functionFile (Disk.ofFile "def f():\n  a\na")
      (.edit functionEdit)).result = Except.mapError Failure.refused (.ok ()) := by
    rw [hrun]
    rfl
  have hfirst := hstart.call (.edit functionEdit) happlied
  rw [hrun] at hfirst
  -- The text after the edit is as short as the one before, so a search in it returns.
  obtain ⟨hparsed, hmeans⟩ :=
    hfirst.session.isParsed_and_sameMeans functionFile_opened.isCurrent.toIsParsed
  have hchars : edited.source.chars = "def f():\n  b\na".toList := by
    rw [← hcontent, content, Source.text, String.toList_ofList]
  have hword : edited.source.lineCount + edited.settings.contextLines < UInt64.size := by
    rw [hmeans.settings_eq, hparsed.source_eq, hchars]
    decide +kernel
  obtain ⟨result, hresult⟩ := Call.exists_result_of_find "a" .default hparsed.source_eq hword
  have hhistory := hfirst.call (.find "a" .default) hresult
  refine ⟨functionFile_opened, _, _, _, hhistory, ?_⟩
  obtain ⟨-, -, happlied_iff, -, -⟩ := phase_tells_last_edit functionFile_opened hhistory
  exact happlied_iff.mpr ⟨.edit functionEdit, rfl, rfl⟩

end Editor

end ExactEdit
