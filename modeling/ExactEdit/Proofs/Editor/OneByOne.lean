import ExactEdit.Proofs.Editor.Batch
import ExactEdit.Proofs.Editor.Session

/-! # What a batch makes

A batch that is made takes its requests one after the other: each is made at the first place that
its constraint allows in the text made so far, by the scopes of that text. Nothing is written on the
way; the text at the end is written, once.

A batch of one request takes another way than a single edit: it is planned, located anew in memory,
staged, and then saved, while an edit is planned, saved, and then parsed. Both come to the same.

## Main definitions

* `Editor.replaceAtFirstPlace?` — a request made at its first place

## Main results

* `Editor.locate_eq_of_plan_eq_ok` — a request is made where it was planned, if nothing is made
  before it
* `Editor.foldlM_of_stageAll` — staging takes the requests one after the other
* `Editor.editAll_recording_of_eq_ok` — a batch writes once
* `Editor.editAll_one_by_one` — what a batch makes, and a batch of one request
-/

namespace ExactEdit.Editor

open Text Result

variable {σ : Type} {storage : Storage (StateM σ)} {editor staged edited written : Editor}
variable {request : Request} {requests : List Request} {plan : Plan} {report : BatchReport}
variable {transaction finished : Transaction} {index : Nat} {state state' : σ} {refusal : Refusal}
variable {text expected : String}

/-- The text with a request made at its first place. -/
def replaceAtFirstPlace? (parser : Parser) (language : Option Language) (chars : List Char)
    (request : Request) : Option (List Char) :=
  (firstPlace? parser language request chars).map fun start =>
    Text.splice ⟨start, start + width request.oldText.toList⟩ request.newText.toList chars

/-! ## Staging -/

/-- Making a request in memory is making it at its first place. -/
theorem replaceAtFirstPlace?_of_stage (hparsed : editor.IsParsed)
    (h : editor.stage request = .ok staged) :
    replaceAtFirstPlace? editor.parser editor.language editor.source.chars request =
      some staged.source.chars := by
  obtain ⟨range, hlocate, hchars⟩ := chars_of_stage_eq_ok h
  obtain ⟨hfirst, -, hrange⟩ := firstPlace?_of_locate hparsed hlocate
  rw [replaceAtFirstPlace?, hfirst, hchars, Option.map_some, ← hrange]

/-- Staging takes the requests one after the other. -/
theorem foldlM_of_stageAll (hparsed : editor.IsParsed)
    (h : stageAll editor transaction index requests = .done staged finished) :
    requests.foldlM (replaceAtFirstPlace? editor.parser editor.language) editor.source.chars =
      some staged.source.chars := by
  induction requests generalizing editor transaction index with
  | nil =>
    obtain ⟨rfl, -⟩ := Staging.done.inj h
    rfl
  | cons request rest ih =>
    obtain ⟨next, hnext, hrest⟩ := stageAll_cons_eq_done_iff.mp h
    have hsame := sameButText_of_stage_eq_ok hnext
    have htail := ih (isParsed_of_stage_eq_ok hnext) hrest
    rw [hsame.parser_eq, hsame.language_eq] at htail
    rw [List.foldlM_cons, replaceAtFirstPlace?_of_stage hparsed hnext]
    exact htail

/-! ## Batches -/

/-- A batch that is made on some state is made with a record of the writes too, which then has the
one write of the text at its end. -/
theorem editAll_recording_of_eq_ok (record : List Attempt)
    (h : editor.editAll storage requests state = ((.ok report, edited), state')) :
    editor.editAll storage.recording requests (state, record) = ((.ok report, edited),
      (state', (editor.path.map (⟨·, edited.content, true⟩)).toList ++ record)) := by
  obtain ⟨warnings, staged, finished, written, hsome, hplanned, hdone, hsaving, rfl, rfl⟩ :=
    editAll_eq_ok_iff.mp h
  refine editAll_eq_ok_iff.mpr
    ⟨warnings, staged, finished, written, hsome, hplanned, hdone, ?_, rfl, rfl⟩
  obtain ⟨record', hrecorded⟩ := exists_persist_recording storage editor staged.content
    editor.contentId state record
  rw [hsaving] at hrecorded
  rw [hrecorded]
  cases hfile : editor.path with
  | none =>
    rw [persist_eq_of_path_eq_none hfile] at hrecorded
    obtain ⟨-, hstate⟩ := Prod.mk.inj hrecorded
    obtain ⟨-, rfl⟩ := Prod.mk.inj hstate
    rfl
  | some path =>
    obtain rfl := record_of_persist_eq_ok hfile hrecorded
    rfl

/-! ## One request -/

/-- A request is made where it was planned, if nothing is made before it. -/
theorem locate_eq_of_plan_eq_ok (hparsed : editor.IsParsed) (h : editor.plan request = .ok plan) :
    editor.locate request = .ok plan.range := by
  obtain ⟨within, occurrences, target, hwithin, hfound, hfirst, hrange, -⟩ := of_plan_eq_ok h
  have hsome : request.oldText.isEmpty = false := by
    have hne := oldText_ne_nil_of_plan_eq_ok hparsed.source_eq h
    rw [Bool.eq_false_iff, Ne, String.isEmpty_iff]
    rintro hempty
    rw [hempty] at hne
    exact hne rfl
  have hfind : editor.find request.oldText request.constraint = .ok occurrences :=
    find_eq_ok_iff.mpr ⟨hsome, within, hwithin, hfound⟩
  rw [locate, hfind]
  cases occurrences with
  | nil => cases hfirst
  | cons first rest =>
    obtain rfl := Option.some.inj hfirst
    rw [hrange]
    rfl

theorem planAll_singleton_eq_ok_iff {warnings : List String} :
    editor.planAll index [request] = .ok warnings ↔ ∃ plan, editor.plan request = .ok plan ∧
      warnings = plan.warnings.map (s!"operation {index}: " ++ ·) := by
  cases hplan : editor.plan request with
  | error failure => simp [planAll, hplan]
  | ok plan =>
    rw [planAll_cons_of_ok hplan, map_eq_ok_iff]
    simp [planAll, eq_comm]

/-- A batch of one planned request is staged if the new text is parsed. -/
theorem stageAll_singleton_eq_done_iff (hparsed : editor.IsParsed)
    (hplan : editor.plan request = .ok plan) :
    stageAll (editor.inPhase .applying) transaction index [request] = .done staged finished ↔
      ∃ scopes, scopesOf editor.parser editor.language
          (Source.ofChars (editor.splice plan.range request.newText)) = .ok scopes ∧
        staged = { editor.inPhase .applying with
          source := Source.ofChars (editor.splice plan.range request.newText)
          scopes } ∧
        finished = transaction.record := by
  have hlocate : (editor.inPhase .applying).locate request = .ok plan.range :=
    locate_eq_of_plan_eq_ok (hparsed.inPhase .applying) hplan
  rw [stageAll_cons_eq_done_iff]
  constructor
  · rintro ⟨next, hnext, hnil⟩
    obtain ⟨rfl, rfl⟩ := Staging.done.inj hnil
    obtain ⟨range, hrange, hrestage⟩ := stage_eq_ok_iff.mp hnext
    obtain rfl := Except.ok.inj (hlocate.symm.trans hrange)
    obtain ⟨scopes, hscopes, rfl⟩ := restage_eq_ok_iff.mp hrestage
    exact ⟨scopes, hscopes, rfl, rfl⟩
  · rintro ⟨scopes, hscopes, rfl, rfl⟩
    exact ⟨_, stage_eq_ok_iff.mpr ⟨_, hlocate, restage_eq_ok_iff.mpr ⟨scopes, hscopes, rfl⟩⟩, rfl⟩

/-- A batch of one request is made if the request is planned, its text is saved, and its text is
parsed. -/
theorem editAll_singleton_eq_ok_iff (hparsed : editor.IsParsed) :
    editor.editAll storage [request] state = ((.ok report, edited), state') ↔
    ∃ plan scopes written, editor.plan request = .ok plan ∧
      editor.persist storage (editor.plannedText request plan) editor.contentId state =
        (.ok written, state') ∧
      scopesOf editor.parser editor.language
        (Source.ofChars (editor.splice plan.range request.newText)) = .ok scopes ∧
      edited = { editor with
        source := Source.ofChars (editor.splice plan.range request.newText)
        scopes
        contentId := ExactEdit.contentId (editor.plannedText request plan)
        phase := .applied } ∧
      report =
        { success := true
          editsApplied := 1
          linesChanged := Diff.changedLines editor.content edited.content
          warnings := plan.warnings.map (s!"operation {1}: " ++ ·)
          error := none
          errorKind := none } := by
  rw [editAll_eq_ok_iff]
  constructor
  · rintro ⟨warnings, staged, finished, written, -, hplanned, hdone, hsaving, rfl, rfl⟩
    obtain ⟨plan, hplan, rfl⟩ := planAll_singleton_eq_ok_iff.mp hplanned
    obtain ⟨scopes, hscopes, rfl, rfl⟩ := (stageAll_singleton_eq_done_iff hparsed hplan).mp hdone
    exact ⟨plan, scopes, written, hplan, hsaving, hscopes, rfl, rfl⟩
  · rintro ⟨plan, scopes, written, hplan, hsaving, hscopes, rfl, rfl⟩
    have hdone : stageAll (editor.inPhase .applying)
        (Transaction.start editor.source editor.contentId) 1 [request] = .done _ _ :=
      (stageAll_singleton_eq_done_iff hparsed hplan).mpr ⟨scopes, hscopes, rfl, rfl⟩
    exact ⟨_, _, _, _, List.cons_ne_nil _ _, planAll_singleton_eq_ok_iff.mpr ⟨plan, hplan, rfl⟩,
      hdone, hsaving, rfl, rfl⟩

/-- What a batch makes. The text at the end is that of all requests made at their first places one
after the other, each by the scopes of the text made so far; the report counts the requests and the
lines that differ between the first text and the last; and a file is written once, with the last
text.

A batch of one request is made exactly if the edit is, with the same text and all that is derived
from it, the same state of the files and the same number of changed lines. If the request is not
planned, the batch ends with the refusal of the edit under the number of the request. -/
theorem editAll_one_by_one (hreachable : editor.Reachable) (storage : Storage (StateM σ))
    (state : σ) :
    (∀ requests report edited state',
      editor.editAll storage requests state = ((.ok report, edited), state') →
      requests.foldlM (replaceAtFirstPlace? editor.parser editor.language) editor.source.chars =
        some edited.source.chars ∧
      report.editsApplied = requests.length ∧
      report.linesChanged = Diff.changedLines editor.content edited.content ∧
      ∀ record, editor.editAll storage.recording requests (state, record) = ((.ok report, edited),
        (state', (editor.path.map (⟨·, edited.content, true⟩)).toList ++ record))) ∧
    ∀ request,
      (∀ edited state' lines,
        (∃ report, editor.edit storage request state = ((.ok report, edited), state') ∧
          report.linesChanged = some lines) ↔
        ∃ report, editor.editAll storage [request] state = ((.ok report, edited), state') ∧
          report.linesChanged = lines) ∧
      ∀ refusal, editor.plan request = .error (.refused refusal) →
        editor.edit storage request state =
          ((.error (.refused refusal), editor.inPhase .rejected), state) ∧
        editor.editAll storage [request] state =
          ((.error (.refused (.batch 1 refusal)), editor.inPhase .rejected), state) := by
  have hparsed := hreachable.isParsed
  refine ⟨fun requests report edited state' h => ?_, fun request => ⟨fun edited state' lines => ?_,
    fun refusal hrefused => ⟨edit_eq_of_plan_eq_refused hrefused, ?_⟩⟩⟩
  · have hrecorded := fun record => editAll_recording_of_eq_ok record h
    obtain ⟨warnings, staged, finished, written, -, -, hdone, -, rfl, rfl⟩ :=
      editAll_eq_ok_iff.mp h
    have hfold := foldlM_of_stageAll (hparsed.inPhase .applying) hdone
    exact ⟨hfold, rfl, rfl, hrecorded⟩
  · constructor
    · rintro ⟨report, hedit, hlines⟩
      obtain ⟨plan, scopes, written, hplan, hsaving, hscopes, rfl, rfl⟩ :=
        edit_eq_ok_iff.mp hedit
      exact ⟨_, (editAll_singleton_eq_ok_iff hparsed).mpr
        ⟨plan, scopes, written, hplan, hsaving, hscopes, rfl, rfl⟩, Option.some.inj hlines⟩
    · rintro ⟨report, hmade, rfl⟩
      obtain ⟨plan, scopes, written, hplan, hsaving, hscopes, rfl, rfl⟩ :=
        (editAll_singleton_eq_ok_iff hparsed).mp hmade
      exact ⟨_, edit_eq_ok_iff.mpr ⟨plan, scopes, written, hplan, hsaving, hscopes, rfl, rfl⟩,
        rfl⟩
  · rw [editAll_run]
    have hplanned : editor.planAll 1 [request] = .error (.refused (.batch 1 refusal)) :=
      planAll_eq_error_iff.mpr ⟨[], request, [], .refused refusal, rfl, by simp, hrefused, rfl⟩
    rw [hplanned]
    rfl

/-! ### A batch that is made

The function and the line behind it are in a file. The batch edits `a` in the function, and then the
line behind it. -/

/-- An edit in the function, and one of the line behind it. -/
def functionBatch : List Request := [functionEdit, ⟨"\na", "\nc", .default⟩]

/-- The text that a batch has come to, if all of it could be made. -/
def Staging.content? : Staging → Option String
  | .done staged _ => some staged.content
  | .broken .. => none

theorem exists_functionFile_batch : ∃ report edited,
    functionFile.editAll Disk.storage functionBatch (Disk.ofFile "def f():\n  a\na") =
      ((.ok report, edited), Disk.ofFile "def f():\n  b\nc") ∧
    edited.content = "def f():\n  b\nc" := by
  have hplanned : (functionFile.planAll 1 functionBatch).toOption.map (fun _ => ()) = some () := by
    decide +kernel
  have hstaged : (stageAll (functionFile.inPhase .applying)
      (Transaction.start functionFile.source functionFile.contentId) 1 functionBatch).content? =
        some "def f():\n  b\nc" := by
    decide +kernel
  obtain ⟨warnings, hplanned, -⟩ := toOption_map_eq_some_iff.mp hplanned
  cases hdone : stageAll (functionFile.inPhase .applying)
      (Transaction.start functionFile.source functionFile.contentId) 1 functionBatch with
  | broken staged index cause =>
    rw [hdone] at hstaged
    cases hstaged
  | done staged finished =>
    rw [hdone] at hstaged
    have hcontent : staged.content = "def f():\n  b\nc" := Option.some.inj hstaged
    have hsaving := persist_ofFile (rfl : functionFile.path = some "f") "def f():\n  a\na"
      staged.content
    rw [← hcontent]
    exact ⟨_, _, editAll_eq_ok_iff.mpr ⟨warnings, staged, finished, _, List.cons_ne_nil _ _,
      hplanned, hdone, hsaving, rfl, rfl⟩, rfl⟩

/-- The batch replaces both and writes once. -/
theorem functionFile_one_by_one : functionFile.Reachable ∧ ∃ report edited,
    functionFile.editAll Disk.storage.recording functionBatch
        (Disk.ofFile "def f():\n  a\na", []) =
      ((.ok report, edited),
        (Disk.ofFile "def f():\n  b\nc", [⟨"f", "def f():\n  b\nc", true⟩])) ∧
    report.editsApplied = 2 ∧
    functionBatch.foldlM (replaceAtFirstPlace? functionFile.parser functionFile.language)
      "def f():\n  a\na".toList = some "def f():\n  b\nc".toList := by
  obtain ⟨report, edited, hmade, hcontent⟩ := exists_functionFile_batch
  obtain ⟨hbatch, -⟩ := editAll_one_by_one functionFile_opened.reachable Disk.storage
    (Disk.ofFile "def f():\n  a\na")
  obtain ⟨hfold, happlied, -, hrecorded⟩ := hbatch _ _ _ _ hmade
  have hrecorded := hrecorded []
  rw [hcontent] at hrecorded
  have hchars : edited.source.chars = "def f():\n  b\nc".toList := by
    rw [← hcontent, content, Source.text, String.toList_ofList]
  rw [hchars] at hfold
  exact ⟨functionFile_opened.reachable, report, edited, hrecorded, happlied, hfold⟩
end ExactEdit.Editor
