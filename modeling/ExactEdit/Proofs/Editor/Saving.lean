import ExactEdit.Proofs.Editor.Rollback
import ExactEdit.Proofs.Editor.Showing

/-! # Saving a text

An editor with a file looks at it before it writes, unless it was told not to. It goes on only if
the file has the content id that it expects, and then writes once. So a text that was saved is in
the file, and a file with another content id is never written to.

An edit saves its text before it asks the parser, a batch after it did; each saves once.

## Main results

* `Editor.checkUnchanged_eq_ok_iff` — when an editor goes on to write
* `Editor.persist_eq_ok_iff` — a text is saved by one write
* `Editor.file_of_persist_eq_ok` — a text that was saved is in the file
* `Editor.edit_eq_of_plan_eq_ok` — what becomes of a planned edit
* `Editor.edit_eq_ok_iff`, `Editor.editAll_eq_ok_iff` — when an edit and a batch are made
* `Editor.record_of_persist_eq_ok` — a text that was saved was written once
-/

namespace ExactEdit.Editor

open Result

variable {σ : Type} {storage : Storage (StateM σ)} {editor other written : Editor}
variable {edited staged : Editor} {request : Request} {requests : List Request} {plan : Plan}
variable {report : EditReport} {batchReport : BatchReport} {refusal : Refusal}
variable {finished : Transaction} {file : σ → Option ByteArray} {path text expected : String}
variable {state state' looked : σ} {record : List Attempt}

/-! ## Looking at the file and writing it -/

/-- An editor goes on to write if it does not look at the file, or finds the content id that it
expects. -/
theorem checkUnchanged_eq_ok_iff :
    editor.checkUnchanged storage path expected state = (.ok (), looked) ↔
      (editor.settings.detectsExternalChanges = false ∧ state = looked) ∨
      (editor.settings.detectsExternalChanges = true ∧ ∃ onDisk,
        storage.read path state = (.ok onDisk, looked) ∧
        ExactEdit.contentId onDisk = expected) := by
  rw [checkUnchanged_run]
  cases editor.settings.detectsExternalChanges with
  | false => exact ⟨fun h => .inl ⟨rfl, (Prod.mk.inj h).2⟩, by rintro (⟨-, rfl⟩ | ⟨⟨⟩, -⟩); rfl⟩
  | true =>
    rcases hread : storage.read path state with ⟨error | onDisk, after⟩
    · constructor
      · rintro ⟨⟩
      · rintro (⟨⟨⟩, -⟩ | ⟨-, onDisk, ⟨⟩, -⟩)
    · constructor
      · intro h
        obtain ⟨hsame, rfl⟩ := Prod.mk.inj h
        split at hsame
        · next hid => exact .inr ⟨rfl, onDisk, rfl, hid⟩
        · cases hsame
      · rintro (⟨⟨⟩, -⟩ | ⟨-, onDisk, ⟨⟩, hid⟩)
        simp only [if_pos hid]
        rfl

/-- A text is saved by one write, after the file was looked at. -/
theorem persist_eq_ok_iff (hpath : editor.path = some path) :
    editor.persist storage text expected state = (.ok written, state') ↔
      written = { editor with contentId := ExactEdit.contentId text } ∧
      ∃ looked, editor.checkUnchanged storage path expected state = (.ok (), looked) ∧
        storage.write path text looked = (.ok (), state') := by
  rw [persist_run]
  simp only [hpath]
  rcases editor.checkUnchanged storage path expected state with ⟨refusal | _, looked⟩
  · constructor
    · rintro ⟨⟩
    · rintro ⟨-, _, ⟨⟩, -⟩
  · rcases hwrite : storage.write path text looked with ⟨error | _, after⟩
    · constructor
      · simp only [hwrite]
        rintro ⟨⟩
      · rintro ⟨-, _, ⟨⟩, h⟩
        rw [hwrite] at h
        cases h
    · constructor
      · simp only [hwrite]
        rintro ⟨⟩
        exact ⟨rfl, looked, rfl, hwrite⟩
      · rintro ⟨rfl, _, ⟨⟩, h⟩
        simp only [h]

/-- A text that was saved is in the file. -/
theorem file_of_persist_eq_ok (hserves : storage.Serves path file) (hpath : editor.path = some path)
    (hthere : file state ≠ none)
    (h : editor.persist storage text expected state = (.ok written, state')) :
    file state' = some text.toUTF8 := by
  obtain ⟨-, looked, hcheck, hwrite⟩ := (persist_eq_ok_iff hpath).mp h
  have hlooked : file (editor.checkUnchanged storage path expected state).2 = file state :=
    files_of_checkUnchanged hserves.toKeepsFiles
  rw [hcheck] at hlooked
  exact hserves.written _ _ _ (hlooked.symm ▸ hthere) hwrite

/-- A file that nobody changed is replaced by any text. -/
theorem persist_ofFile (hpath : editor.path = some "f") (old new : String) :
    editor.persist Disk.storage new (ExactEdit.contentId old) (Disk.ofFile old) =
      (.ok { editor with contentId := ExactEdit.contentId new }, Disk.ofFile new) := by
  refine (persist_eq_ok_iff hpath).mpr
    ⟨rfl, Disk.ofFile old, checkUnchanged_eq_ok_iff.mpr ?_, Disk.write_ofFile old new⟩
  cases editor.settings.detectsExternalChanges with
  | false => exact .inl ⟨rfl, rfl⟩
  | true => exact .inr ⟨rfl, old, Disk.read_ofFile old, rfl⟩

/-- Of an editor, saving uses the file and the settings alone. -/
theorem persist_congr (hpath : other.path = editor.path)
    (hsettings : other.settings = editor.settings) :
    other.persist storage text expected state =
      ((editor.persist storage text expected state).1.map fun _ =>
        { other with contentId := ExactEdit.contentId text },
        (editor.persist storage text expected state).2) := by
  rw [persist_run, persist_run, hpath]
  cases editor.path with
  | none => rfl
  | some path =>
    have hcheck : other.checkUnchanged storage path expected state =
        editor.checkUnchanged storage path expected state := by
      rw [checkUnchanged_run, checkUnchanged_run, hsettings]
    simp only [hcheck]
    rcases editor.checkUnchanged storage path expected state with ⟨refusal | _, looked⟩
    · rfl
    · rcases hwrite : storage.write path text looked with ⟨error | _, after⟩
      · simp only [hwrite]
        rfl
      · simp only [hwrite]
        rfl

/-- What was staged is saved as the editor itself would save it. -/
theorem persist_of_stageAll_eq_done
    (h : stageAll (editor.inPhase .applying) (Transaction.start editor.source editor.contentId) 1
      requests = .done staged finished) :
    staged.persist storage staged.content finished.contentId state =
      ((editor.persist storage staged.content editor.contentId state).1.map fun _ =>
        { staged with contentId := ExactEdit.contentId staged.content },
        (editor.persist storage staged.content editor.contentId state).2) := by
  have hsame := sameButText_of_stageAll_eq_done h
  have hid : finished.contentId = editor.contentId := (snapshot_of_stageAll_eq_done h).2
  rw [hid]
  exact persist_congr hsame.path_eq hsame.settings_eq

/-! ## Edits and batches -/

/-- A planned edit is saved, and then its text is parsed. -/
theorem edit_eq_of_plan_eq_ok (hplan : editor.plan request = .ok plan) :
    editor.edit storage request state =
      match editor.persist storage (editor.plannedText request plan) editor.contentId state with
      | (.error refusal, state') =>
        ((.error (.refused refusal), editor.inPhase .rejected), state')
      | (.ok _, state') =>
        match scopesOf editor.parser editor.language
            (Source.ofChars (editor.splice plan.range request.newText)) with
        | .error cause =>
          ((.error (.refused cause), { editor with
            contentId := ExactEdit.contentId (editor.plannedText request plan)
            phase := .rejected }), state')
        | .ok scopes =>
          ((.ok (editReport editor.content (editor.plannedText request plan) plan
            request.constraint), { editor with
            source := Source.ofChars (editor.splice plan.range request.newText)
            scopes
            contentId := ExactEdit.contentId (editor.plannedText request plan)
            phase := .applied }), state') := by
  rw [edit_run, hplan]
  simp only [commit_run, plannedText]
  rcases hsaving : editor.persist storage
      (String.ofList (editor.splice plan.range request.newText)) editor.contentId state with
    ⟨refusal | written, after⟩
  · rfl
  · obtain rfl := eq_of_persist_eq_ok hsaving
    simp only [restage]
    cases scopesOf editor.parser editor.language
        (Source.ofChars (editor.splice plan.range request.newText)) with
    | error cause => rfl
    | ok scopes => rfl

/-- An edit is made if it is planned, its text is saved, and its text is parsed. -/
theorem edit_eq_ok_iff : editor.edit storage request state = ((.ok report, edited), state') ↔
    ∃ plan scopes written, editor.plan request = .ok plan ∧
      editor.persist storage (editor.plannedText request plan) editor.contentId state =
        (.ok written, state') ∧
      scopesOf editor.parser editor.language
        (Source.ofChars (editor.splice plan.range request.newText)) = .ok scopes ∧
      edited = { editor with
        source := Source.ofChars (editor.splice plan.range request.newText)
        scopes
        contentId := ExactEdit.contentId (editor.plannedText request plan)
        phase := .applied } ∧
      report = editReport editor.content edited.content plan request.constraint := by
  constructor
  · intro h
    rcases hplan : editor.plan request with (refusal | fault) | plan
    · rw [edit_run, hplan] at h
      cases h
    · rw [edit_run, hplan] at h
      cases h
    · rw [edit_eq_of_plan_eq_ok hplan] at h
      split at h
      · cases h
      · next written after hsaving =>
        split at h
        · cases h
        · next scopes hscopes =>
          obtain ⟨hresult, rfl⟩ := Prod.mk.inj h
          obtain ⟨hreport, rfl⟩ := Prod.mk.inj hresult
          exact ⟨plan, scopes, written, rfl, hsaving, hscopes, rfl, (Except.ok.inj hreport).symm⟩
  · rintro ⟨plan, scopes, written, hplan, hsaving, hscopes, rfl, rfl⟩
    rw [edit_eq_of_plan_eq_ok hplan]
    simp only [hsaving, hscopes]
    rfl

/-- A batch is made if it is planned, staged to its end and saved. -/
theorem editAll_eq_ok_iff :
    editor.editAll storage requests state = ((.ok batchReport, edited), state') ↔
    ∃ warnings staged finished written, requests ≠ [] ∧
      editor.planAll 1 requests = .ok warnings ∧
      stageAll (editor.inPhase .applying) (Transaction.start editor.source editor.contentId) 1
        requests = .done staged finished ∧
      editor.persist storage staged.content editor.contentId state = (.ok written, state') ∧
      edited = { staged with
        contentId := ExactEdit.contentId staged.content
        phase := .applied } ∧
      batchReport =
        { success := true
          editsApplied := requests.length
          linesChanged := Diff.changedLines editor.content edited.content
          warnings
          error := none
          errorKind := none } := by
  rw [editAll_run]
  constructor
  · intro h
    split at h
    · cases h
    · next hsome =>
      split at h
      · cases h
      · cases h
      · next warnings hplanned =>
        split at h
        · cases h
        · rw [takeBack] at h
          split at h
          · cases h
          · cases h
        · next staged finished hdone =>
          rw [persist_of_stageAll_eq_done hdone] at h
          rcases hsaving : editor.persist storage staged.content editor.contentId state with
            ⟨refusal | written, after⟩ <;> rw [hsaving] at h
          · simp only [Except.map, takeBack] at h
            split at h
            · cases h
            · cases h
          · obtain ⟨hresult, rfl⟩ := Prod.mk.inj h
            obtain ⟨hbatchReport, rfl⟩ := Prod.mk.inj hresult
            obtain rfl := Except.ok.inj hbatchReport
            refine ⟨warnings, staged, finished, written, List.isEmpty_iff.not.mp hsome, hplanned,
              hdone, hsaving, rfl, ?_⟩
            rw [commit_of_stageAll_eq_done hdone, (snapshot_of_stageAll_eq_done hdone).1]
            rfl
  · rintro ⟨warnings, staged, finished, written, hsome, hplanned, hdone, hsaving, rfl, rfl⟩
    rw [if_neg (List.isEmpty_iff.not.mpr hsome), hplanned]
    simp only [hdone, persist_of_stageAll_eq_done hdone, hsaving, Except.map]
    rw [commit_of_stageAll_eq_done hdone, (snapshot_of_stageAll_eq_done hdone).1]
    rfl

/-! ## The record of writes -/

theorem checkUnchanged_recording :
    editor.checkUnchanged storage.recording path expected (state, record) =
      ((editor.checkUnchanged storage path expected state).1,
        ((editor.checkUnchanged storage path expected state).2, record)) := by
  rw [checkUnchanged_run, checkUnchanged_run]
  split
  · rcases hread : storage.read path state with ⟨error | onDisk, looked⟩
    · simp only [Storage.recording, hread]
    · simp only [Storage.recording, hread]
  · rfl

/-- Recording changes nothing else about saving. -/
theorem exists_persist_recording (storage : Storage (StateM σ)) (editor : Editor)
    (text expected : String) (state : σ) (record : List Attempt) : ∃ record',
    editor.persist storage.recording text expected (state, record) =
      ((editor.persist storage text expected state).1,
        ((editor.persist storage text expected state).2, record')) := by
  rw [persist_run, persist_run]
  cases editor.path with
  | none => exact ⟨record, rfl⟩
  | some path =>
    simp only [checkUnchanged_recording]
    rcases editor.checkUnchanged storage path expected state with ⟨refusal | _, looked⟩
    · exact ⟨record, rfl⟩
    · simp only [Storage.recording]
      rcases storage.write path text looked with ⟨error | _, after⟩
      · exact ⟨_, rfl⟩
      · exact ⟨_, rfl⟩

/-- A text that was saved was written once, with nothing else tried before. -/
theorem record_of_persist_eq_ok {after : σ × List Attempt} (hpath : editor.path = some path)
    (h : editor.persist storage.recording text expected (state, record) = (.ok written, after)) :
    after.2 = ⟨path, text, true⟩ :: record := by
  obtain ⟨-, looked, hcheck, hwrite⟩ := (persist_eq_ok_iff hpath).mp h
  rw [checkUnchanged_recording] at hcheck
  obtain ⟨-, rfl⟩ := Prod.mk.inj hcheck
  simp only [Storage.recording] at hwrite
  split at hwrite
  · obtain ⟨-, rfl⟩ := Prod.mk.inj hwrite
    rfl
  · cases hwrite

end ExactEdit.Editor
