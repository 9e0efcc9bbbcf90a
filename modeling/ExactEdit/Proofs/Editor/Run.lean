import ExactEdit.Editor.Edit

/-! # Editing over a state

The functions that make edits are written for any monad in which files can be read and written.
Over a state, such as a disk, each of them is a function of the state before: the equations here
say which calls to the storage are made in which state, and how the call ends after each.

## Main results

* `Editor.openFile_run` — opening a file
* `Editor.persist_run`, `Editor.commit_run` — writing the text of an editor
* `Editor.edit_run`, `Editor.editAll_run` — one edit, and a batch
-/

namespace ExactEdit.Editor

variable {σ : Type} {storage : Storage (StateM σ)} {editor : Editor} {request : Request}
variable {requests : List Request} {state : σ} {chars : List Char} {text expected path : String}

/-- Opening a file reads it once. -/
theorem openFile_run {parser : Parser} {language : Option Language} :
    openFile storage parser path language state =
      match storage.read path state with
      | (.error error, state') => (.error (.io "read" path error.message), state')
      | (.ok text, state') =>
        ((inMemory parser language text.toList).map fun editor => { editor with path := some path },
          state') := by
  rw [openFile]
  change StateT.bind (storage.read path) _ state = _
  rw [StateT.bind]
  rcases storage.read path state with ⟨_ | text, state'⟩
  · simp only
    rfl
  · simp only
    rfl

/-- Looking at the file again reads it once, or not at all. -/
theorem checkUnchanged_run :
    editor.checkUnchanged storage path expected state =
      if editor.settings.detectsExternalChanges then
        match storage.read path state with
        | (.error error, state') => (.error (.io "re-read" path error.message), state')
        | (.ok onDisk, state') =>
          (if ExactEdit.contentId onDisk = expected then .ok () else .error (.fileChanged path),
            state')
      else (.ok (), state) := by
  rw [checkUnchanged]
  split
  · change StateT.bind (storage.read path) _ state = _
    rw [StateT.bind]
    rcases storage.read path state with ⟨_ | onDisk, state'⟩
    · rfl
    · change (if ExactEdit.contentId onDisk = expected then
          (pure (.ok ()) : StateM σ (Except Refusal Unit))
        else pure (.error (.fileChanged path))) state' = _
      split
      · next hsame => simp only [if_pos hsame]; rfl
      · next hother => simp only [if_neg hother]; rfl
  · rfl

/-- An editor of a file writes it once, after it was looked at. -/
theorem persist_run :
    editor.persist storage text expected state =
      match editor.path with
      | none => (.ok { editor with contentId := ExactEdit.contentId text }, state)
      | some path =>
        match editor.checkUnchanged storage path expected state with
        | (.error refusal, looked) => (.error refusal, looked)
        | (.ok (), looked) =>
          match storage.write path text looked with
          | (.error error, written) => (.error (.io "write" path error.message), written)
          | (.ok (), written) =>
            (.ok { editor with contentId := ExactEdit.contentId text }, written) := by
  rw [persist]
  cases hpath : editor.path with
  | none => rfl
  | some path =>
    change StateT.bind (editor.checkUnchanged storage path expected) _ state = _
    rw [StateT.bind]
    rcases hlooked : editor.checkUnchanged storage path expected state with ⟨_ | _, looked⟩
    · simp only [hlooked]
      rfl
    · change StateT.bind (storage.write path text) _ looked = _
      rw [StateT.bind]
      simp only [hlooked]
      rcases storage.write path text looked with ⟨_ | _, written⟩
      · rfl
      · rfl

theorem commit_run :
    editor.commit storage chars state =
      match editor.persist storage (String.ofList chars) editor.contentId state with
      | (.error refusal, state') => ((.error refusal, editor), state')
      | (.ok written, state') =>
        match written.restage chars with
        | .error refusal => ((.error refusal, written), state')
        | .ok restaged => ((.ok (), restaged), state') := by
  rw [commit]
  change StateT.bind (editor.persist storage (String.ofList chars) editor.contentId) _ state = _
  rw [StateT.bind]
  rcases editor.persist storage (String.ofList chars) editor.contentId state with
    ⟨_ | written, state'⟩
  · rfl
  · change (match written.restage chars with
      | .error refusal => (pure (.error refusal, written) : StateM σ (Except Refusal Unit × Editor))
      | .ok restaged => pure (.ok (), restaged)) state' = _
    cases hrestage : written.restage chars with
    | error refusal => simp only [hrestage]; rfl
    | ok restaged => simp only [hrestage]; rfl

/-- An edit touches the storage only once it is planned. -/
theorem edit_run :
    editor.edit storage request state =
      match editor.plan request with
      | .error (.stopped fault) => ((.error (.stopped fault), editor.inPhase .validating), state)
      | .error (.refused refusal) => ((.error (.refused refusal), editor.inPhase .rejected), state)
      | .ok plan =>
        match editor.commit storage (editor.splice plan.range request.newText) state with
        | ((.error refusal, written), state') =>
          ((.error (.refused refusal), written.inPhase .rejected), state')
        | ((.ok (), edited), state') =>
          ((.ok (editReport editor.content edited.content plan request.constraint),
            edited.inPhase .applied), state') := by
  rw [edit]
  cases editor.plan request with
  | error failure =>
    cases failure with
    | stopped fault => rfl
    | refused refusal => rfl
  | ok plan =>
    change StateT.bind (editor.commit storage (editor.splice plan.range request.newText)) _ state = _
    rw [StateT.bind]
    rcases hcommit : editor.commit storage (editor.splice plan.range request.newText) state with
      ⟨⟨_ | _, written⟩, state'⟩
    · simp only [hcommit]
      rfl
    · simp only [hcommit]
      rfl

/-- A batch touches the storage only once all its requests are made in memory. -/
theorem editAll_run :
    editor.editAll storage requests state =
      if requests.isEmpty then ((.error (.refused (.input .emptyBatch)), editor), state)
      else
        match editor.planAll 1 requests with
        | .error (.stopped fault) =>
          ((.error (.stopped fault), editor.inPhase .validating), state)
        | .error (.refused refusal) =>
          ((.error (.refused refusal), editor.inPhase .rejected), state)
        | .ok warnings =>
          match stageAll (editor.inPhase .applying)
              (Transaction.start editor.source editor.contentId) 1 requests with
          | .broken staged _ (.stopped fault) => ((.error (.stopped fault), staged), state)
          | .broken staged index (.refused cause) =>
            (staged.takeBack (Transaction.start editor.source editor.contentId) index
              (.transaction index cause.message), state)
          | .done staged finished =>
            match staged.persist storage staged.content finished.contentId state with
            | (.error refusal, state') =>
              (staged.takeBack finished requests.length refusal, state')
            | (.ok written, state') =>
              ((.ok
                { success := true
                  editsApplied := finished.commit
                  linesChanged :=
                    Diff.changedLines (String.ofList finished.snapshot) written.content
                  warnings
                  error := none
                  errorKind := none }, written.inPhase .applied), state') := by
  rw [editAll]
  split
  · rfl
  · cases editor.planAll 1 requests with
    | error failure =>
      cases failure with
      | stopped fault => rfl
      | refused refusal => rfl
    | ok warnings =>
      simp only
      cases stageAll (editor.inPhase .applying)
          (Transaction.start editor.source editor.contentId) 1 requests with
      | broken staged index failure =>
        cases failure with
        | stopped fault => rfl
        | refused cause => rfl
      | done staged finished =>
        change StateT.bind (staged.persist storage staged.content finished.contentId) _ state = _
        rw [StateT.bind]
        rcases hpersist : staged.persist storage staged.content finished.contentId state with
          ⟨_ | written, state'⟩
        · simp only [hpersist]
          rfl
        · simp only [hpersist]
          rfl

end ExactEdit.Editor
