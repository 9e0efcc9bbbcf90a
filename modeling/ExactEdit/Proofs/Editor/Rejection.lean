import ExactEdit.Proofs.Editor.Session

/-! # Single edits that fail

A single edit can fail while it is planned, while its text is saved, and when the parser rejects its
text. In the last case the text is already in the file and its content id is taken over, but the
editor goes back to its old text and scopes; a batch, which asks the parser before it saves, has no
such case. So a refused edit leaves everything as it was exactly if its text was not saved, or
saving it changed nothing; with a parser that reads every text it always does.

## Main results

* `Editor.edit_eq_refused_iff` — how an edit is refused
* `Editor.edit_refused_kept_iff` — when a refused edit leaves everything as it was
-/

namespace ExactEdit.Editor

open Result

variable {σ α : Type} {storage : Storage (StateM σ)} {files : σ → α} {editor edited : Editor}
variable {request : Request} {state state' : σ} {refusal : Refusal}

/-- An edit is refused without a plan, or because its text is not saved, or because its text is
rejected after it was saved. -/
theorem edit_eq_refused_iff :
    editor.edit storage request state = ((.error (.refused refusal), edited), state') ↔
    (editor.plan request = .error (.refused refusal) ∧ edited = editor.inPhase .rejected ∧
      state' = state) ∨
    (∃ plan, editor.plan request = .ok plan ∧
      editor.persist storage (editor.plannedText request plan) editor.contentId state =
        (.error refusal, state') ∧ edited = editor.inPhase .rejected) ∨
    ∃ plan written, editor.plan request = .ok plan ∧
      editor.persist storage (editor.plannedText request plan) editor.contentId state =
        (.ok written, state') ∧
      scopesOf editor.parser editor.language
        (Source.ofChars (editor.splice plan.range request.newText)) = .error refusal ∧
      edited = { editor with
        contentId := ExactEdit.contentId (editor.plannedText request plan)
        phase := .rejected } := by
  constructor
  · intro h
    rcases hplan : editor.plan request with (cause | fault) | plan
    · rw [edit_eq_of_plan_eq_refused hplan] at h
      obtain ⟨hresult, rfl⟩ := Prod.mk.inj h
      obtain ⟨hcause, rfl⟩ := Prod.mk.inj hresult
      exact .inl ⟨Except.error.inj hcause ▸ rfl, rfl, rfl⟩
    · rw [edit_run, hplan] at h
      cases h
    · rw [edit_eq_of_plan_eq_ok hplan] at h
      split at h
      · next cause after hsaving =>
        obtain ⟨hresult, rfl⟩ := Prod.mk.inj h
        obtain ⟨hcause, rfl⟩ := Prod.mk.inj hresult
        obtain rfl := Failure.refused.inj (Except.error.inj hcause)
        exact .inr (.inl ⟨plan, rfl, hsaving, rfl⟩)
      · next written after hsaving =>
        split at h
        · next cause hscopes =>
          obtain ⟨hresult, rfl⟩ := Prod.mk.inj h
          obtain ⟨hcause, rfl⟩ := Prod.mk.inj hresult
          obtain rfl := Failure.refused.inj (Except.error.inj hcause)
          exact .inr (.inr ⟨plan, written, rfl, hsaving, hscopes, rfl⟩)
        · cases h
  · rintro (⟨hplan, rfl, rfl⟩ | ⟨plan, hplan, hsaving, rfl⟩ |
      ⟨plan, written, hplan, hsaving, hrejected, rfl⟩)
    · exact edit_eq_of_plan_eq_refused hplan
    · rw [edit_eq_of_plan_eq_ok hplan]
      simp only [hsaving]
    · rw [edit_eq_of_plan_eq_ok hplan]
      simp only [hsaving, hrejected]

/-- A refused edit keeps the text and its scopes. It keeps the content id and the files, too,
exactly if its text was not saved, or saving it changed neither; this is always so if every text
is parsed. -/
theorem edit_refused_kept_iff (hstorage : storage.KeepsFiles files)
    (h : editor.edit storage request state = ((.error (.refused refusal), edited), state')) :
    (edited.source = editor.source ∧ edited.scopes = editor.scopes) ∧
    ((edited.contentId = editor.contentId ∧ files state' = files state) ↔
      ∀ plan written, editor.plan request = .ok plan →
        editor.persist storage (editor.plannedText request plan) editor.contentId state =
          (.ok written, state') →
        ExactEdit.contentId (editor.plannedText request plan) = editor.contentId ∧
          files state' = files state) ∧
    (editor.AcceptsAll → edited = editor.inPhase .rejected ∧ files state' = files state) := by
  rcases edit_eq_refused_iff.mp h with ⟨hplan, rfl, rfl⟩ | ⟨plan, hplan, hsaving, rfl⟩ |
    ⟨plan, written, hplan, hsaving, hrejected, rfl⟩
  · refine ⟨⟨rfl, rfl⟩, ⟨fun _ plan written hplanned => ?_, fun _ => ⟨rfl, rfl⟩⟩,
      fun _ => ⟨rfl, rfl⟩⟩
    rw [hplan] at hplanned
    cases hplanned
  · have hfiles := (of_persist_eq_error hstorage hsaving).1
    refine ⟨⟨rfl, rfl⟩, ⟨fun _ other written hplanned hsaved => ?_, fun _ => ⟨rfl, hfiles⟩⟩,
      fun _ => ⟨rfl, hfiles⟩⟩
    -- The text of this plan was not saved, and there is no other plan.
    obtain rfl := Except.ok.inj (hplan.symm.trans hplanned)
    rw [hsaving] at hsaved
    cases hsaved
  · refine ⟨⟨rfl, rfl⟩, ⟨fun hkept other _ hplanned _ => ?_, fun hkept => ?_⟩, fun haccepts => ?_⟩
    · obtain rfl := Except.ok.inj (hplan.symm.trans hplanned)
      exact hkept
    · exact hkept plan written hplan hsaving
    · obtain ⟨scopes, hscopes⟩ := haccepts (editor.splice plan.range request.newText)
      rw [hscopes] at hrejected
      cases hrejected

/-! ### A text that the parser rejects

The function and the line behind it are in a file, and the parser reads this text only. -/

/-- A parser that reads one text only. -/
def oneTextParser : Parser := fun _ text =>
  if text = "def f():\n  a\na" then .ok oneFunction else .error "no tree"

/-- The function and the line behind it, opened with this parser. -/
def oneTextFile : Editor :=
  { functionFile with
    parser := oneTextParser
    checker := defaultChecker oneTextParser (some .python) .default }

theorem oneTextFile_opened :
    Opened Disk.storage oneTextFile (Disk.ofFile "def f():\n  a\na") := by
  have hopened : openFile Disk.storage oneTextParser "f" (some .python)
      (Disk.ofFile "def f():\n  a\na") = (.ok oneTextFile, Disk.ofFile "def f():\n  a\na") :=
    openFile_eq_ok_iff.mpr ⟨_, { oneTextFile with path := none }, Disk.read_ofFile _, rfl, rfl⟩
  exact .openFile hopened

theorem exists_oneTextFile_refusal : ∃ refusal edited,
    oneTextFile.edit Disk.storage functionEdit (Disk.ofFile "def f():\n  a\na") =
      ((.error (.refused refusal), edited), Disk.ofFile "def f():\n  b\na") ∧
    edited.contentId = ExactEdit.contentId "def f():\n  b\na" := by
  have hplan : (oneTextFile.plan functionEdit).toOption.map (·.range) = some ⟨11, 12⟩ := by
    decide +kernel
  obtain ⟨plan, hplan, hrange⟩ := toOption_map_eq_some_iff.mp hplan
  have htext : oneTextFile.plannedText functionEdit plan = "def f():\n  b\na" := by
    rw [plannedText, hrange]
    decide +kernel
  have hsaving := persist_ofFile (rfl : oneTextFile.path = some "f") "def f():\n  a\na"
    (oneTextFile.plannedText functionEdit plan)
  have hrejected : scopesOf oneTextFile.parser oneTextFile.language
      (Source.ofChars (oneTextFile.splice plan.range functionEdit.newText)) =
        .error (.parse "no tree") := by
    rw [hrange]
    rfl
  rw [← htext]
  exact ⟨_, _, edit_eq_refused_iff.mpr (.inr (.inr ⟨plan, _, hplan, hsaving, hrejected, rfl⟩)), rfl⟩

/-- The refused edit is in the file, and the editor has its content id. -/
theorem oneTextFile_edit_left : Opened Disk.storage oneTextFile (Disk.ofFile "def f():\n  a\na") ∧
    ∃ refusal edited disk,
      oneTextFile.edit Disk.storage functionEdit (Disk.ofFile "def f():\n  a\na") =
        ((.error (.refused refusal), edited), disk) ∧
      edited.contentId ≠ oneTextFile.contentId ∧
      disk.file? "f" ≠ (Disk.ofFile "def f():\n  a\na").file? "f" := by
  obtain ⟨refusal, edited, hedit, hid⟩ := exists_oneTextFile_refusal
  refine ⟨oneTextFile_opened, refusal, edited, _, hedit, ?_, ?_⟩
  · rw [hid]
    decide +kernel
  · rw [Disk.file?_ofFile, Disk.file?_ofFile]
    intro hsame
    exact absurd (String.toByteArray_inj.mp (Option.some.inj hsame)) (by decide)

/-- So its text was saved, and saving it changed the file. -/
theorem oneTextFile_edit_saved : Disk.storage.KeepsFiles (id : Disk → Disk) ∧
    ∃ refusal edited disk plan written,
      oneTextFile.edit Disk.storage functionEdit (Disk.ofFile "def f():\n  a\na") =
        ((.error (.refused refusal), edited), disk) ∧
      edited.source = oneTextFile.source ∧ oneTextFile.plan functionEdit = .ok plan ∧
      oneTextFile.persist Disk.storage (oneTextFile.plannedText functionEdit plan)
        oneTextFile.contentId (Disk.ofFile "def f():\n  a\na") = (.ok written, disk) := by
  obtain ⟨refusal, edited, hedit, hid⟩ := exists_oneTextFile_refusal
  obtain ⟨⟨hsource, -⟩, hkept, -⟩ := edit_refused_kept_iff Disk.keepsFiles_storage hedit
  have hother : edited.contentId ≠ oneTextFile.contentId := by
    rw [hid]
    decide +kernel
  have hsaved := mt hkept.mpr fun h => hother h.1
  push Not at hsaved
  obtain ⟨plan, written, hplan, hsaving, -⟩ := hsaved
  exact ⟨Disk.keepsFiles_storage, refusal, edited, _, plan, written, hedit, hsource, hplan, hsaving⟩

end ExactEdit.Editor
