import ExactEdit.Proofs.Editor.Run
import ExactEdit.Proofs.Editor.Staging

/-! # Reachable editors

An editor comes from a text or a file and goes through calls, each of which may fail, over a
storage that may change between the calls and fail in them. Whatever happened to it, what it
derives from its text is up to date: no call changes the text without the scopes of the new text,
and a call that fails gives back a text with the scopes it was parsed to.

## Main definitions

* `Editor.Reachable` — editors that some calls lead to

## Main results

* `Editor.Reachable.isParsed` — a reachable editor is up to date with its text
-/

namespace ExactEdit.Editor

open Result

variable {σ : Type} {storage : Storage (StateM σ)} {editor written : Editor} {request : Request}
variable {requests : List Request} {state state' : σ}

/-- Editors that some calls lead to, over any storages in any states. -/
inductive Reachable : Editor → Prop
  | inMemory {parser : Parser} {language : Option Language} {chars : List Char} {editor : Editor}
      (opened : Editor.inMemory parser language chars = .ok editor) : Reachable editor
  | openFile {σ : Type} {storage : Storage (StateM σ)} {parser : Parser} {path : String}
      {language : Option Language} {state : σ} {editor : Editor}
      (opened : (Editor.openFile storage parser path language state).1 = .ok editor) :
      Reachable editor
  | withSettings {editor : Editor} (before : Reachable editor) (settings : Settings) :
      Reachable (editor.withSettings settings)
  | withChecker {editor : Editor} (before : Reachable editor) (checker : Option SnippetChecker) :
      Reachable (editor.withChecker checker)
  | validate {editor : Editor} (before : Reachable editor) (request : Request) :
      Reachable (editor.validate request).2
  | preview {editor : Editor} (before : Reachable editor) (request : Request) :
      Reachable (editor.preview request).2
  | edit {σ : Type} {editor : Editor} (before : Reachable editor) (storage : Storage (StateM σ))
      (request : Request) (state : σ) : Reachable (editor.edit storage request state).1.2
  | editAll {σ : Type} {editor : Editor} (before : Reachable editor) (storage : Storage (StateM σ))
      (requests : List Request) (state : σ) : Reachable (editor.editAll storage requests state).1.2

/-! ## Single calls -/

theorem isParsed_of_inMemory_eq_ok {parser : Parser} {language : Option Language}
    {chars : List Char} (h : inMemory parser language chars = .ok editor) : editor.IsParsed := by
  obtain ⟨scopes, hscopes, hpure⟩ := bind_eq_ok_iff.mp h
  obtain rfl := Except.ok.inj hpure
  exact ⟨rfl, hscopes⟩

theorem isParsed_of_openFile_eq_ok {parser : Parser} {path : String} {language : Option Language}
    (h : (openFile storage parser path language state).1 = .ok editor) : editor.IsParsed := by
  rw [openFile_run] at h
  split at h
  · cases h
  · obtain ⟨opened, hopened, rfl⟩ := map_eq_ok_iff.mp h
    have hparsed := isParsed_of_inMemory_eq_ok hopened
    exact ⟨hparsed.source_eq, hparsed.scopes_eq⟩

theorem IsParsed.inPhase (h : editor.IsParsed) (phase : Phase) : (editor.inPhase phase).IsParsed :=
  ⟨h.source_eq, h.scopes_eq⟩

theorem IsParsed.afterLooking {α : Type} (h : editor.IsParsed) (result : Except Failure α) :
    (editor.afterLooking result).IsParsed := by
  rcases result with (refusal | fault) | a
  · exact h.inPhase _
  · exact h.inPhase _
  · exact h.inPhase _

/-- Writing changes the content id at most. -/
theorem eq_of_persist_eq_ok {text expected : String}
    (h : editor.persist storage text expected state = (.ok written, state')) :
    written = { editor with contentId := ExactEdit.contentId text } := by
  rw [persist_run] at h
  split at h
  · obtain ⟨hwritten, -⟩ := Prod.mk.inj h
    exact (Except.ok.inj hwritten).symm
  · split at h
    · cases h
    · split at h
      · cases h
      · obtain ⟨hwritten, -⟩ := Prod.mk.inj h
        exact (Except.ok.inj hwritten).symm

theorem IsParsed.commit (h : editor.IsParsed) (storage : Storage (StateM σ)) (chars : List Char)
    (state : σ) : (editor.commit storage chars state).1.2.IsParsed := by
  rw [commit_run]
  -- If the text that was written is not parsed after all, the editor keeps the one before.
  rcases hpersist : editor.persist storage (String.ofList chars) editor.contentId state with
    ⟨refusal | written, state'⟩
  · exact h
  · obtain rfl := eq_of_persist_eq_ok hpersist
    simp only
    split
    · exact ⟨h.source_eq, h.scopes_eq⟩
    · next restaged hrestage => exact isParsed_of_restage_eq_ok hrestage

theorem IsParsed.edit (h : editor.IsParsed) (storage : Storage (StateM σ)) (request : Request)
    (state : σ) : (editor.edit storage request state).1.2.IsParsed := by
  rw [edit_run]
  split
  · exact h.inPhase _
  · exact h.inPhase _
  · next plan _ =>
    have hcommit := h.commit storage (editor.splice plan.range request.newText) state
    rcases hwritten : editor.commit storage (editor.splice plan.range request.newText) state with
      ⟨⟨_ | _, written⟩, state'⟩ <;> rw [hwritten] at hcommit
    · exact hcommit.inPhase _
    · exact hcommit.inPhase _

theorem IsParsed.takeBack (h : editor.IsParsed) (transaction : Transaction) (index : Nat)
    (refusal : Refusal) : (editor.takeBack transaction index refusal).2.IsParsed := by
  rw [Editor.takeBack]
  split
  · exact h
  · next restored hrestage => exact (isParsed_of_restage_eq_ok hrestage).inPhase _

theorem IsParsed.editAll (h : editor.IsParsed) (storage : Storage (StateM σ))
    (requests : List Request) (state : σ) : (editor.editAll storage requests state).1.2.IsParsed := by
  rw [editAll_run]
  split
  · exact h
  · split
    · exact h.inPhase _
    · exact h.inPhase _
    · split
      · next staged _ fault hbroken => exact (kept_of_stageAll_eq_broken (h.inPhase _) hbroken).1
      · next staged index cause hbroken =>
        exact (kept_of_stageAll_eq_broken (h.inPhase _) hbroken).1.takeBack _ _ _
      · next staged finished hdone =>
        have hstaged := isParsed_of_stageAll_eq_done (h.inPhase _) hdone
        rcases hpersist : staged.persist storage staged.content finished.contentId state with
          ⟨refusal | written, state'⟩
        · exact hstaged.takeBack _ _ _
        · obtain rfl := eq_of_persist_eq_ok hpersist
          exact ⟨hstaged.source_eq, hstaged.scopes_eq⟩

/-! ## Runs -/

/-- A reachable editor is up to date with its text. -/
theorem Reachable.isParsed (h : Reachable editor) : editor.IsParsed := by
  induction h with
  | inMemory opened => exact isParsed_of_inMemory_eq_ok opened
  | openFile opened => exact isParsed_of_openFile_eq_ok opened
  | withSettings _ settings ih => exact ⟨ih.source_eq, ih.scopes_eq⟩
  | withChecker _ checker ih => exact ⟨ih.source_eq, ih.scopes_eq⟩
  | validate _ request ih => exact ih.afterLooking _
  | preview _ request ih => exact ih.afterLooking _
  | edit _ storage request state ih => exact ih.edit storage request state
  | editAll _ storage requests state ih => exact ih.editAll storage requests state

/-- An editor of a text without a language, as it is opened. -/
def ofText (chars : List Char) : Editor :=
  { path := none
    language := none
    parser := fun _ _ => .error ""
    source := Source.ofChars chars
    scopes := ScopeTable.ofTree (SyntaxTree.plain (Source.ofChars chars))
    contentId := ExactEdit.contentId (Source.ofChars chars).text
    settings := .default
    previewContext := Settings.default.previewContext
    checker := none
    phase := .idle }

theorem ofText_reachable (chars : List Char) : (ofText chars).Reachable := by
  have hopened : inMemory (fun _ _ => .error "") none chars = .ok (ofText chars) := rfl
  exact .inMemory hopened

/-- An editor of the text `a b`, which no parser reads. -/
def twoWords : Editor :=
  { path := none
    language := none
    parser := fun _ _ => .error ""
    source := Source.ofChars "a b".toList
    scopes := ScopeTable.ofTree (SyntaxTree.plain (Source.ofChars "a b".toList))
    contentId := ExactEdit.contentId (Source.ofChars "a b".toList).text
    settings := .default
    previewContext := Settings.default.previewContext
    checker := none
    phase := .idle }

theorem twoWords_reachable : twoWords.Reachable := by
  have hopened : inMemory (fun _ _ => .error "") none "a b".toList = .ok twoWords := rfl
  exact .inMemory hopened

end ExactEdit.Editor
