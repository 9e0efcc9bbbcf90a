import ExactEdit.Proofs.Editor.Calls
import ExactEdit.Proofs.Editor.Verdict

/-! # Sessions

A session is an editor that was opened and is asked one thing after the other, over one storage.
Between the calls others may change the state. However the calls end, the editor stays parsed. If all
of them return, nothing that it derives from its text goes stale, and as long as nobody else changes
the file of the editor, its bytes are those of the text.

The parser has to read every text for this: a single edit whose result it rejects is already in the
file when the editor goes back to its old text. The calls have to return because a batch that stops
the program among its requests leaves a new text with the old content id.

## Main definitions

* `Editor.Opened` — an editor as it is opened, with its settings
* `Editor.Session` — where calls, and changes by others, lead from there
* `Editor.IsCurrent` — all that is derived from the text is up to date

## Main results

* `Editor.Session.keeps` — what every call keeps, a session keeps
* `Editor.Session.isCurrent`, `Editor.Session.file_eq` — the invariants of a session
* `Editor.session_up_to_date` — nothing goes stale in a session
-/

namespace ExactEdit

open Result

variable {σ : Type} {storage : Storage (StateM σ)} {others : σ → σ → Prop}
variable {editor start opened other : Editor} {state state' origin : σ} {call : Call}
variable {outcome : Call.Outcome σ} {file : σ → Option ByteArray} {path : String}

namespace Editor

/-- An editor as it is opened in a state, with its settings and its checker. -/
inductive Opened (storage : Storage (StateM σ)) : Editor → σ → Prop
  | inMemory {parser : Parser} {language : Option Language} {chars : List Char} {editor : Editor}
      {state : σ} (opened : Editor.inMemory parser language chars = .ok editor) :
      Opened storage editor state
  | openFile {parser : Parser} {path : String} {language : Option Language} {editor : Editor}
      {state state' : σ}
      (opened : Editor.openFile storage parser path language state = (.ok editor, state')) :
      Opened storage editor state'
  | withSettings {editor : Editor} {state : σ} (before : Opened storage editor state)
      (settings : Settings) : Opened storage (editor.withSettings settings) state
  | withChecker {editor : Editor} {state : σ} (before : Opened storage editor state)
      (checker : Option SnippetChecker) : Opened storage (editor.withChecker checker) state

/-- The editors and states that calls lead to from where it was opened, if they end as `ends` says,
while others change the state as `others` says. -/
inductive Session (storage : Storage (StateM σ)) (others : σ → σ → Prop)
    (ends : Call.Outcome σ → Prop) (start : Editor) (origin : σ) : Editor → σ → Prop
  | start : Session storage others ends start origin start origin
  | call {editor : Editor} {state : σ}
      (before : Session storage others ends start origin editor state)
      (call : Call) (ended : ends (call.run storage editor state)) :
      Session storage others ends start origin (call.run storage editor state).editor
        (call.run storage editor state).state
  | others {editor : Editor} {state state' : σ}
      (before : Session storage others ends start origin editor state)
      (change : others state state') : Session storage others ends start origin editor state'

/-- All that an editor derives from its text is up to date. -/
structure IsCurrent (editor : Editor) : Prop extends editor.IsParsed where
  contentId_eq : editor.contentId = ExactEdit.contentId editor.content

/-- The other editor has another text, with what is derived from it, and another phase at most. -/
def SameMeans (editor other : Editor) : Prop :=
  other = { editor with
    source := other.source
    scopes := other.scopes
    contentId := other.contentId
    phase := other.phase }

theorem SameMeans.trans {third : Editor} (h : editor.SameMeans other) (h' : other.SameMeans third) :
    editor.SameMeans third := by
  rw [SameMeans] at *
  rw [h', h]

theorem SameMeans.path_eq (h : editor.SameMeans other) : other.path = editor.path := by rw [h]

theorem SameMeans.parser_eq (h : editor.SameMeans other) : other.parser = editor.parser := by
  rw [h]

theorem SameMeans.language_eq (h : editor.SameMeans other) : other.language = editor.language := by
  rw [h]

theorem SameMeans.settings_eq (h : editor.SameMeans other) : other.settings = editor.settings := by
  rw [h]

theorem SameMeans.acceptsAll (h : editor.SameMeans other) (haccepts : editor.AcceptsAll) :
    other.AcceptsAll := by
  rw [AcceptsAll, h.parser_eq, h.language_eq]
  exact haccepts

/-! ## Opening -/

theorem isCurrent_of_inMemory_eq_ok {parser : Parser} {language : Option Language}
    {chars : List Char} (h : inMemory parser language chars = .ok editor) : editor.IsCurrent := by
  obtain ⟨scopes, hscopes, hpure⟩ := bind_eq_ok_iff.mp h
  obtain rfl := Except.ok.inj hpure
  exact ⟨⟨rfl, hscopes⟩, rfl⟩

/-- An editor of a file has the text that was read. -/
theorem openFile_eq_ok_iff {parser : Parser} {language : Option Language} :
    openFile storage parser path language state = (.ok editor, state') ↔
      ∃ text opened, storage.read path state = (.ok text, state') ∧
        inMemory parser language text.toList = .ok opened ∧
        editor = { opened with path := some path } := by
  rw [openFile_run]
  rcases storage.read path state with ⟨error | text, after⟩
  · constructor
    · rintro ⟨⟩
    · rintro ⟨_, _, ⟨⟩, -⟩
  · constructor
    · intro h
      obtain ⟨hmade, rfl⟩ := Prod.mk.inj h
      obtain ⟨opened, hopened, rfl⟩ := map_eq_ok_iff.mp hmade
      exact ⟨text, opened, rfl, hopened, rfl⟩
    · rintro ⟨_, opened, ⟨⟩, hopened, rfl⟩
      simp only [hopened]
      rfl

theorem Opened.reachable (h : Opened storage editor state) : editor.Reachable := by
  induction h with
  | inMemory opened => exact .inMemory opened
  | openFile opened => exact .openFile (congrArg Prod.fst opened)
  | withSettings _ settings ih => exact ih.withSettings settings
  | withChecker _ checker ih => exact ih.withChecker checker

theorem Opened.isCurrent (h : Opened storage editor state) : editor.IsCurrent := by
  induction h with
  | inMemory opened => exact isCurrent_of_inMemory_eq_ok opened
  | openFile opened =>
    obtain ⟨text, opened, -, hopened, rfl⟩ := openFile_eq_ok_iff.mp opened
    have hcurrent := isCurrent_of_inMemory_eq_ok hopened
    exact ⟨⟨hcurrent.source_eq, hcurrent.scopes_eq⟩, hcurrent.contentId_eq⟩
  | withSettings _ settings ih => exact ⟨⟨ih.source_eq, ih.scopes_eq⟩, ih.contentId_eq⟩
  | withChecker _ checker ih => exact ⟨⟨ih.source_eq, ih.scopes_eq⟩, ih.contentId_eq⟩

/-- The file of an editor that was just opened has its text. -/
theorem Opened.file_eq (hserves : storage.Serves path file) (h : Opened storage editor state)
    (hpath : editor.path = some path) : file state = some editor.content.toUTF8 := by
  induction h with
  | inMemory opened =>
    obtain ⟨scopes, -, hpure⟩ := bind_eq_ok_iff.mp opened
    obtain rfl := Except.ok.inj hpure
    cases hpath
  | @openFile _ place _ _ before _ opened =>
    obtain ⟨text, opened, hread, hopened, rfl⟩ := openFile_eq_ok_iff.mp opened
    obtain ⟨scopes, -, hpure⟩ := bind_eq_ok_iff.mp hopened
    obtain rfl := Except.ok.inj hpure
    obtain rfl := Option.some.inj hpath
    have hkept := hserves.read place before
    rw [hread] at hkept
    rw [hkept, hserves.readText _ _ _ hread, content, Source.text, Source.ofChars,
      String.ofList_toList]
  | withSettings _ settings ih => exact ih hpath
  | withChecker _ checker ih => exact ih hpath

end Editor

/-! ## Single calls -/

namespace Call

open Editor

theorem Effect.sameMeans (h : Effect storage editor state call outcome) :
    editor.SameMeans outcome.editor := by
  cases h with
  | looked early => rfl
  | broken batch early parsed kept =>
    rw [SameButText] at kept
    rw [SameMeans, kept]
    rfl
  | unsaved stages saving => rfl
  | made stages saving parsed => rfl
  | unparsed stages saving rejected => rfl

theorem Effect.isParsed (h : Effect storage editor state call outcome) (hparsed : editor.IsParsed) :
    outcome.editor.IsParsed := by
  cases h with
  | looked early => exact hparsed.inPhase _
  | broken batch early parsed kept => exact parsed
  | unsaved stages saving => exact hparsed.inPhase _
  | made stages saving parsed => exact ⟨rfl, parsed⟩
  | unparsed stages saving rejected => exact ⟨hparsed.source_eq, hparsed.scopes_eq⟩

/-- If every text is parsed, the content id is that of the text after a call as before. -/
theorem Effect.isCurrent (haccepts : editor.AcceptsAll)
    (h : Effect storage editor state call outcome) (hreturns : outcome.Returns)
    (hcurrent : editor.IsCurrent) : outcome.editor.IsCurrent := by
  refine ⟨h.isParsed hcurrent.toIsParsed, ?_⟩
  cases h with
  | looked early => exact hcurrent.contentId_eq
  | broken batch early parsed kept =>
    -- Here the content id is the one from before the batch, but the call did not return.
    exact absurd rfl (hreturns _)
  | unsaved stages saving => exact hcurrent.contentId_eq
  | made stages saving parsed => rfl
  | @unparsed chars _ _ _ _ _ rejected =>
    obtain ⟨scopes, hscopes⟩ := haccepts chars
    rw [hscopes] at rejected
    cases rejected

/-- If every text is parsed, the file has the text after a call as before. -/
theorem Effect.file_eq (haccepts : editor.AcceptsAll) (hserves : storage.Serves path file)
    (hpath : editor.path = some path) (h : Effect storage editor state call outcome)
    (hreturns : outcome.Returns) (hfile : file state = some editor.content.toUTF8) :
    file outcome.state = some outcome.editor.content.toUTF8 := by
  cases h with
  | looked early => exact hfile
  | broken batch early parsed kept => exact absurd rfl (hreturns _)
  | unsaved stages saving => exact (of_persist_eq_error hserves.toKeepsFiles saving).1.trans hfile
  | made stages saving parsed =>
    exact file_of_persist_eq_ok hserves hpath (by simp [hfile]) saving
  | @unparsed chars _ _ _ _ _ rejected =>
    obtain ⟨scopes, hscopes⟩ := haccepts chars
    rw [hscopes] at rejected
    cases rejected

end Call

/-! ## Sessions -/

namespace Editor

variable {ends : Call.Outcome σ → Prop}

/-- Whatever is so at the start, and is kept by every call and by what others do, is so throughout a
session. The editor stays parsed and keeps the file, the parser and the settings. -/
theorem Session.keeps (holds : Editor → σ → Prop) (hparsed : start.IsParsed)
    (h : Session storage others ends start origin editor state) (hstart : holds start origin)
    (hcall : ∀ {editor state call outcome}, editor.IsParsed → start.SameMeans editor →
      Call.Effect storage editor state call outcome → ends outcome → holds editor state →
      holds outcome.editor outcome.state)
    (hothers : ∀ {editor before after}, others before after → holds editor before →
      holds editor after) :
    editor.IsParsed ∧ start.SameMeans editor ∧ holds editor state := by
  -- The induction is on the session; that the editor is parsed is needed to know what a call does.
  induction h with
  | start => exact ⟨hparsed, rfl, hstart⟩
  | @call editor state _ call ended ih =>
    obtain ⟨hnow, hmeans, hholds⟩ := ih
    have heffect := call.effect_run hnow storage state
    exact ⟨heffect.isParsed hnow, hmeans.trans heffect.sameMeans,
      hcall hnow hmeans heffect ended hholds⟩
  | others _ change ih =>
    obtain ⟨hnow, hmeans, hholds⟩ := ih
    exact ⟨hnow, hmeans, hothers change hholds⟩

theorem Session.isParsed_and_sameMeans (hparsed : start.IsParsed)
    (h : Session storage others ends start origin editor state) :
    editor.IsParsed ∧ start.SameMeans editor := by
  obtain ⟨hnow, hmeans, -⟩ := h.keeps (fun _ _ => True) hparsed trivial
    (fun _ _ _ _ => id) (fun _ => id)
  exact ⟨hnow, hmeans⟩

theorem Session.isCurrent (hcurrent : start.IsCurrent) (haccepts : start.AcceptsAll)
    (h : Session storage others Call.Outcome.Returns start origin editor state) :
    editor.IsCurrent := by
  obtain ⟨-, -, hnow⟩ := h.keeps (fun editor _ => editor.IsCurrent)
    hcurrent.toIsParsed hcurrent
    (fun _ hmeans heffect => heffect.isCurrent (hmeans.acceptsAll haccepts)) (fun _ => id)
  exact hnow

/-- As long as nobody else changes the file, it has the text of the editor. -/
theorem Session.file_eq (hparsed : start.IsParsed) (haccepts : start.AcceptsAll)
    (hserves : storage.Serves path file) (hpath : start.path = some path)
    (hothers : ∀ before after, others before after → file after = file before)
    (hfile : file origin = some start.content.toUTF8)
    (h : Session storage others Call.Outcome.Returns start origin editor state) :
    file state = some editor.content.toUTF8 := by
  obtain ⟨-, -, hnow⟩ := h.keeps
    (fun editor state => file state = some editor.content.toUTF8) hparsed hfile
    (fun _ hmeans heffect =>
      heffect.file_eq (hmeans.acceptsAll haccepts) hserves (hmeans.path_eq.trans hpath))
    (fun change => (hothers _ _ change).trans)
  exact hnow

/-- Nothing goes stale in a session of calls that return. However they do and whatever others do in
between, the scopes are those of the parsed text, the line index and the content id are those of the
text, and the file has the bytes of the text if nobody else changes it. -/
theorem session_up_to_date (haccepts : start.AcceptsAll) (hopened : Opened storage start origin)
    (h : Session storage others Call.Outcome.Returns start origin editor state) :
    (∃ tree, SyntaxTree.parse start.parser start.language
        (Source.ofChars editor.source.chars) = .ok tree ∧
      editor.scopes = ScopeTable.ofTree tree) ∧
    editor.source.index = LineIndex.ofChars editor.source.chars ∧
    editor.contentId = ExactEdit.contentId editor.content ∧
    ∀ path file, start.path = some path → storage.Serves path file →
      (∀ before after, others before after → file after = file before) →
      file state = some editor.content.toUTF8 := by
  have hcurrent := h.isCurrent hopened.isCurrent haccepts
  obtain ⟨-, hmeans⟩ := h.isParsed_and_sameMeans hopened.isCurrent.toIsParsed
  refine ⟨?_, congrArg Source.index hcurrent.source_eq, hcurrent.contentId_eq,
    fun path file hpath hserves hothers => ?_⟩
  · have hscopes := hcurrent.scopes_eq
    rw [hcurrent.source_eq, hmeans.parser_eq, hmeans.language_eq, scopesOf] at hscopes
    split at hscopes
    · next tree htree => exact ⟨tree, htree, (Except.ok.inj hscopes).symm⟩
    · cases hscopes
  · exact h.file_eq hopened.isCurrent.toIsParsed haccepts hserves hpath hothers
      (hopened.file_eq hserves hpath)

/-! ### A session with a file

The function and the line behind it are opened from a file, and `a` is edited in the function. -/

/-- The function and the line behind it, opened from a file. -/
def functionFile : Editor := { functionFirst with path := some "f" }

/-- The edit in the function. -/
def functionEdit : Request := ⟨"a", "b", Constraint.ofScope .function "f"⟩

theorem functionFile_opened :
    Opened Disk.storage functionFile (Disk.ofFile "def f():\n  a\na") := by
  have hopened : openFile Disk.storage (fun _ _ => .ok oneFunction) "f" (some .python)
      (Disk.ofFile "def f():\n  a\na") = (.ok functionFile, Disk.ofFile "def f():\n  a\na") :=
    openFile_eq_ok_iff.mpr ⟨_, functionFirst, Disk.read_ofFile _, rfl, rfl⟩
  exact .openFile hopened

theorem exists_functionFile_edited : ∃ report edited,
    functionFile.edit Disk.storage functionEdit (Disk.ofFile "def f():\n  a\na") =
      ((.ok report, edited), Disk.ofFile "def f():\n  b\na") ∧
    edited.content = "def f():\n  b\na" := by
  have hplan : (functionFile.plan functionEdit).toOption.map (·.range) = some ⟨11, 12⟩ := by
    decide +kernel
  obtain ⟨plan, hplan, hrange⟩ := toOption_map_eq_some_iff.mp hplan
  have htext : functionFile.plannedText functionEdit plan = "def f():\n  b\na" := by
    rw [plannedText, hrange]
    decide +kernel
  have hsaving := persist_ofFile (rfl : functionFile.path = some "f") "def f():\n  a\na"
    (functionFile.plannedText functionEdit plan)
  rw [← htext]
  exact ⟨_, _, edit_eq_ok_iff.mpr ⟨plan, _, _, hplan, hsaving, rfl, rfl, rfl⟩, rfl⟩

/-- After the edit in the function its file has the new text. -/
theorem functionFile_up_to_date : functionFile.AcceptsAll ∧
    Opened Disk.storage functionFile (Disk.ofFile "def f():\n  a\na") ∧
    ∃ editor disk, Session Disk.storage (fun _ _ => False) Call.Outcome.Returns functionFile
        (Disk.ofFile "def f():\n  a\na") editor disk ∧
      editor.content = "def f():\n  b\na" ∧
      editor.contentId = ExactEdit.contentId "def f():\n  b\na" ∧
      disk.file? "f" = some "def f():\n  b\na".toUTF8 := by
  obtain ⟨report, edited, hedit, hcontent⟩ := exists_functionFile_edited
  have hsession : Session Disk.storage (fun _ _ => False) Call.Outcome.Returns functionFile
      (Disk.ofFile "def f():\n  a\na") edited (Disk.ofFile "def f():\n  b\na") := by
    have hrun : (Call.edit functionEdit).run Disk.storage functionFile
        (Disk.ofFile "def f():\n  a\na") = ⟨.ok (), edited, Disk.ofFile "def f():\n  b\na"⟩ := by
      rw [Call.run, hedit]
      rfl
    have hreturns : ((Call.edit functionEdit).run Disk.storage functionFile
        (Disk.ofFile "def f():\n  a\na")).Returns := by
      intro fault hstopped
      rw [hrun] at hstopped
      cases hstopped
    have hcall : Session Disk.storage (fun _ _ => False) Call.Outcome.Returns functionFile
        (Disk.ofFile "def f():\n  a\na") _ _ := .call .start (.edit functionEdit) hreturns
    rw [hrun] at hcall
    exact hcall
  have haccepts : functionFile.AcceptsAll := fun _ => ⟨_, rfl⟩
  obtain ⟨-, -, hid, hfile⟩ := session_up_to_date haccepts functionFile_opened hsession
  rw [hcontent] at hid hfile
  exact ⟨haccepts, functionFile_opened, edited, _, hsession, hcontent, hid,
    hfile "f" (Disk.file? "f") rfl (Disk.serves_storage "f") fun _ _ => False.elim⟩

end Editor

end ExactEdit
