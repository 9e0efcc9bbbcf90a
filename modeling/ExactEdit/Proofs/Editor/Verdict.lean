import ExactEdit.Proofs.Editor.Making
import ExactEdit.Proofs.Editor.Objection
import ExactEdit.Proofs.Scope.Lines

/-! # What becomes of a single edit

An edit of a text in memory ends in one of two ways. If something speaks against it, it is refused
for the first objection, and the editor holds what it held before. Otherwise the old text is
replaced at its first place. Nothing else changes; in particular, an edit with filters leaves alone
what is in front of the lines of a scope that they select, and what is behind these lines.

## Main definitions

* `Editor.MadeAt` — the text after an edit

## Main results

* `Editor.exists_madeAt` — carrying out a plan replaces the first place of the old text
* `Editor.edit_verdict` — which of the two ways an edit ends in
-/

namespace ExactEdit.Editor

open Text Result

variable {σ : Type} {editor edited : Editor} {request : Request} {plan : Plan}

/-- The old text of a request was replaced at the byte `start`, the first of its places within the
scopes that the filters select, and nothing else. -/
structure MadeAt (editor edited : Editor) (request : Request) (start : Nat) : Prop where
  first : ∃ within, editor.scopes.resolve request.constraint = .ok within ∧
    start ∈ editor.places request within ∧ ∀ place ∈ editor.places request within, start ≤ place
  old : slice ⟨start, start + width request.oldText.toList⟩ editor.source.chars =
    request.oldText.toList
  text : edited.source.chars = takeBytes start editor.source.chars ++
    (request.newText.toList ++
      dropBytes (start + width request.oldText.toList) editor.source.chars)
  frame : request.constraint.filters ≠ [] →
    ∃ ids, editor.scopes.resolve request.constraint = .ok (some ids) ∧
      ∃ id ∈ ids, ∃ scope, editor.scopes.get? id = some scope ∧ ∃ front back middle,
        editor.source.index.startOfLine? scope.startLine = some front ∧
        editor.source.index.endWithTerminator? scope.endLine = some back ∧
        edited.source.chars = takeBytes front editor.source.chars ++
          (middle ++ dropBytes back editor.source.chars)

/-- A place that is listed first is the first. -/
theorem le_of_head?_places {within : Option (List Nat)} {start place : Nat}
    (hfirst : (editor.places request within).head? = some start)
    (hplace : place ∈ editor.places request within) : start ≤ place := by
  obtain ⟨rest, hplaces⟩ := List.head?_eq_some_iff.mp hfirst
  have hsorted := pairwise_places editor request within
  rw [hplaces] at hplace hsorted
  rcases List.mem_cons.mp hplace with rfl | hrest
  · exact Nat.le_refl _
  · exact Nat.le_of_lt ((List.pairwise_cons.mp hsorted).1 place hrest)

/-- With filters, a plan leaves alone what is not on the lines of a scope that they select. -/
theorem exists_frame_of_plan_eq_ok (hparsed : editor.IsParsed)
    (hplan : editor.plan request = .ok plan) (hfilters : request.constraint.filters ≠ []) :
    ∃ ids, editor.scopes.resolve request.constraint = .ok (some ids) ∧
      ∃ id ∈ ids, ∃ scope, editor.scopes.get? id = some scope ∧ ∃ front back middle,
        editor.source.index.startOfLine? scope.startLine = some front ∧
        editor.source.index.endWithTerminator? scope.endLine = some back ∧
        Text.splice plan.range request.newText.toList editor.source.chars =
          takeBytes front editor.source.chars ++
            (middle ++ dropBytes back editor.source.chars) := by
  obtain ⟨within, occurrences, target, hwithin, hfound, hfirst, htarget, -⟩ := of_plan_eq_ok hplan
  cases within with
  | none => exact absurd hwithin (ScopeTable.resolve_ne_none_of_filters hfilters)
  | some ids =>
    rw [hparsed.source_eq] at hfound
    -- The occurrence that was planned is on the lines of one of the scopes.
    have hmem := List.mem_of_head? hfirst
    obtain ⟨_, _, hat⟩ := isAt_of_mem_findOccurrences hfound hmem
    obtain ⟨id, hid, scope, hscope, hcontains⟩ :=
      ScopeTable.allowsLines_some_iff.mp (allowsLines_of_mem_findOccurrences hfound hmem)
    have hlines := hasLines_of_scopesOf_eq_ok hparsed.scopes_eq (List.mem_of_getElem? hscope)
    rw [hparsed.source_eq] at hlines
    obtain ⟨front, back, middle, hfront, hback, hmiddle⟩ :=
      hat.exists_splice_eq_of_containsLines (oldText_ne_nil_of_plan_eq_ok hparsed.source_eq hplan)
        request.newText.toList hlines hcontains
    refine ⟨ids, hwithin, id, hid, scope, hscope, front, back, middle, ?_, ?_, ?_⟩
    · rw [hparsed.source_eq]
      exact hfront
    · rw [hparsed.source_eq]
      exact hback
    · rw [htarget]
      exact hmiddle

/-- Carrying out a plan replaces the first place of the old text. -/
theorem exists_madeAt (hparsed : editor.IsParsed) (hplan : editor.plan request = .ok plan)
    (hsource : edited.source = Source.ofChars (editor.splice plan.range request.newText)) :
    editor.MadeAt edited request plan.range.start := by
  obtain ⟨hstands, hstop⟩ := standsAt_of_plan_eq_ok hparsed.source_eq hplan
  obtain ⟨within, hwithin, hfirst⟩ := head?_places_of_plan_eq_ok hparsed.source_eq hplan
  have hrange : plan.range =
      ⟨plan.range.start, plan.range.start + width request.oldText.toList⟩ := by
    rw [← hstop]
  have htext : edited.source.chars =
      Text.splice plan.range request.newText.toList editor.source.chars := by
    rw [hsource, Source.chars_ofChars, splice]
  exact {
    first := ⟨within, hwithin, List.mem_of_head? hfirst, fun _ => le_of_head?_places hfirst⟩
    old := hstands.slice_eq
    text := by rw [htext, hrange, Text.splice]
    frame := fun hfilters => htext ▸ exists_frame_of_plan_eq_ok hparsed hplan hfilters }

/-- An edit of a text in memory that comes to an end is refused for the first objection that applies
to it, and then changes neither text nor scopes nor content id; or there is no objection, and the
first place of the old text is replaced. Line numbers are words, so the lines of the text and the
lines of context must not overflow one together; no text that is held in memory has as many. -/
theorem edit_verdict (storage : Storage (StateM σ)) (request : Request) (state : σ)
    (hreachable : editor.Reachable) (hpath : editor.path = none) (haccepts : editor.AcceptsAll)
    (hword : editor.source.lineCount + editor.settings.contextLines < UInt64.size)
    (hreturns : ∀ fault, (editor.edit storage request state).1.1 ≠ .error (.stopped fault)) :
    (∃ objection : Objection, objection.IsFirst editor request ∧ ∃ refusal after,
      objection.Raises editor request refusal ∧
      editor.edit storage request state = ((.error (.refused refusal), after), state) ∧
      after.content = editor.content ∧ after.scopes = editor.scopes ∧
      after.contentId = editor.contentId) ∨
    (∀ objection : Objection, ¬ objection.Applies editor request) ∧ ∃ report after start,
      editor.edit storage request state = ((.ok report, after), state) ∧
      editor.MadeAt after request start := by
  have hparsed := hreachable.isParsed
  -- An edit stops where its plan does, so the plan comes to an end too.
  have hplans : ∀ fault, editor.plan request ≠ .error (.stopped fault) :=
    fun fault hstopped => hreturns fault (edit_eq_stopped_iff.mpr hstopped)
  rcases Objection.exists_isFirst_or editor request with ⟨objection, hfirst⟩ | hnone
  · obtain ⟨refusal, hraises, hplan⟩ := plan_eq_of_isFirst hparsed.source_eq hword hplans hfirst
    exact .inl ⟨objection, hfirst, refusal, _, hraises, edit_eq_of_plan_eq_refused hplan,
      rfl, rfl, rfl⟩
  · obtain ⟨plan, hplan⟩ := exists_plan_of_unopposed hparsed.source_eq hword hplans hnone
    obtain ⟨report, after, hedit, hsource⟩ :=
      exists_edit_of_plan_eq_ok storage state hpath haccepts hplan
    exact .inr ⟨hnone, report, after, _, hedit, exists_madeAt hparsed hplan hsource⟩

/-! ### An edit in a function

The text below has a function on its first two lines, and `a` stands in it and behind it. Without a
filter an edit of `a` would be refused; with the function as filter it is made. -/

/-- A tree with a function named by the byte 4. -/
def oneFunction : ParseTree :=
  .node ⟨"module", true, false, false, false, ⟨0, 14⟩, none⟩
    [.node ⟨"function_definition", true, false, false, false, ⟨0, 12⟩, none⟩
      [.node ⟨"identifier", true, false, false, false, ⟨4, 5⟩, some .name⟩ []]]

/-- An editor of a function and a line behind it, with a parser that finds the function in any
text. -/
def functionFirst : Editor :=
  { path := none
    language := some .python
    parser := fun _ _ => .ok oneFunction
    source := Source.ofChars "def f():\n  a\na".toList
    scopes := ScopeTable.ofTree
      (SyntaxTree.ofParse .python (Source.ofChars "def f():\n  a\na".toList) oneFunction)
    contentId := ExactEdit.contentId (Source.ofChars "def f():\n  a\na".toList).text
    settings := .default
    previewContext := Settings.default.previewContext
    checker := defaultChecker (fun _ _ => .ok oneFunction) (some .python) .default
    phase := .idle }

theorem functionFirst_reachable : functionFirst.Reachable := by
  have hopened : inMemory (fun _ _ => .ok oneFunction) (some .python)
      "def f():\n  a\na".toList = .ok functionFirst := rfl
  exact .inMemory hopened

theorem functionFirst_acceptsAll : functionFirst.AcceptsAll := fun _ => ⟨_, rfl⟩

/-- The edit in the function is made. -/
theorem functionFirst_edit_made : functionFirst.path = none ∧ ∃ report after start,
    functionFirst.edit Disk.storage ⟨"a", "b", Constraint.ofScope .function "f"⟩ Disk.empty =
      ((.ok report, after), Disk.empty) ∧
    functionFirst.MadeAt after ⟨"a", "b", Constraint.ofScope .function "f"⟩ start := by
  have hmade : (functionFirst.edit Disk.storage ⟨"a", "b", Constraint.ofScope .function "f"⟩
      Disk.empty).1.1.toOption.isSome = true := by
    decide +kernel
  refine ⟨rfl, ?_⟩
  rcases edit_verdict Disk.storage ⟨"a", "b", Constraint.ofScope .function "f"⟩ Disk.empty
      functionFirst_reachable rfl functionFirst_acceptsAll (by decide +kernel)
      (edit_ne_stopped_of_getLast functionFirst_reachable.isParsed.source_eq (by decide +kernel)
        (by decide) (by decide))
    with ⟨_, -, refusal, after, -, hrefused, -⟩ | ⟨-, report, after, start, hedit, hmadeAt⟩
  · rw [hrefused] at hmade
    cases hmade
  · exact ⟨report, after, start, hedit, hmadeAt⟩

end ExactEdit.Editor
