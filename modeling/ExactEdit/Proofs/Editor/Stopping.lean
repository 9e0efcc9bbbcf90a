import ExactEdit.Proofs.Editor.Run
import ExactEdit.Proofs.Editor.Showing
import ExactEdit.Storage.Disk

/-! # When the program stops

Searching, assessing, previewing and editing cut pieces out of the text: lines, occurrences, the
part of a line in front of an occurrence, and the part of a block that an occurrence takes. All of
them lie inside what they are cut from, with one exception. A block of lines ends in front of its
last terminator; an occurrence that takes in that terminator reaches behind the block, and if the
block passes the tests of a wider search text all the same, the program stops. So a request stops
the program exactly if it is ambiguous and has such an occurrence. Only a preview can stop
otherwise: it shows lines around each change, and twice their number may be no word.

## Main definitions

* `CutsInside` — the pieces that occurrences are described with lie inside the text

## Main results

* `Editor.stops_iff_hasOverhang` — what is cut out where, and when the program stops
* `Editor.not_hasOverhang_of_getLast` — it does not, unless the old text ends in a line end
-/

namespace ExactEdit

open Text Result

variable {chars before after old : List Char} {occurrence : Occurrence}

/-- The pieces of a text that its lines and its occurrences are described with lie inside it. -/
structure CutsInside (source : Source) (occurrences : List Occurrence) : Prop where
  lines : ∀ first last span, source.lineSpan first last = .ok span → Sliceable span source.chars
  ranges : ∀ occurrence ∈ occurrences, Sliceable occurrence.range source.chars
  columns : ∀ occurrence ∈ occurrences, ∃ start,
    source.index.startOfLine? occurrence.line = some start ∧
      Sliceable ⟨start, occurrence.range.start⟩ source.chars

/-- The line of an occurrence starts in front of it, at a boundary. -/
theorem Occurrence.IsAt.exists_sliceable_column (hat : occurrence.IsAt old chars before after)
    (hne : old ≠ []) : ∃ start,
      (LineIndex.ofChars chars).startOfLine? occurrence.line = some start ∧
        Sliceable ⟨start, occurrence.range.start⟩ chars := by
  have hchars : chars ≠ [] := by
    rw [hat.text]
    simp [hne]
  have hlast := hat.endLine_le hne
  rw [Source.lineCount_ofChars hchars] at hlast
  obtain ⟨front, body, back, hblock⟩ := exists_isBlock hchars hat.line_pos hat.line_le_endLine hlast
  refine ⟨width front, hblock.startOfLine?_eq, ?_, ?_, hat.sliceable.2.1⟩
  · rw [hat.range]
    exact hblock.start_le hat.text (Nat.le_of_eq hat.line)
  · exact hblock.sliceable.2.1

theorem cutsInside_of_findOccurrences {scopes : ScopeTable} {contextLines : Nat} {search : String}
    {within : Option (List Nat)} {occurrences : List Occurrence}
    (h : findOccurrences (Source.ofChars chars) scopes contextLines search within =
      .ok occurrences) : CutsInside (Source.ofChars chars) occurrences where
  lines _ _ _ hspan := Source.sliceable_of_lineSpan_eq_ok hspan
  ranges occurrence hmem := by
    obtain ⟨_, _, hat⟩ := isAt_of_mem_findOccurrences h hmem
    exact hat.sliceable
  columns occurrence hmem := by
    obtain ⟨_, _, hat⟩ := isAt_of_mem_findOccurrences h hmem
    exact hat.exists_sliceable_column
      (ne_nil_of_mem_matchOffsets (start_mem_matchOffsets_of_mem_findOccurrences h hmem))

/-- In lines that pass, an occurrence can be cut out exactly if it does not reach behind them. -/
theorem SuggestionBasis.sliceable_in_block_iff {basis : SuggestionBasis} {old : String}
    {lines : Nat × Nat} {span : ByteRange} (hsource : basis.source = Source.ofChars chars)
    (hat : occurrence.IsAt old.toList chars before after) (hfirst : lines.1 ≤ occurrence.line)
    (h : basis.Singles old lines.1 lines.2 span) :
    span.start ≤ occurrence.range.start ∧
      (Sliceable ⟨occurrence.range.start - span.start,
          occurrence.range.start - span.start + width old.toList⟩
        (slice span basis.source.chars) ↔ occurrence.range.stop ≤ span.stop) := by
  have hle := h.start_le hsource hat hfirst
  have hspan := h.lineSpan_eq
  rw [hsource] at hspan
  have hwidth := (Source.sliceable_of_lineSpan_eq_ok hspan).width_slice
  have hstop := hat.stop_eq
  refine ⟨hle, ?_, ?_⟩
  · intro hslice
    have hfits := hslice.stop_le_width
    rw [hsource, Source.chars_ofChars] at hfits
    simp only at hfits
    omega
  · intro hinside
    obtain ⟨front, back, hcut, hfront⟩ := h.exists_slice_eq hsource hat hle hinside
    exact sliceable_iff.mpr
      ⟨front, old.toList, back, hcut, by simp only; omega, by simp only; omega⟩

namespace Editor

variable {editor : Editor} {request : Request}

theorem validate_eq_stopped_iff {fault : Fault} :
    (editor.validate request).1 = .error (.stopped fault) ↔
      editor.plan request = .error (.stopped fault) :=
  plan_eq_stopped_iff.symm

theorem exists_preview_eq_stopped_iff :
    (∃ fault, (editor.preview request).1 = .error (.stopped fault)) ↔
      (∃ fault, editor.plan request = .error (.stopped fault)) ∨
        ∃ plan, editor.plan request = .ok plan ∧ Diff.Overflows editor.content
          (editor.plannedText request plan) editor.previewContext := by
  simp only [preview_eq_error_iff, exists_or, Failure.stopped.injEq]
  refine or_congr_right ?_
  constructor
  · intro ⟨_, plan, hplan, hover, _⟩
    exact ⟨plan, hplan, hover⟩
  · intro ⟨plan, hplan, hover⟩
    exact ⟨_, plan, hplan, hover, rfl⟩

/-- A search is only refused, and for no coordinate, if the lines that it shows have numbers. -/
theorem exists_refusal_of_find_eq_error {search : String} {constraint : Constraint}
    {failure : Failure} (hsource : editor.source = Source.ofChars chars)
    (hword : editor.source.lineCount + editor.settings.contextLines < UInt64.size)
    (h : editor.find search constraint = .error failure) :
    ∃ refusal, failure = .refused refusal ∧ ∀ error, refusal ≠ .position error := by
  rw [find] at h
  split at h
  · refine ⟨_, (Except.error.inj h).symm, fun error hinput => ?_⟩
    cases hinput
  · rcases bind_eq_error_iff.mp h with hresolve | ⟨within, -, hsearched⟩
    · obtain ⟨refusal, hscopes, rfl⟩ := mapError_eq_error_iff.mp hresolve
      obtain ⟨_, -, rfl⟩ := mapError_eq_error_iff.mp hscopes
      refine ⟨_, rfl, fun error hscope => ?_⟩
      cases hscope
    · rw [hsource] at hword hsearched
      obtain ⟨occurrences, hfound⟩ : ∃ occurrences, findOccurrences (Source.ofChars chars)
          editor.scopes editor.settings.contextLines search within = .ok occurrences :=
        exists_findOccurrences hword
      rw [hfound] at hsearched
      cases hsearched

/-- What is written and read on the way does not stop an edit: its plan does, or nothing. -/
theorem edit_eq_stopped_iff {σ : Type} {storage : Storage (StateM σ)} {state : σ} {fault : Fault} :
    (editor.edit storage request state).1.1 = .error (.stopped fault) ↔
      editor.plan request = .error (.stopped fault) := by
  rw [edit_run]
  -- Once there is a plan, an edit is made or refused.
  cases editor.plan request with
  | error failure =>
    cases failure with
    | stopped other => simp
    | refused refusal => simp
  | ok plan =>
    simp only
    split
    · simp
    · simp

/-- An old text that ends in neither a line feed nor a carriage return stops nothing. -/
theorem not_hasOverhang_of_getLast (hsource : editor.source = Source.ofChars chars)
    (hfeed : request.oldText.toList.getLast? ≠ some '\n')
    (hreturn : request.oldText.toList.getLast? ≠ some '\r') :
    ¬ editor.basis.HasOverhang request.oldText request.newText request.constraint := by
  rintro ⟨-, within, -, occurrences, hfound, -, occurrence, hmem, lines, hlines, hoverhang⟩
  have hsource' : editor.basis.source = Source.ofChars chars := hsource
  rw [hsource'] at hfound
  obtain ⟨_, _, hat⟩ := isAt_of_mem_findOccurrences hfound hmem
  exact SuggestionBasis.not_overhangs_of_getLast hsource' hat
    (SuggestionBasis.bounds_of_mem_blocks hlines hat.line_pos).2 hfeed hreturn hoverhang

/-- What is cut out on the way, and when the program stops. A search has an answer, and everything
it is described with lies inside the text. In a block that passes the tests of a wider search text
an occurrence lies inside exactly if it does not end behind it; suggestions stop exactly if some
occurrence does. Looking at a request and making its edit stop exactly if the suggestions for it are
needed and stop; previewing it stops also if twice the lines that it shows around a change are no
word. -/
theorem stops_iff_hasOverhang {σ : Type} (storage : Storage (StateM σ)) (editor : Editor)
    (request : Request) (state : σ) (hsource : editor.source = Source.ofChars chars)
    (hword : editor.source.lineCount + editor.settings.contextLines < UInt64.size) :
    (∀ within, ∃ occurrences, findOccurrences editor.source editor.scopes
        editor.settings.contextLines request.oldText within = .ok occurrences ∧
      CutsInside editor.source occurrences ∧
      (∀ occurrence ∈ occurrences, ∀ lines ∈ editor.basis.blocks occurrence, ∀ span,
        editor.basis.Singles request.oldText lines.1 lines.2 span →
          span.start ≤ occurrence.range.start ∧
            (Sliceable ⟨occurrence.range.start - span.start,
                occurrence.range.start - span.start + width request.oldText.toList⟩
              (slice span editor.source.chars) ↔ occurrence.range.stop ≤ span.stop)) ∧
      ((∃ fault, suggestions editor.basis request.oldText request.newText occurrences =
          .error fault) ↔
        ∃ occurrence ∈ occurrences, ∃ lines ∈ editor.basis.blocks occurrence,
          editor.basis.Overhangs request.oldText occurrence lines)) ∧
    (∀ failure, editor.find request.oldText request.constraint = .error failure →
      ∃ refusal, failure = .refused refusal ∧ ∀ error, refusal ≠ .position error) ∧
    (∀ plan, editor.plan request = .ok plan → Sliceable plan.range editor.source.chars) ∧
    ((∃ fault, (editor.validate request).1 = .error (.stopped fault)) ↔
      editor.basis.HasOverhang request.oldText request.newText request.constraint) ∧
    ((∃ fault, (editor.preview request).1 = .error (.stopped fault)) ↔
      editor.basis.HasOverhang request.oldText request.newText request.constraint ∨
        ∃ plan, editor.plan request = .ok plan ∧ Diff.Overflows editor.content
          (editor.plannedText request plan) editor.previewContext) ∧
    ((∃ fault, (editor.edit storage request state).1.1 = .error (.stopped fault)) ↔
      editor.basis.HasOverhang request.oldText request.newText request.constraint) := by
  have hbasis : editor.basis.source = Source.ofChars chars := hsource
  have hsearch : ∀ search within, ∃ occurrences, findOccurrences editor.source editor.scopes
      editor.settings.contextLines search within = .ok occurrences := by
    intro search within
    rw [hsource] at hword ⊢
    exact exists_findOccurrences hword
  have hplanned : (∃ fault, editor.plan request = .error (.stopped fault)) ↔
      editor.basis.HasOverhang request.oldText request.newText request.constraint :=
    exists_plan_eq_stopped_iff hsource hword
  refine ⟨?_, ?_, ?_, (exists_congr fun _ => validate_eq_stopped_iff).trans hplanned,
    exists_preview_eq_stopped_iff.trans (or_congr_left hplanned),
    (exists_congr fun _ => edit_eq_stopped_iff).trans hplanned⟩
  · intro within
    obtain ⟨occurrences, hfound⟩ := hsearch request.oldText within
    have hplaces := hfound
    rw [hsource] at hplaces
    refine ⟨occurrences, hfound, ?_, ?_, ?_⟩
    · rw [hsource]
      exact cutsInside_of_findOccurrences hplaces
    · intro occurrence hmem lines hlines span hsingles
      obtain ⟨_, _, hat⟩ := isAt_of_mem_findOccurrences hplaces hmem
      exact SuggestionBasis.sliceable_in_block_iff hbasis hat
        (SuggestionBasis.bounds_of_mem_blocks hlines hat.line_pos).1 hsingles
    · apply exists_suggestions_eq_error_iff hbasis
      intro occurrence hmem
      exact isAt_of_mem_findOccurrences hplaces hmem
  · intro failure hfind
    exact exists_refusal_of_find_eq_error hsource hword hfind
  · intro plan hplan
    rw [hsource]
    exact sliceable_of_plan_eq_ok hsource hplan

/-! ### An occurrence that takes in a terminator

The old text is a line with its line feed, and the text has two such lines. The block of the second
begins on the first line and ends in front of the feed of the second. It holds the old text once,
on the first line. -/

/-- An editor of the lines `x`, `x` and `y`. -/
def terminated : Editor :=
  { path := none
    language := none
    parser := fun _ _ => .error ""
    source := Source.ofChars "x\nx\ny".toList
    scopes := ⟨[]⟩
    contentId := ""
    settings := .default
    previewContext := 0
    checker := none
    phase := .idle }

/-- The program stops at the second line. -/
theorem suggestions_terminated_eq_error : ∃ occurrences,
    findOccurrences terminated.source terminated.scopes terminated.settings.contextLines "x\n"
      none = .ok occurrences ∧
    suggestions terminated.basis "x\n" "z\n" occurrences = .error .sliceOutOfRange := by
  have hrun : (findOccurrences terminated.source terminated.scopes
      terminated.settings.contextLines "x\n" none).map
        (suggestions terminated.basis "x\n" "z\n") = .ok (.error .sliceOutOfRange) := by
    decide +kernel
  obtain ⟨occurrences, hfound, hstopped⟩ := map_eq_ok_iff.mp hrun
  exact ⟨occurrences, hfound, hstopped⟩

/-- Assessing the edit stops exactly at an overhang, here as elsewhere. -/
theorem terminated_stops_iff :
    terminated.source.lineCount + terminated.settings.contextLines < UInt64.size ∧
      ((∃ fault, (terminated.validate ⟨"x\n", "z\n", .default⟩).1 = .error (.stopped fault)) ↔
        terminated.basis.HasOverhang "x\n" "z\n" .default) := by
  have hword : terminated.source.lineCount + terminated.settings.contextLines < UInt64.size := by
    decide +kernel
  exact ⟨hword, (stops_iff_hasOverhang Disk.storage terminated ⟨"x\n", "z\n", .default⟩ Disk.empty
    rfl hword).2.2.2.1⟩

end Editor

end ExactEdit
