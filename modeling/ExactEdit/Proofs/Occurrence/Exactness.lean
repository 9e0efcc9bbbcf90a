import ExactEdit.Proofs.Occurrence
import ExactEdit.Proofs.Text.Encoding

/-! # What a search tells

A search tells a reader who has only the bytes of the text everything about its matches: the bytes
they take, the lines of the first and of the last of these, and the text of the lines around. All
of it is said here in terms of the bytes and the lines of the text, without the look-ups that it
comes from. Filters take occurrences away and change nothing about those that they leave.

## Main definitions

* `IsLines` — the text of a run of lines
* `Occurrence.IsExact` — an occurrence is what the text says at its place

## Main results

* `isExact_of_mem_findOccurrences` — all that is found is what the text says
* `findOccurrences_of_none` — what is found in some scopes
* `search_exact` — a search has an answer, which is the leftmost matches of the bytes
-/

namespace ExactEdit

open Text Result

variable {chars : List Char} {source : Source} {scopes : ScopeTable} {contextLines : Nat}
variable {search text : String} {within : Option (List Nat)} {range : ByteRange}
variable {occurrence : Occurrence} {occurrences : List Occurrence}

/-- The lines `first` to `last` of a text, without the terminator of the last. -/
def IsLines (chars : List Char) (first last : Nat) (lines : List Char) : Prop :=
  ∃ before after, IsBlock chars first last before lines after

/-- An occurrence is what the text says at its place: its bytes are whole characters and those of
the search text, its lines are those of the first and of the last of these bytes, and it shows the
first of its lines and the lines around it. -/
structure Occurrence.IsExact (occurrence : Occurrence) (search chars : List Char)
    (contextLines : Nat) : Prop where
  sliceable : Sliceable occurrence.range chars
  slice_eq : slice occurrence.range chars = search
  line_eq : occurrence.line = lineOfByte (bytes chars) occurrence.range.start
  endLine_eq : occurrence.endLine = lineOfByte (bytes chars) (occurrence.range.stop - 1)
  position_eq : (Source.ofChars chars).positionOf occurrence.range.start =
    .ok ⟨occurrence.line, occurrence.column⟩
  lineText : IsLines chars occurrence.line occurrence.line occurrence.lineText.toList
  surroundingContext : IsLines chars (max 1 (occurrence.line - contextLines))
    (min (Source.ofChars chars).lineCount (occurrence.endLine + contextLines))
    occurrence.surroundingContext.toList

/-! ## Under other filters -/

/-- Scopes only take an occurrence away. -/
theorem occurrenceAt_of_none {found : Option Occurrence} (within : Option (List Nat))
    (h : occurrenceAt source scopes contextLines none range = .ok found) :
    occurrenceAt source scopes contextLines within range =
      .ok (found.filter fun occurrence =>
        scopes.allowsLines within occurrence.line occurrence.endLine) := by
  obtain ⟨line, endLine, hline, hendLine, hfound⟩ := occurrenceAt_eq_ok_iff.mp h
  rw [if_pos (show scopes.allowsLines none line endLine = true from rfl)] at hfound
  obtain ⟨position, lineText, context, hposition, hlineText, hcontext, rfl⟩ := hfound
  -- Both ask the scopes about the same lines, one before and one after the other look-ups.
  refine occurrenceAt_eq_ok_iff.mpr ⟨line, endLine, hline, hendLine, ?_⟩
  rw [Option.filter_some]
  by_cases hallows : scopes.allowsLines within line endLine = true
  · rw [if_pos hallows, if_pos hallows]
    exact ⟨position, lineText, context, hposition, hlineText, hcontext, rfl⟩
  · rw [if_neg hallows, if_neg hallows]

/-- What is found in some scopes is what is found without them, less what is on no line of them. -/
theorem findOccurrences_of_none (within : Option (List Nat))
    (h : findOccurrences source scopes contextLines search none = .ok occurrences) :
    findOccurrences source scopes contextLines search within =
      .ok (occurrences.filter fun occurrence =>
        scopes.allowsLines within occurrence.line occurrence.endLine) :=
  filterMapM_filter h fun _ _ hfound => occurrenceAt_of_none within hfound

/-! ## What is found -/

/-- The column of an occurrence found is that of its first byte, which is on its line. -/
theorem positionOf_of_mem_findOccurrences
    (h : findOccurrences (Source.ofChars chars) scopes contextLines search within =
      .ok occurrences) (hmem : occurrence ∈ occurrences) :
    (Source.ofChars chars).positionOf occurrence.range.start =
      .ok ⟨occurrence.line, occurrence.column⟩ := by
  have hne := ne_nil_of_mem_matchOffsets (start_mem_matchOffsets_of_mem_findOccurrences h hmem)
  obtain ⟨start, -, hlookup⟩ := exists_of_filterMapM_eq_ok h hmem
  obtain ⟨before, after, hat⟩ := isAt_of_mem_findOccurrences h hmem
  have hread := (occurrenceAt_eq_some_iff.mp hlookup).1
  obtain ⟨line, hposition⟩ := hread.position_eq
  have hchars : before ++ (search.toList ++ after) ≠ [] := by simp [hne]
  obtain ⟨_, content, -, -, -, hcolumn⟩ := Source.positionOf_append hchars
  rw [← hread.range_eq, hat.range, hat.text, hcolumn] at hposition
  obtain ⟨-, hcontent⟩ := Position.mk.inj (Except.ok.inj hposition)
  rw [hat.line, hat.range, hat.text, hcolumn, hcontent]

/-- All that is found is what the text says at its place. -/
theorem isExact_of_mem_findOccurrences
    (h : findOccurrences (Source.ofChars chars) scopes contextLines search within =
      .ok occurrences) (hmem : occurrence ∈ occurrences) :
    occurrence.IsExact search.toList chars contextLines := by
  have hne := ne_nil_of_mem_matchOffsets (start_mem_matchOffsets_of_mem_findOccurrences h hmem)
  obtain ⟨start, -, hlookup⟩ := exists_of_filterMapM_eq_ok h hmem
  obtain ⟨before, after, hat⟩ := isAt_of_mem_findOccurrences h hmem
  have hread := (occurrenceAt_eq_some_iff.mp hlookup).1
  obtain ⟨-, hcontext⟩ := Source.window_eq_ok_iff.mp hread.context_eq
  rw [Nat.max_comm, Nat.min_comm] at hcontext
  -- The text is cut around the match, and the last character of that is named.
  obtain ⟨init, c, hsearch⟩ := (List.eq_nil_or_concat' search.toList).resolve_left hne
  have hlast : chars = (before ++ init) ++ c :: after := by
    rw [hat.text, hsearch]
    simp
  have hlastByte : occurrence.range.stop - 1 = width (before ++ init) + c.utf8Size - 1 := by
    simp only [hat.range, hsearch, width_append, width_cons, width_nil]
    omega
  refine ⟨hat.sliceable, ?_, ?_, ?_, positionOf_of_mem_findOccurrences h hmem,
    Source.lines_eq_ok_iff.mp hread.lineText_eq, Source.lines_eq_ok_iff.mp hcontext⟩
  · rw [hat.range]
    exact (hat.text ▸ standsAt_append before search.toList after).slice_eq
  · rw [hat.line, hat.range, hat.text, lineOfByte_front]
  · rw [hat.endLine, hsearch, List.dropLast_concat, hlastByte, hlast, lineOfByte_last]

/-- A search has an answer, whatever the text. Without scopes it finds the leftmost matches that a
comparison of bytes finds, and in some scopes the same occurrences, less those that are not on the
lines of one of them. Each occurrence is what the text says at its place. -/
theorem search_exact (text search : String) (scopes : ScopeTable) (contextLines : Nat)
    (hsearch : search ≠ "")
    (hword : (Source.ofString text).lineCount + contextLines < UInt64.size) :
    ∃ occurrences, findOccurrences (Source.ofString text) scopes contextLines search none =
        .ok occurrences ∧
      LeftmostBytes search.toUTF8.data.toList text.toUTF8.data.toList 0
        (occurrences.map (·.range.start)) ∧
      (∀ occurrence ∈ occurrences, occurrence.IsExact search.toList text.toList contextLines) ∧
      ∀ ids, findOccurrences (Source.ofString text) scopes contextLines search (some ids) =
        .ok (occurrences.filter fun occurrence =>
          ids.any fun id => scopes.containsLines id occurrence.line occurrence.endLine) := by
  obtain ⟨occurrences, hfound⟩ : ∃ occurrences, findOccurrences (Source.ofChars text.toList) scopes
      contextLines search none = .ok occurrences := exists_findOccurrences hword
  refine ⟨occurrences, hfound, ?_, ?_, ?_⟩
  · have hne : search.toList ≠ [] := by simpa using hsearch
    rw [toList_data_toUTF8, toList_data_toUTF8, leftmostBytes_iff hne,
      starts_of_findOccurrences_none hfound]
    exact matchOffsets_leftmost hne text.toList
  · intro occurrence hmem
    exact isExact_of_mem_findOccurrences hfound hmem
  · intro ids
    exact findOccurrences_of_none (some ids) hfound

/-- Both lines of the text below end with a return and a feed, and the search text has a character
of two bytes. -/
theorem search_twoLines_exact : "é" ≠ "" ∧
    (Source.ofString "aé\r\nééé\r\n").lineCount + 1 < UInt64.size ∧
    ∃ occurrences, findOccurrences (Source.ofString "aé\r\nééé\r\n") ⟨[]⟩ 1 "é" none =
        .ok occurrences ∧
      LeftmostBytes "é".toUTF8.data.toList "aé\r\nééé\r\n".toUTF8.data.toList 0
        (occurrences.map (·.range.start)) := by
  have hword : (Source.ofString "aé\r\nééé\r\n").lineCount + 1 < UInt64.size := by
    decide +kernel
  obtain ⟨occurrences, hfound, hmatches, -⟩ :=
    search_exact "aé\r\nééé\r\n" "é" ⟨[]⟩ 1 (by decide) hword
  exact ⟨by decide, hword, occurrences, hfound, hmatches⟩

end ExactEdit
