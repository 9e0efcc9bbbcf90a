import ExactEdit.Occurrence
import ExactEdit.Proofs.Result
import ExactEdit.Proofs.Source.Span
import ExactEdit.Proofs.Text.Match

/-! # Where occurrences are

An occurrence tells lines, a column and a context, all of them looked up in the source by its byte
range. The range of a match is a piece of the text, so none of these lookups fails, and the lines
are told by the line feeds in front of the match and inside it. A search therefore always has an
answer, with an occurrence for every match that the scopes allow.

## Main definitions

* `Occurrence.IsAt` — where an occurrence is in its text, and what follows for its lines
* `allowsMatch` — whether the scopes allow the lines of a match
* `Text.lineAt` — the line that a place is on

## Main results

* `of_occurrenceAt_eq_ok` — an occurrence is where it was looked for, if the scopes allow it
* `exists_findOccurrences` — a search has an answer, if no line number overflows
* `starts_of_findOccurrences` — it finds the matches that the scopes allow
* `isAt_of_mem_findOccurrences` — every occurrence found is a place of the search text
* `apart_of_mem_findOccurrences` — no two of them overlap
* `mem_findOccurrences_iff` — the filters decide what is kept, and nothing else about it
* `lines_of_findOccurrences` — their lines are those of the places found
-/

namespace ExactEdit

open Text Result

variable {chars old before after : List Char} {scopes : ScopeTable} {contextLines : Nat}
variable {within : Option (List Nat)} {occurrence : Occurrence}

/-- The occurrence of `old` between the two sides of a text. Its lines are those of its first and
of its last byte. -/
structure Occurrence.IsAt (occurrence : Occurrence) (old chars before after : List Char) :
    Prop where
  text : chars = before ++ (old ++ after)
  range : occurrence.range = ⟨width before, width before + width old⟩
  line : occurrence.line = before.count '\n' + 1
  endLine : occurrence.endLine = (before ++ old.dropLast).count '\n' + 1

namespace Occurrence.IsAt

variable (h : occurrence.IsAt old chars before after)
include h

theorem standsAt : StandsAt old occurrence.range.start chars := by
  rw [h.range]
  exact ⟨before, after, h.text, rfl⟩

theorem stop_eq : occurrence.range.stop = occurrence.range.start + width old := by
  rw [h.range]

theorem sliceable : Sliceable occurrence.range chars := by
  rw [h.range]
  exact sliceable_iff.mpr ⟨before, old, after, h.text, rfl, rfl⟩

theorem line_pos : 1 ≤ occurrence.line := by
  rw [h.line]
  omega

theorem line_le_endLine : occurrence.line ≤ occurrence.endLine := by
  rw [h.line, h.endLine, List.count_append]
  omega

theorem endLine_le (hne : old ≠ []) :
    occurrence.endLine ≤ (Source.ofChars chars).lineCount := by
  have hchars : chars ≠ [] := by
    rw [h.text]
    simp [hne]
  have hlast : old.dropLast.count '\n' ≤ old.count '\n' :=
    (List.dropLast_sublist old).count_le '\n'
  rw [Source.lineCount_ofChars hchars, h.endLine, h.text, List.count_append, List.count_append,
    List.count_append]
  omega

end Occurrence.IsAt

/-! ## Looking up a match -/

theorem lineOfOffset_start (hne : old ≠ []) (before after : List Char) :
    (Source.ofChars (before ++ (old ++ after))).lineOfOffset (width before) =
      .ok (before.count '\n' + 1) :=
  Source.lineOfOffset_append (by simp [hne])

theorem lineOfOffset_stop (hne : old ≠ []) (before after : List Char) :
    (Source.ofChars (before ++ (old ++ after))).lineOfOffset (width before + width old - 1) =
      .ok ((before ++ old.dropLast).count '\n' + 1) := by
  obtain ⟨init, c, rfl⟩ := (List.eq_nil_or_concat' old).resolve_left hne
  have h := Source.lineOfOffset_last (before ++ init) c after
  rw [List.dropLast_concat, show before ++ (init ++ [c] ++ after) = before ++ init ++ c :: after by
    simp]
  rw [show width before + width (init ++ [c]) - 1 = width (before ++ init) + c.utf8Size - 1 by
    simp [Nat.add_assoc]]
  exact h

/-- What is looked up for a byte range: its lines first, and if the scopes allow these, all that
makes an occurrence. -/
theorem occurrenceAt_eq_ok_iff {source : Source} {range : ByteRange} {found : Option Occurrence} :
    occurrenceAt source scopes contextLines within range = .ok found ↔
      ∃ line endLine, source.lineOfOffset range.start = .ok line ∧
        source.lineOfOffset (range.stop - 1) = .ok endLine ∧
        if scopes.allowsLines within line endLine then
          ∃ position lineText context, source.positionOf range.start = .ok position ∧
            source.line line = .ok lineText ∧
            source.window line endLine contextLines = .ok context ∧
            found = some
              { line
                column := position.column
                endLine
                range
                lineText := String.ofList lineText
                scope := scopes.innermost? line endLine range
                enclosingScope := (scopes.innermost? line endLine range).map scopes.qualifiedName
                surroundingContext := String.ofList context }
        else found = none := by
  simp only [occurrenceAt, bind_eq_ok_iff, mapError_eq_ok_iff]
  refine exists_congr fun line => ?_
  rw [← exists_and_left]
  refine exists_congr fun endLine => and_congr_right fun _ => and_congr_right fun _ => ?_
  split
  · simp only [bind_eq_ok_iff, mapError_eq_ok_iff, exists_and_left, pure_eq_ok_iff]
  · rw [pure_eq_ok_iff]

/-- What looking up a match comes to: an occurrence there if the scopes allow its lines, else
none. -/
theorem of_occurrenceAt_eq_ok (hne : old ≠ []) {found : Option Occurrence}
    (h : occurrenceAt (Source.ofChars (before ++ (old ++ after))) scopes contextLines within
      ⟨width before, width before + width old⟩ = .ok found) :
    if scopes.allowsLines within (before.count '\n' + 1) ((before ++ old.dropLast).count '\n' + 1)
    then ∃ occurrence, found = some occurrence ∧
      occurrence.IsAt old (before ++ (old ++ after)) before after
    else found = none := by
  obtain ⟨line, endLine, hline, hendLine, hfound⟩ := occurrenceAt_eq_ok_iff.mp h
  -- The lines looked up are those of the statement, so the scopes are asked about these.
  obtain rfl := Except.ok.inj ((lineOfOffset_start hne before after).symm.trans hline)
  obtain rfl := Except.ok.inj ((lineOfOffset_stop hne before after).symm.trans hendLine)
  split at hfound
  · next hallows =>
    obtain ⟨position, lineText, context, -, -, -, rfl⟩ := hfound
    rw [if_pos hallows]
    exact ⟨_, rfl, rfl, rfl, rfl, rfl⟩
  · next hforbidden =>
    rw [if_neg hforbidden]
    exact hfound

/-- Whether the scopes allow the lines of a match. -/
def allowsMatch (scopes : ScopeTable) (within : Option (List Nat)) (old chars : List Char)
    (start : Nat) : Bool :=
  scopes.allowsLines within ((takeBytes start chars).count '\n' + 1)
    ((takeBytes (start + width old) chars).dropLast.count '\n' + 1)

theorem allowsMatch_append (hne : old ≠ []) (before after : List Char) :
    allowsMatch scopes within old (before ++ (old ++ after)) (width before) =
      scopes.allowsLines within (before.count '\n' + 1)
        ((before ++ old.dropLast).count '\n' + 1) := by
  have hstop : takeBytes (width before + width old) (before ++ (old ++ after)) = before ++ old := by
    rw [← width_append, ← List.append_assoc, takeBytes_append]
  rw [allowsMatch, takeBytes_append, hstop, List.dropLast_append_of_ne_nil hne]

/-- The lines of an occurrence are those of its match. -/
theorem Occurrence.IsAt.allowsMatch_eq (h : occurrence.IsAt old chars before after)
    (hne : old ≠ []) : allowsMatch scopes within old chars occurrence.range.start =
      scopes.allowsLines within occurrence.line occurrence.endLine := by
  rw [h.range, h.text, h.line, h.endLine]
  exact allowsMatch_append hne before after

/-- A match has an occurrence exactly if the scopes allow its lines. -/
theorem map_start_of_occurrenceAt (hne : old ≠ []) {found : Option Occurrence}
    (h : occurrenceAt (Source.ofChars (before ++ (old ++ after))) scopes contextLines within
      ⟨width before, width before + width old⟩ = .ok found) :
    found.map (·.range.start) =
      if allowsMatch scopes within old (before ++ (old ++ after)) (width before) then
        some (width before) else none := by
  have hfound := of_occurrenceAt_eq_ok hne h
  rw [allowsMatch_append hne]
  split at hfound
  · next hallows =>
    obtain ⟨occurrence, rfl, hat⟩ := hfound
    rw [if_pos hallows, Option.map_some, hat.range]
  · next hforbidden => rw [if_neg hforbidden, hfound, Option.map_none]

/-- Looking up a match has an answer, if the last line of its context has a number at all. -/
theorem exists_occurrenceAt (hne : old ≠ []) (before after : List Char)
    (hword : (Source.ofChars (before ++ (old ++ after))).lineCount + contextLines < UInt64.size) :
    ∃ found, occurrenceAt (Source.ofChars (before ++ (old ++ after))) scopes contextLines within
      ⟨width before, width before + width old⟩ = .ok found := by
  have hchars : before ++ (old ++ after) ≠ [] := by simp [hne]
  have hlast : (before ++ old.dropLast).count '\n' ≤ (before ++ (old ++ after)).count '\n' := by
    have := (List.dropLast_sublist old).count_le '\n'
    rw [List.count_append, List.count_append, List.count_append]
    omega
  have hfirst : before.count '\n' ≤ (before ++ old.dropLast).count '\n' := by
    rw [List.count_append]
    omega
  have hcount := Source.lineCount_ofChars hchars
  obtain ⟨_, _, -, -, -, hposition⟩ := Source.positionOf_append hchars
  -- Of the lines looked up, only those of the context are got by adding to a number.
  obtain ⟨lineText, hlineText⟩ : ∃ text, (Source.ofChars (before ++ (old ++ after))).lines
      (before.count '\n' + 1) (before.count '\n' + 1) = .ok text :=
    Source.exists_lines (by omega) (by omega) (by omega)
  obtain ⟨context, hcontext⟩ : ∃ text, (Source.ofChars (before ++ (old ++ after))).window
      (before.count '\n' + 1) ((before ++ old.dropLast).count '\n' + 1) contextLines = .ok text :=
    Source.exists_window (by omega) (by omega) (by omega) (by omega)
  rw [occurrenceAt]
  refine exists_bind_eq_ok (mapError_eq_ok_iff.mpr (lineOfOffset_start hne before after)) ?_
  refine exists_bind_eq_ok (mapError_eq_ok_iff.mpr (lineOfOffset_stop hne before after)) ?_
  split
  · refine exists_bind_eq_ok (mapError_eq_ok_iff.mpr hposition) ?_
    refine exists_bind_eq_ok (mapError_eq_ok_iff.mpr hlineText) ?_
    exact exists_bind_eq_ok hcontext ⟨_, rfl⟩
  · exact ⟨none, rfl⟩

/-! ## Searching -/

variable {search : String} {occurrences : List Occurrence}

/-- A search has an answer, if the last line of its context has a number at all. -/
theorem exists_findOccurrences
    (hword : (Source.ofChars chars).lineCount + contextLines < UInt64.size) :
    ∃ occurrences, findOccurrences (Source.ofChars chars) scopes contextLines search within =
      .ok occurrences := by
  refine exists_filterMapM_eq_ok ?_
  intro start hstart
  rw [Source.chars_ofChars] at hstart
  have hne := ne_nil_of_mem_matchOffsets hstart
  obtain ⟨before, after, rfl, rfl⟩ := standsAt_of_mem_matchOffsets hstart
  exact exists_occurrenceAt hne before after hword

/-- The occurrences found are those at the matches that the scopes allow. -/
theorem starts_of_findOccurrences
    (h : findOccurrences (Source.ofChars chars) scopes contextLines search within =
      .ok occurrences) :
    occurrences.map (·.range.start) =
      (matchOffsets search.toList chars).filter (allowsMatch scopes within search.toList chars) := by
  refine map_key_of_filterMapM_eq_ok h ?_
  intro start hstart found hfound
  have hne := ne_nil_of_mem_matchOffsets hstart
  obtain ⟨before, after, rfl, rfl⟩ := standsAt_of_mem_matchOffsets hstart
  exact map_start_of_occurrenceAt hne hfound

/-- Without filters there is an occurrence at every match. -/
theorem starts_of_findOccurrences_none
    (h : findOccurrences (Source.ofChars chars) scopes contextLines search none =
      .ok occurrences) : occurrences.map (·.range.start) = matchOffsets search.toList chars := by
  rw [starts_of_findOccurrences h]
  exact List.filter_eq_self.mpr fun _ _ => rfl

/-- Without filters the first occurrence is at the first place of the search text. -/
theorem isFirst_of_findOccurrences {target : Occurrence}
    (h : findOccurrences (Source.ofChars chars) scopes contextLines search none = .ok occurrences)
    (hfirst : occurrences.head? = some target) :
    IsFirst search.toList target.range.start chars := by
  have hhead : (matchOffsets search.toList chars).head? = some target.range.start := by
    rw [← starts_of_findOccurrences_none h, List.head?_map, hfirst]
    rfl
  exact (head?_matchOffsets_eq_some_iff
    (ne_nil_of_mem_matchOffsets (List.mem_of_head? hhead))).mp hhead

/-- Every occurrence found is a place of the search text. -/
theorem isAt_of_mem_findOccurrences
    (h : findOccurrences (Source.ofChars chars) scopes contextLines search within =
      .ok occurrences) (hmem : occurrence ∈ occurrences) :
    ∃ before after, occurrence.IsAt search.toList chars before after := by
  obtain ⟨start, hstart, hlookup⟩ := exists_of_filterMapM_eq_ok h hmem
  have hne := ne_nil_of_mem_matchOffsets hstart
  obtain ⟨before, after, rfl, rfl⟩ := standsAt_of_mem_matchOffsets hstart
  have hfound := of_occurrenceAt_eq_ok hne hlookup
  split at hfound
  · obtain ⟨_, hsame, hat⟩ := hfound
    obtain rfl := Option.some.inj hsame
    exact ⟨before, after, hat⟩
  · cases hfound

theorem start_mem_matchOffsets_of_mem_findOccurrences
    (h : findOccurrences (Source.ofChars chars) scopes contextLines search within =
      .ok occurrences) (hmem : occurrence ∈ occurrences) :
    occurrence.range.start ∈ matchOffsets search.toList chars := by
  have hstart := List.mem_map_of_mem (f := (·.range.start)) hmem
  rw [starts_of_findOccurrences h] at hstart
  exact (List.mem_filter.mp hstart).1

/-- Occurrences of one search do not overlap. -/
theorem apart_of_mem_findOccurrences {other : Occurrence}
    (h : findOccurrences (Source.ofChars chars) scopes contextLines search within =
      .ok occurrences) (hmem : occurrence ∈ occurrences) (hother : other ∈ occurrences)
    (hlt : occurrence.range.start < other.range.start) :
    occurrence.range.stop ≤ other.range.start := by
  have hstart := start_mem_matchOffsets_of_mem_findOccurrences h hmem
  have hnext := start_mem_matchOffsets_of_mem_findOccurrences h hother
  obtain ⟨_, _, hat⟩ := isAt_of_mem_findOccurrences h hmem
  rw [hat.stop_eq]
  exact (matchOffsets_leftmost (ne_nil_of_mem_matchOffsets hstart) chars).add_width_le hstart hnext
    hlt

/-- The scopes allow the lines of every occurrence found. -/
theorem allowsLines_of_mem_findOccurrences
    (h : findOccurrences (Source.ofChars chars) scopes contextLines search within =
      .ok occurrences) (hmem : occurrence ∈ occurrences) :
    scopes.allowsLines within occurrence.line occurrence.endLine = true := by
  have hstart := List.mem_map_of_mem (f := (·.range.start)) hmem
  rw [starts_of_findOccurrences h] at hstart
  obtain ⟨hmatch, hallows⟩ := List.mem_filter.mp hstart
  obtain ⟨_, _, hat⟩ := isAt_of_mem_findOccurrences h hmem
  rwa [hat.allowsMatch_eq (ne_nil_of_mem_matchOffsets hmatch)] at hallows

/-! ## Searching under other filters -/

section Filters

variable {source : Source} {range : ByteRange} {other : Option (List Nat)}
variable {found : List Occurrence}

/-- What an occurrence tells is what is looked up for its range. -/
structure Occurrence.IsRead (occurrence : Occurrence) (source : Source) (scopes : ScopeTable)
    (contextLines : Nat) (range : ByteRange) : Prop where
  range_eq : occurrence.range = range
  line_eq : source.lineOfOffset range.start = .ok occurrence.line
  endLine_eq : source.lineOfOffset (range.stop - 1) = .ok occurrence.endLine
  position_eq : ∃ line, source.positionOf range.start = .ok ⟨line, occurrence.column⟩
  lineText_eq : source.line occurrence.line = .ok occurrence.lineText.toList
  context_eq : source.window occurrence.line occurrence.endLine contextLines =
    .ok occurrence.surroundingContext.toList
  scope_eq : occurrence.scope = scopes.innermost? occurrence.line occurrence.endLine range
  enclosingScope_eq : occurrence.enclosingScope = occurrence.scope.map scopes.qualifiedName

/-- What the scopes are asked is only whether an occurrence is kept. -/
theorem occurrenceAt_eq_some_iff :
    occurrenceAt source scopes contextLines within range = .ok (some occurrence) ↔
      occurrence.IsRead source scopes contextLines range ∧
        scopes.allowsLines within occurrence.line occurrence.endLine = true := by
  rw [occurrenceAt_eq_ok_iff]
  constructor
  · intro ⟨line, endLine, hline, hendLine, h⟩
    split at h
    · next hallows =>
      obtain ⟨position, lineText, context, hposition, hlineText, hcontext, hfound⟩ := h
      obtain rfl := Option.some.inj hfound
      refine ⟨⟨rfl, hline, hendLine, ⟨position.line, hposition⟩, ?_, ?_, rfl, rfl⟩, hallows⟩
      · rw [String.toList_ofList]
        exact hlineText
      · rw [String.toList_ofList]
        exact hcontext
    · cases h
  · intro ⟨hread, hallows⟩
    refine ⟨occurrence.line, occurrence.endLine, hread.line_eq, hread.endLine_eq, ?_⟩
    rw [if_pos hallows]
    obtain ⟨line, hposition⟩ := hread.position_eq
    refine ⟨_, _, _, hposition, hread.lineText_eq, hread.context_eq, ?_⟩
    rw [String.ofList_toList, String.ofList_toList, ← hread.scope_eq, ← hread.enclosingScope_eq,
      ← hread.range_eq]

/-- A search finds the occurrences at the matches, on the lines that its filters allow. The
occurrences themselves do not depend on the filters. -/
theorem mem_findOccurrences_iff
    (h : findOccurrences source scopes contextLines search within = .ok occurrences) :
    occurrence ∈ occurrences ↔
      (∃ start ∈ matchOffsets search.toList source.chars,
        occurrence.IsRead source scopes contextLines ⟨start, start + width search.toList⟩) ∧
      scopes.allowsLines within occurrence.line occurrence.endLine = true := by
  rw [mem_filterMapM_iff h]
  simp only [occurrenceAt_eq_some_iff]
  constructor
  · intro ⟨start, hstart, hread, hallows⟩
    exact ⟨⟨start, hstart, hread⟩, hallows⟩
  · intro ⟨⟨start, hstart, hread⟩, hallows⟩
    exact ⟨start, hstart, hread, hallows⟩

/-- Of what is found under some filters, that is found under others which these allow too. -/
theorem mem_findOccurrences_of_mem
    (h : findOccurrences source scopes contextLines search within = .ok occurrences)
    (h' : findOccurrences source scopes contextLines search other = .ok found)
    (hmem : occurrence ∈ found)
    (hallows : scopes.allowsLines within occurrence.line occurrence.endLine = true) :
    occurrence ∈ occurrences :=
  (mem_findOccurrences_iff h).mpr ⟨((mem_findOccurrences_iff h').mp hmem).1, hallows⟩

end Filters

/-! ## Lines of places -/

/-- The line that a place is on. -/
def Text.lineAt (chars : List Char) (place : Nat) : Nat := (takeBytes place chars).count '\n' + 1

theorem Occurrence.IsAt.line_eq (h : occurrence.IsAt old chars before after) :
    occurrence.line = lineAt chars occurrence.range.start := by
  rw [h.line, lineAt, h.range, h.text, takeBytes_append]

/-- The further a place of a pattern is in the text, the further is its line. -/
theorem Text.lineAt_le_lineAt {p q : Nat} (hp : StandsAt old p chars) (hq : StandsAt old q chars)
    (hle : p ≤ q) : lineAt chars p ≤ lineAt chars q := by
  obtain ⟨front, back, rfl, rfl⟩ := hp
  obtain ⟨front', back', hcut, rfl⟩ := hq
  rw [lineAt, lineAt, takeBytes_append]
  rw [hcut, takeBytes_append]
  obtain ⟨middle, rfl, -⟩ := exists_between hcut hle
  rw [List.count_append]
  omega

/-- The occurrences found are on the lines of the matches that the scopes allow. -/
theorem lines_of_findOccurrences
    (h : findOccurrences (Source.ofChars chars) scopes contextLines search within =
      .ok occurrences) :
    occurrences.map (·.line) =
      ((matchOffsets search.toList chars).filter
        (allowsMatch scopes within search.toList chars)).map (lineAt chars) := by
  rw [← starts_of_findOccurrences h, List.map_map]
  refine List.map_congr_left fun occurrence hmem => ?_
  obtain ⟨_, _, hat⟩ := isAt_of_mem_findOccurrences h hmem
  exact hat.line_eq

end ExactEdit
