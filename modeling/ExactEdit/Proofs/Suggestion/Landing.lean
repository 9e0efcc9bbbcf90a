import ExactEdit.Proofs.Suggestion.Candidates

/-! # Where a wider search text lands

A suggestion is followed by searching for its old text, and the search takes the first place. The
counts behind a wider search text say that there is one match, but matches are counted without
overlaps: a copy of the text that begins further up and reaches into the block is the first place,
and then the block itself is not counted at all. The old text of the copy is exchanged in that
case, which is not the occurrence that the suggestion was made for.

This module says where the edit lands. It comes to the edit of an occurrence exactly if the text
between the two places is carried past the new text as it is past the old one; if the block is the
first place there is nothing to carry.

## Main definitions

* `Text.SameEdit` — exchanging a text at two places comes to the same
* `Suggestion.LandsAt` — where the first place of a wider search text is

## Main results

* `Text.splice_eq_splice_iff` — when two exchanges come to the same
* `exists_occurrence_of_widened` — where a wider search text lands, and when that is right
* `exists_occurrence_of_unbordered` — it is right if no copy of the text reaches into another
-/

namespace ExactEdit

namespace Text

variable {chars old front back front' back' : List Char} {place target : Nat}

/-! ## One exchange at two places -/

/-- Exchanging `old` for `new` comes to the same at `place` and further on at `target`: what lies
between is carried past the new text as it is past the old one. -/
def SameEdit (old new chars : List Char) (place target : Nat) : Prop :=
  ∃ carried, old ++ carried = slice ⟨place, target⟩ chars ++ old ∧
    new ++ carried = slice ⟨place, target⟩ chars ++ new

theorem exists_carried (h : front ++ (old ++ back) = front' ++ (old ++ back'))
    (hle : width front ≤ width front') :
    ∃ shift carried, front' = front ++ shift ∧ back = carried ++ back' ∧
      old ++ carried = shift ++ old := by
  obtain ⟨shift, rfl, hrest⟩ := exists_between h hle
  rw [← List.append_assoc] at hrest
  obtain ⟨carried, hcarried, hback⟩ := exists_between hrest (by rw [width_append]; omega)
  exact ⟨shift, carried, rfl, hback, hcarried.symm⟩

/-- Two exchanges come to the same exactly if the text between them is carried past the new text. -/
theorem splice_eq_splice_iff (new : List Char) (hplace : StandsAt old place chars)
    (htarget : StandsAt old target chars) (hle : place ≤ target) :
    splice ⟨place, place + width old⟩ new chars = splice ⟨target, target + width old⟩ new chars ↔
      SameEdit old new chars place target := by
  obtain ⟨front, back, rfl, rfl⟩ := hplace
  obtain ⟨front', back', hcut, rfl⟩ := htarget
  -- In front of the first place and behind the second both exchanges keep the same text.
  obtain ⟨shift, carried, rfl, rfl, hcarried⟩ := exists_carried hcut hle
  have hslice : slice ⟨width front, width (front ++ shift)⟩
      (front ++ (old ++ (carried ++ back'))) = shift := by
    rw [hcut, width_append, List.append_assoc, slice_append]
  rw [SameEdit, hslice, splice_append]
  rw [hcut, splice_append]
  constructor
  · intro h
    refine ⟨carried, hcarried, ?_⟩
    have hcommon : front ++ (new ++ carried ++ back') = front ++ (shift ++ new ++ back') := by
      simpa using h
    exact List.append_cancel_right (List.append_cancel_left hcommon)
  · rintro ⟨other, hother, hnew⟩
    obtain rfl : other = carried := List.append_cancel_left (hother.trans hcarried.symm)
    calc front ++ (new ++ (other ++ back')) = front ++ (new ++ other ++ back') := by simp
      _ = front ++ (shift ++ new ++ back') := by rw [hnew]
      _ = front ++ shift ++ (new ++ back') := by simp

end Text

open Text Result

variable {basis : SuggestionBasis} {old new : String} {chars : List Char}
variable {occurrence other : Occurrence} {occurrences : List Occurrence}
variable {suggestion : Suggestion} {list : List Suggestion} {within : Option (List Nat)}

/-! ## Occurrences on one line -/

/-- A line that is tried for one of two occurrences on it is tried for the first of them: with
both of them in it, the block would hold the old text twice. -/
theorem SuggestionBasis.start_le_of_widen {before after before' after' : List Char}
    {widened : String × String} {lines : Nat × Nat}
    (hsource : basis.source = Source.ofChars chars)
    (hat : occurrence.IsAt old.toList chars before after)
    (hother : other.IsAt old.toList chars before' after')
    (hline : other.line = occurrence.line) (hfirst : lines.1 ≤ occurrence.line)
    (happart : other.range.start < occurrence.range.start →
      other.range.stop ≤ occurrence.range.start)
    (h : basis.widen old new occurrence.range lines.1 lines.2 = .ok (some widened)) :
    occurrence.range.start ≤ other.range.start := by
  obtain ⟨span, hsingles, -⟩ := exists_singles_of_widen_ne (by rw [h]; simp)
  by_contra hbefore
  have hstop := happart (by omega)
  have hle := hsingles.start_le hsource hother (by omega)
  have hne : old.toList ≠ [] := by
    intro hnil
    have hcount := hsingles.holdsOnce
    rw [hnil] at hcount
    cases hcount
  have hwithin : occurrence.range.stop ≤ span.stop := by
    by_contra hbehind
    obtain ⟨fault, hfault⟩ : ∃ fault,
        basis.widen old new occurrence.range lines.1 lines.2 = .error fault :=
      (exists_widen_eq_error_iff hsource hat hfirst).mpr ⟨span, hsingles, by omega⟩
    rw [h] at hfault
    cases hfault
  have hwidth := hat.stop_eq
  obtain ⟨front, back, hcut, hfront⟩ := hsingles.exists_slice_eq hsource hat (by omega) hwithin
  obtain ⟨front', back', hcut', hfront'⟩ :=
    hsingles.exists_slice_eq hsource hother hle (by omega)
  -- Both occurrences are in the block and do not overlap, but it holds the old text once.
  have hwidth' := hother.stop_eq
  have := two_le_matchCount hne (p := width front') (q := width front)
    ⟨front', back', hcut', rfl⟩ ⟨front, back, hcut, rfl⟩ (by omega)
  have := hsingles.holdsOnce
  omega

/-! ## Following a suggestion -/

/-- A wider search text has the old text of an occurrence between `front` and `back`, and the new
one has the new text there. Its first place is `place`, at the block of the occurrence or before
it, and reaches into the block. -/
structure Suggestion.LandsAt (suggestion : Suggestion) (old new : String) (occurrence : Occurrence)
    (chars front back : List Char) (place : Nat) : Prop where
  oldText : suggestion.oldText.toList = front ++ (old.toList ++ back)
  newText : suggestion.newText.toList = front ++ (new.toList ++ back)
  first : IsFirst suggestion.oldText.toList place chars
  block : StandsAt suggestion.oldText.toList (occurrence.range.start - width front) chars
  le : place + width front ≤ occurrence.range.start
  reaches : occurrence.range.start < place + width front + width suggestion.oldText.toList

namespace Suggestion.LandsAt

variable {front back : List Char} {place : Nat}
variable (h : suggestion.LandsAt old new occurrence chars front back place)
include h

/-- The first place has the old text in it, as the block has. -/
theorem standsAt : StandsAt old.toList (place + width front) chars := by
  refine h.first.1.trans ?_
  rw [h.oldText]
  exact standsAt_append front old.toList back

theorem oldText_ne_nil : suggestion.oldText.toList ≠ [] := by
  intro hnil
  have hle := h.le
  have hreaches := h.reaches
  rw [hnil, width_nil] at hreaches
  omega

/-- Following the suggestion exchanges the old text in the first place. -/
theorem replaceFirst_eq :
    replaceFirst suggestion.oldText.toList suggestion.newText.toList chars =
      splice ⟨place + width front, place + width front + width old.toList⟩ new.toList chars := by
  obtain ⟨init, rest, hcut, rfl⟩ := h.first.1
  have hinside : chars = (init ++ front) ++ (old.toList ++ (back ++ rest)) := by
    rw [hcut, h.oldText]
    simp
  rw [Text.replaceFirst_eq h.oldText_ne_nil h.first]
  calc splice ⟨width init, width init + width suggestion.oldText.toList⟩
        suggestion.newText.toList chars
      = init ++ (suggestion.newText.toList ++ rest) := by rw [hcut, splice_append]
    _ = (init ++ front) ++ (new.toList ++ (back ++ rest)) := by rw [h.newText]; simp
    _ = splice ⟨width init + width front, width init + width front + width old.toList⟩
          new.toList chars := by
        rw [hinside, ← width_append, splice_append]

/-- A wider search text that no copy of itself can reach into is found at its block. -/
theorem place_eq_of_unbordered
    (hborder : ∀ shift carried, suggestion.oldText.toList ++ carried =
      shift ++ suggestion.oldText.toList → shift ≠ [] →
        width suggestion.oldText.toList ≤ width shift) :
    place + width front = occurrence.range.start := by
  have hle := h.le
  have hreaches := h.reaches
  obtain ⟨init, rest, hcut, rfl⟩ := h.first.1
  obtain ⟨init', rest', hcut', hinit'⟩ := h.block
  obtain ⟨shift, carried, rfl, -, hcarried⟩ := exists_carried (hcut.symm.trans hcut') (by omega)
  rw [width_append] at hinit'
  -- A place in front of the block reaches into it, and would be a copy that does so.
  by_contra hne
  have hshift : shift ≠ [] := by
    rintro rfl
    rw [width_nil] at hinit'
    omega
  have := hborder shift carried hcarried hshift
  omega

end Suggestion.LandsAt

/-- A suggestion with a wider search text lands at a place of it that reaches into the block of an
occurrence on its line. -/
theorem exists_landsAt (hsource : basis.source = Source.ofChars chars)
    (hat : ∀ occurrence ∈ occurrences, ∃ before after,
      occurrence.IsAt old.toList chars before after)
    (hsuggested : suggestions basis old new occurrences = .ok list)
    (hmem : suggestion ∈ list) (hstrategy : suggestion.strategy ≠ .scope) :
    ∃ occurrence ∈ occurrences, suggestion.line = occurrence.line ∧
      (∃ lines ∈ basis.blocks occurrence, basis.widen old new occurrence.range lines.1 lines.2 =
        .ok (some (suggestion.oldText, suggestion.newText))) ∧
      ∃ front back place, suggestion.LandsAt old new occurrence chars front back place := by
  obtain ⟨occurrence, hoccurrence, hline, lines, hlines, hwiden⟩ :=
    exists_widen_of_mem_suggestions hsuggested hmem hstrategy
  obtain ⟨before, after, hplace⟩ := hat occurrence hoccurrence
  have hfirst := (SuggestionBasis.bounds_of_mem_blocks hlines hplace.line_pos).1
  obtain ⟨front, back, hold, hnew, hcount, start, hstands, hstart⟩ :=
    SuggestionBasis.exists_of_widen_eq_some hsource hplace hfirst hwiden
  have hne : suggestion.oldText.toList ≠ [] := by
    intro hnil
    rw [hnil] at hcount
    cases hcount
  obtain ⟨place, hisFirst, hle, hreaches⟩ := exists_of_matchCount_eq_one hne hcount hstands
  refine ⟨occurrence, hoccurrence, hline, ⟨lines, hlines, hwiden⟩, front, back, place, hold, hnew,
    hisFirst, ?_, by omega, by omega⟩
  rw [show occurrence.range.start - width front = start by omega]
  exact hstands

/-- A suggestion whose wider search text no copy of itself can reach into lands on the occurrence
that it was made for. -/
theorem exists_occurrence_of_unbordered (hsource : basis.source = Source.ofChars chars)
    (hfound : findOccurrences basis.source basis.scopes basis.contextLines old within =
      .ok occurrences)
    (hsuggested : suggestions basis old new occurrences = .ok list)
    (hmem : suggestion ∈ list) (hstrategy : suggestion.strategy ≠ .scope)
    (hborder : ∀ shift carried, suggestion.oldText.toList ++ carried =
      shift ++ suggestion.oldText.toList → shift ≠ [] →
        width suggestion.oldText.toList ≤ width shift) :
    ∃ occurrence ∈ occurrences, occurrence.line = suggestion.line ∧
      replaceFirst suggestion.oldText.toList suggestion.newText.toList chars =
        splice occurrence.range new.toList chars := by
  rw [hsource] at hfound
  have hat : ∀ other ∈ occurrences, ∃ before after, other.IsAt old.toList chars before after :=
    fun other hother => isAt_of_mem_findOccurrences hfound hother
  obtain ⟨occurrence, hoccurrence, hline, -, front, back, place, hlands⟩ :=
    exists_landsAt hsource hat hsuggested hmem hstrategy
  obtain ⟨before, after, hplace⟩ := hat occurrence hoccurrence
  refine ⟨occurrence, hoccurrence, hline.symm, ?_⟩
  rw [hlands.replaceFirst_eq, hlands.place_eq_of_unbordered hborder, ← hplace.stop_eq]

/-- A suggestion with a wider search text was made for an occurrence on its line. Following it
comes to the edit of an occurrence on that line exactly if the text from the place where it lands
up to that occurrence is carried past the new text as it is past the old one; there is none if it
lands at its block. -/
theorem exists_occurrence_of_widened (hsource : basis.source = Source.ofChars chars)
    (hfound : findOccurrences basis.source basis.scopes basis.contextLines old within =
      .ok occurrences)
    (hsuggested : suggestions basis old new occurrences = .ok list)
    (hmem : suggestion ∈ list) (hstrategy : suggestion.strategy ≠ .scope) :
    ∃ occurrence ∈ occurrences, occurrence.line = suggestion.line ∧ ∃ front back place,
      suggestion.LandsAt old new occurrence chars front back place ∧
        replaceFirst suggestion.oldText.toList suggestion.newText.toList chars =
          splice ⟨place + width front, place + width front + width old.toList⟩ new.toList chars ∧
        ((∃ other ∈ occurrences, other.line = suggestion.line ∧
            replaceFirst suggestion.oldText.toList suggestion.newText.toList chars =
              splice other.range new.toList chars) ↔
          ∃ other ∈ occurrences, other.line = suggestion.line ∧
            SameEdit old.toList new.toList chars (place + width front) other.range.start) := by
  rw [hsource] at hfound
  have hat : ∀ other ∈ occurrences, ∃ before after, other.IsAt old.toList chars before after :=
    fun other hother => isAt_of_mem_findOccurrences hfound hother
  obtain ⟨occurrence, hoccurrence, hline, ⟨lines, hlines, hwiden⟩, front, back, place, hlands⟩ :=
    exists_landsAt hsource hat hsuggested hmem hstrategy
  obtain ⟨before, after, hplace⟩ := hat occurrence hoccurrence
  refine ⟨occurrence, hoccurrence, hline.symm, front, back, place, hlands, hlands.replaceFirst_eq,
    ?_⟩
  -- No occurrence on that line is in front of the first place, so both sides compare the same two
  -- exchanges.
  refine exists_congr fun other => and_congr_right fun hother => and_congr_right fun hsame => ?_
  obtain ⟨before', after', hplace'⟩ := hat other hother
  have hbehind := SuggestionBasis.start_le_of_widen hsource hplace hplace' (hsame.trans hline)
    (SuggestionBasis.bounds_of_mem_blocks hlines hplace.line_pos).1
    (apart_of_mem_findOccurrences hfound hother hoccurrence) hwiden
  rw [hlands.replaceFirst_eq,
    show other.range = ⟨other.range.start, other.range.start + width old.toList⟩ by
      rw [← hplace'.stop_eq]]
  exact splice_eq_splice_iff new.toList hlands.standsAt hplace'.standsAt
    (Nat.le_trans hlands.le hbehind)

/-! ### A block that is overlapped from above

In the text below the occurrences of `d` before `a` are on lines 4 and 8. With three lines of
context the block of the second begins on line 5, and a copy of it begins in the middle of line 1
and ends with line 5. -/

/-- The text `xa`, `b`, `c`, `d`, `a`, `b`, `c`, `d`, `a`, line by line. -/
def overlapped : SuggestionBasis :=
  { source := Source.ofChars "xa\nb\nc\nd\na\nb\nc\nd\na".toList
    scopes := ⟨[]⟩
    language := none
    contextLines := defaultContextLines
    commentRadius := defaultCommentRadius }

/-- Whether a suggestion comes to the edit of an occurrence on its line. -/
def hitsItsLine (chars : List Char) (new : String) (occurrences : List Occurrence)
    (suggestion : Suggestion) : Bool :=
  occurrences.any fun occurrence => occurrence.line == suggestion.line &&
    replaceFirst suggestion.oldText.toList suggestion.newText.toList chars ==
      splice occurrence.range new.toList chars

theorem exists_suggestion_overlapped : ∃ occurrences list, ∃ suggestion ∈ list,
    findOccurrences overlapped.source overlapped.scopes overlapped.contextLines "d\na" none =
      .ok occurrences ∧
    suggestions overlapped "d\na" "d\nz" occurrences = .ok list ∧
    suggestion.strategy = .surrounding ∧
    hitsItsLine overlapped.source.chars "d\nz" occurrences suggestion = false := by
  have hrun : (match findOccurrences overlapped.source overlapped.scopes overlapped.contextLines
      "d\na" none with
    | .error _ => false
    | .ok occurrences =>
      match occurrences.mapM (overlapped.candidates "d\na" "d\nz" occurrences) with
      | .error _ => false
      | .ok all => (Suggestion.distinct all.flatten).any fun suggestion =>
        suggestion.strategy == .surrounding &&
          !hitsItsLine overlapped.source.chars "d\nz" occurrences suggestion) = true := by
    decide +kernel
  split at hrun
  · cases hrun
  · next occurrences hfound =>
    split at hrun
    · cases hrun
    · next all hall =>
      obtain ⟨suggestion, hmem, htest⟩ := List.any_eq_true.mp hrun
      obtain ⟨list, hlist, hsame⟩ := exists_suggestions_eq_ok hall
      rw [Bool.and_eq_true, beq_iff_eq, Bool.not_eq_true'] at htest
      exact ⟨occurrences, list, suggestion, (hsame suggestion).mpr hmem, hfound, hlist, htest.1,
        htest.2⟩

/-- A suggestion whose edit is that of no occurrence on its line. -/
theorem overlapped_suggestion_misses : ∃ occurrences list, ∃ suggestion ∈ list,
    findOccurrences overlapped.source overlapped.scopes overlapped.contextLines "d\na" none =
      .ok occurrences ∧
    suggestions overlapped "d\na" "d\nz" occurrences = .ok list ∧
    suggestion.strategy = .surrounding ∧
    ¬ ∃ occurrence ∈ occurrences, occurrence.line = suggestion.line ∧
      replaceFirst suggestion.oldText.toList suggestion.newText.toList overlapped.source.chars =
        splice occurrence.range "d\nz".toList overlapped.source.chars := by
  obtain ⟨occurrences, list, suggestion, hmem, hfound, hsuggested, hstrategy, hmisses⟩ :=
    exists_suggestion_overlapped
  refine ⟨occurrences, list, suggestion, hmem, hfound, hsuggested, hstrategy, ?_⟩
  rintro ⟨occurrence, hoccurrence, hline, hsame⟩
  rw [hitsItsLine, List.any_eq_false] at hmisses
  exact hmisses occurrence hoccurrence (by rw [hline, hsame]; simp)

/-- The suggestion lands somewhere all the same. -/
theorem overlapped_suggestion_lands : ∃ occurrences list, ∃ suggestion ∈ list,
    findOccurrences overlapped.source overlapped.scopes overlapped.contextLines "d\na" none =
      .ok occurrences ∧
    suggestions overlapped "d\na" "d\nz" occurrences = .ok list ∧
    suggestion.strategy ≠ .scope ∧
    ∃ occurrence ∈ occurrences, occurrence.line = suggestion.line ∧ ∃ front back place,
      suggestion.LandsAt "d\na" "d\nz" occurrence overlapped.source.chars front back place := by
  obtain ⟨occurrences, list, suggestion, hmem, hfound, hsuggested, hstrategy, -⟩ :=
    exists_suggestion_overlapped
  have hwider : suggestion.strategy ≠ .scope := by
    rw [hstrategy]
    exact Strategy.noConfusion
  obtain ⟨occurrence, hoccurrence, hline, front, back, place, hlands, -⟩ :=
    exists_occurrence_of_widened rfl hfound hsuggested hmem hwider
  exact ⟨occurrences, list, suggestion, hmem, hfound, hsuggested, hwider, occurrence, hoccurrence,
    hline, front, back, place, hlands⟩

end ExactEdit
