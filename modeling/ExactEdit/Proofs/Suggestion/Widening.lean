import ExactEdit.Proofs.Occurrence
import ExactEdit.Suggestion

/-! # Widening

A suggestion asks for a block of whole lines around an occurrence. The block is tried only if two
counts say one, of the old text in the block and of the block in the text. Neither count speaks of
the occurrence itself. The block ends in front of its last terminator, so an occurrence that ends
in a terminator can reach behind it, and then the program stops. In every other case the block
holds the occurrence and the replacement is made where the occurrence is.

## Main definitions

* `SuggestionBasis.blocks` — the line numbers of the blocks that are tried for an occurrence
* `SuggestionBasis.Singles` — lines that pass both counts
* `SuggestionBasis.Overhangs` — lines that pass, with the occurrence ending behind them

## Main results

* `SuggestionBasis.widen_of_singles` — what becomes of lines that pass
* `SuggestionBasis.exists_widen_eq_error_iff` — widening stops exactly at an overhang
* `SuggestionBasis.exists_of_widen_eq_some` — a wider search text holds its occurrence
* `SuggestionBasis.not_overhangs_of_getLast` — no overhang unless the old text ends in a line end
-/

namespace ExactEdit

open Text Result

variable {chars before after block old new front back : List Char} {first last offset : Nat}
variable {occurrence : Occurrence} {range span : ByteRange}

/-! ## Replacing in a block -/

theorem SuggestionBasis.replaceIn_append (front old new back : List Char) :
    SuggestionBasis.replaceIn (front ++ (old ++ back)) old new (width front) =
      .ok (front ++ (new ++ back)) := by
  have hstop : isBoundary (width front + width old) (front ++ (old ++ back)) = true := by
    rw [← width_append, ← List.append_assoc]
    exact isBoundary_width _ _
  rw [replaceIn, isBoundary_width, hstop, splice_append]
  rfl

theorem SuggestionBasis.replaceIn_eq_error (h : width block < offset + width old) :
    SuggestionBasis.replaceIn block old new offset = .error .sliceOutOfRange := by
  have hstop : isBoundary (offset + width old) block = false := by
    by_contra hboundary
    have := IsBoundary.le_width (by simpa using hboundary)
    omega
  rw [replaceIn, hstop, Bool.and_false]
  rfl

namespace SuggestionBasis

/-! ## Blocks of an occurrence -/

theorem commentStart_le (basis : SuggestionBasis) (line : Nat) : basis.commentStart line ≤ line := by
  induction line with
  | zero => exact Nat.le_refl 0
  | succ line ih =>
    rw [commentStart]
    split
    · exact Nat.le_succ_of_le ih
    · exact Nat.le_refl _

theorem le_commentStop (basis : SuggestionBasis) (steps line : Nat) :
    line ≤ basis.commentStop steps line := by
  induction steps generalizing line with
  | zero => exact Nat.le_refl line
  | succ steps ih =>
    rw [commentStop]
    split
    · exact Nat.le_of_succ_le (ih (line + 1))
    · exact Nat.le_refl _

/-- First and last lines of the blocks that are tried for an occurrence: with the lines before it,
and with the nearest comment. -/
def blocks (basis : SuggestionBasis) (occurrence : Occurrence) : List (Nat × Nat) :=
  (max (occurrence.line - basis.contextLines) 1, occurrence.endLine) ::
    ((basis.nearestComment? occurrence.line occurrence.endLine).map
      (basis.commentBlock occurrence)).toList

theorem commentBlock_bounds (basis : SuggestionBasis) (occurrence : Occurrence) (anchor : Nat) :
    (basis.commentBlock occurrence anchor).1 ≤ occurrence.line ∧
      occurrence.endLine ≤ (basis.commentBlock occurrence anchor).2 := by
  rw [commentBlock]
  split
  · have := basis.commentStart_le (min anchor occurrence.line)
    exact ⟨by omega, Nat.le_max_right _ _⟩
  · have := basis.le_commentStop basis.source.lineCount (max anchor occurrence.endLine)
    exact ⟨Nat.min_le_right _ _, by omega⟩

/-- A block has the lines of its occurrence. -/
theorem bounds_of_mem_blocks {basis : SuggestionBasis} {lines : Nat × Nat}
    (h : lines ∈ basis.blocks occurrence) (hpos : 1 ≤ occurrence.line) :
    lines.1 ≤ occurrence.line ∧ occurrence.endLine ≤ lines.2 := by
  rcases List.mem_cons.mp h with rfl | hcomment
  · exact ⟨by simp only; omega, Nat.le_refl _⟩
  · obtain ⟨anchor, -, rfl⟩ := Option.map_eq_some_iff.mp (Option.mem_toList.mp hcomment)
    exact basis.commentBlock_bounds occurrence anchor

/-! ## Lines that pass the tests -/

/-- The lines `first` to `last` pass both counts: they hold the old text once, and their text is
found once. -/
structure Singles (basis : SuggestionBasis) (old : String) (first last : Nat) (span : ByteRange) :
    Prop where
  lineSpan_eq : basis.source.lineSpan first last = .ok span
  holdsOnce : matchCount old.toList (slice span basis.source.chars) = 1
  standsOnce : matchCount (slice span basis.source.chars) basis.source.chars = 1

/-- The lines pass, and the occurrence ends behind them. -/
def Overhangs (basis : SuggestionBasis) (old : String) (occurrence : Occurrence)
    (lines : Nat × Nat) : Prop :=
  ∃ span, basis.Singles old lines.1 lines.2 span ∧ span.stop < occurrence.range.stop

section Widen

variable {basis : SuggestionBasis} {old new : String}

/-- Lines that pass give a wider search text, with the old text replaced where the range is. -/
theorem widen_of_singles (h : basis.Singles old first last span)
    (hle : span.start ≤ range.start) :
    basis.widen old new range first last =
      (replaceIn (slice span basis.source.chars) old.toList new.toList
        (range.start - span.start)).map fun replaced =>
          some (String.ofList (slice span basis.source.chars), String.ofList replaced) := by
  rw [widen, h.lineSpan_eq]
  simp only [h.holdsOnce, h.standsOnce, ne_eq, not_true_eq_false, if_false,
    if_neg (Nat.not_lt.mpr hle)]
  cases replaceIn (slice span basis.source.chars) old.toList new.toList
    (range.start - span.start) with
  | error fault => rfl
  | ok replaced => rfl

/-- Lines that do not pass give nothing. -/
theorem exists_singles_of_widen_ne (h : basis.widen old new range first last ≠ .ok none) :
    ∃ span, basis.Singles old first last span ∧ span.start ≤ range.start := by
  -- Each of the tests that fails would have given nothing.
  rw [widen] at h
  split at h
  · exact absurd rfl h
  · next span hspan =>
    refine ⟨span, ⟨hspan, ?_, ?_⟩, ?_⟩
    · by_contra hcount
      exact h (if_pos hcount)
    · by_contra hcount
      exact h (by simp only [if_pos hcount, ite_self])
    · by_contra hlt
      exact h (by simp only [if_pos (Nat.lt_of_not_le hlt), ite_self])

end Widen

section Source

variable {basis : SuggestionBasis} {old new : String} {lines : Nat × Nat}
variable (hsource : basis.source = Source.ofChars chars)
variable (hat : occurrence.IsAt old.toList chars before after)
include hsource hat

/-- Lines from that of an occurrence or from before it start in front of it. -/
theorem Singles.start_le (h : basis.Singles old first last span) (hfirst : first ≤ occurrence.line) :
    span.start ≤ occurrence.range.start := by
  have hspan := h.lineSpan_eq
  rw [hsource] at hspan
  obtain ⟨_, _, _, hblock, rfl⟩ := Source.lineSpan_eq_ok_iff.mp hspan
  rw [hat.range]
  exact hblock.start_le hat.text (by rw [← hat.line]; exact hfirst)

/-- Lines that pass and reach to the end of an occurrence hold it. -/
theorem Singles.exists_slice_eq (h : basis.Singles old first last span)
    (hle : span.start ≤ occurrence.range.start) (hinside : occurrence.range.stop ≤ span.stop) :
    ∃ front back, slice span basis.source.chars = front ++ (old.toList ++ back) ∧
      span.start + width front = occurrence.range.start := by
  have hspan := h.lineSpan_eq
  rw [hsource] at hspan
  have hslice := Source.sliceable_of_lineSpan_eq_ok hspan
  have hwidth := hslice.width_slice
  have hstands := hat.standsAt
  rw [← Nat.add_sub_of_le hle] at hstands
  have hstop := hat.stop_eq
  obtain ⟨front, back, hcut, hfront⟩ := hslice.standsAt.inside hstands (by omega)
  refine ⟨front, back, ?_, by omega⟩
  rw [hsource]
  exact hcut

/-- What widening makes of an occurrence within lines that pass. -/
theorem widen_of_inside (new : String) (h : basis.Singles old first last span)
    (hfirst : first ≤ occurrence.line) (hinside : occurrence.range.stop ≤ span.stop) :
    ∃ front back, slice span basis.source.chars = front ++ (old.toList ++ back) ∧
      span.start + width front = occurrence.range.start ∧
      basis.widen old new occurrence.range first last =
        .ok (some (String.ofList (front ++ (old.toList ++ back)),
          String.ofList (front ++ (new.toList ++ back)))) := by
  have hle := h.start_le hsource hat hfirst
  obtain ⟨front, back, hcut, hfront⟩ := h.exists_slice_eq hsource hat hle hinside
  refine ⟨front, back, hcut, hfront, ?_⟩
  rw [widen_of_singles h hle, hcut, show occurrence.range.start - span.start = width front by omega,
    replaceIn_append]
  rfl

/-- Widening stops exactly at an overhang. -/
theorem exists_widen_eq_error_iff (hfirst : lines.1 ≤ occurrence.line) :
    (∃ fault, basis.widen old new occurrence.range lines.1 lines.2 = .error fault) ↔
      basis.Overhangs old occurrence lines := by
  constructor
  · -- Lines that hold the occurrence would have given a text.
    rintro ⟨fault, hfault⟩
    obtain ⟨span, h, -⟩ := exists_singles_of_widen_ne (by rw [hfault]; simp)
    refine ⟨span, h, ?_⟩
    by_contra hinside
    obtain ⟨_, _, -, -, hok⟩ := widen_of_inside hsource hat new h hfirst (by omega)
    rw [hok] at hfault
    cases hfault
  · -- The old text is cut out with its whole width, which the lines do not have.
    rintro ⟨span, h, hbehind⟩
    have hle := h.start_le hsource hat hfirst
    have hspan := h.lineSpan_eq
    rw [hsource] at hspan
    have hwidth := (Source.sliceable_of_lineSpan_eq_ok hspan).width_slice
    have hstop := hat.stop_eq
    refine ⟨.sliceOutOfRange, ?_⟩
    rw [widen_of_singles h hle, replaceIn_eq_error (by
      rw [hsource, Source.chars_ofChars]
      omega)]
    rfl

/-- The wider search text of an occurrence has the occurrence in it, and stands where that is. -/
theorem exists_of_widen_eq_some {oldText newText : String} (hfirst : first ≤ occurrence.line)
    (h : basis.widen old new occurrence.range first last = .ok (some (oldText, newText))) :
    ∃ front back, oldText.toList = front ++ (old.toList ++ back) ∧
      newText.toList = front ++ (new.toList ++ back) ∧
      matchCount oldText.toList chars = 1 ∧
      ∃ start, StandsAt oldText.toList start chars ∧
        start + width front = occurrence.range.start := by
  obtain ⟨span, hsingles, -⟩ := exists_singles_of_widen_ne (by rw [h]; simp)
  -- The occurrence does not overhang, or widening would have stopped.
  have hinside : occurrence.range.stop ≤ span.stop := by
    by_contra hbehind
    obtain ⟨fault, hfault⟩ : ∃ fault,
        basis.widen old new occurrence.range (first, last).1 (first, last).2 = .error fault :=
      (exists_widen_eq_error_iff hsource hat hfirst).mpr ⟨span, hsingles, by omega⟩
    rw [h] at hfault
    cases hfault
  obtain ⟨front, back, hcut, hfront, hok⟩ :=
    widen_of_inside hsource hat new hsingles hfirst hinside
  rw [h] at hok
  obtain ⟨hold, hnew⟩ := Prod.mk.inj (Option.some.inj (Except.ok.inj hok))
  have hstands := (Source.sliceable_of_lineSpan_eq_ok (hsource ▸ hsingles.lineSpan_eq)).standsAt
  have hcount := hsingles.standsOnce
  rw [hsource, Source.chars_ofChars] at hcut hcount
  rw [hcut] at hstands hcount
  refine ⟨front, back, by simp [hold], by simp [hnew], ?_, span.start, ?_, hfront⟩
  · rw [hold, String.toList_ofList]
    exact hcount
  · rw [hold, String.toList_ofList]
    exact hstands

/-- An old text that ends in neither a line feed nor a carriage return never overhangs the lines
it is on. -/
theorem not_overhangs_of_getLast (hlast : occurrence.endLine ≤ lines.2)
    (hfeed : old.toList.getLast? ≠ some '\n') (hreturn : old.toList.getLast? ≠ some '\r') :
    ¬ basis.Overhangs old occurrence lines := by
  rintro ⟨span, h, hbehind⟩
  have hspan := h.lineSpan_eq
  rw [hsource] at hspan
  obtain ⟨_, _, _, hblock, rfl⟩ := Source.lineSpan_eq_ok_iff.mp hspan
  -- The last character is on a line of the block and is no part of a terminator.
  rcases List.eq_nil_or_concat' old.toList with hnil | ⟨init, c, hold⟩
  · have hcount := h.holdsOnce
    rw [hnil] at hcount
    cases hcount
  · have htext := hat.text
    have hend := hat.endLine
    rw [hold, List.dropLast_concat] at hend
    rw [hold] at hfeed hreturn htext
    have hcut : chars = (before ++ init) ++ c :: after := by
      rw [htext]
      simp
    have hstop := hblock.le_stop hcut (by omega) (by simpa using hfeed) (by simpa using hreturn)
    rw [hat.range, hold] at hbehind
    simp only [width_append, width_cons, width_nil] at hbehind hstop
    omega

end Source

end SuggestionBasis

end ExactEdit
