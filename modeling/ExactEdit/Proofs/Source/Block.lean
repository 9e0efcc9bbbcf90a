import ExactEdit.Proofs.Source.Feed
import ExactEdit.Source.Basic

/-! # Blocks of lines

A run of lines is a piece of the text: it starts behind a line feed or at the beginning, holds as
many line feeds as there are lines in it less one, and ends in front of a terminator or at the end.
The line index gives exactly these pieces. What a caller cuts out by line numbers is therefore
always inside the text and never tears a character.

## Main definitions

* `IsLineStart` — what is in front of a line
* `IsBlock` — what is in front of a run of lines, their text, and what is behind

## Main results

* `exists_endWithTerminator` — where a line ends together with its terminator
* `exists_isBlock` — there is a block for all line numbers in order and in range
* `IsBlock.startOfLine?_eq`, `IsBlock.endOfLine?_eq`, `IsBlock.byteRange?_eq` — the line index gives
  the ends of a block
* `IsBlock.exists_inside` — a block has all blocks of its lines in it
-/

namespace ExactEdit

open Text

variable {chars before body after front rest : List Char} {number first last : Nat}

/-! ## Starts of lines -/

/-- The text in front of the line with this number. -/
def IsLineStart (number : Nat) (before : List Char) : Prop :=
  before.count '\n' + 1 = number ∧ (before = [] ∨ ∃ init, before = init ++ ['\n'])

theorem IsLineStart.getLast?_ne (h : IsLineStart number before) :
    before.getLast? ≠ some '\r' := by
  rcases h.2 with rfl | ⟨init, rfl⟩
  · simp
  · simp

/-- A text can be cut behind any of its line feeds. -/
theorem exists_isLineStart (chars : List Char) (count : Nat) (h : count ≤ chars.count '\n') :
    ∃ before rest, chars = before ++ rest ∧ IsLineStart (count + 1) before := by
  induction count with
  | zero => exact ⟨[], chars, rfl, rfl, .inl rfl⟩
  | succ count ih =>
    obtain ⟨before, rest, rfl, hcount, -⟩ := ih (by omega)
    -- One more feed is behind what was cut off; the first of them ends the next line.
    have hmem : '\n' ∈ rest := by
      rw [List.count_append] at h
      exact List.count_pos_iff.mp (by omega)
    obtain ⟨line, behind, rfl, hline⟩ := List.eq_append_cons_of_mem hmem
    refine ⟨before ++ (line ++ ['\n']), behind, by simp, ?_, .inr ⟨before ++ line, by simp⟩⟩
    rw [List.count_append, List.count_append, List.count_eq_zero_of_not_mem hline]
    simp
    omega

/-- A line starts in front of every place that has as many feeds in front of it. -/
theorem IsLineStart.width_le {back : List Char} (hcut : before ++ rest = front ++ back)
    (h : IsLineStart first before) (hle : first ≤ front.count '\n' + 1) :
    width before ≤ width front := by
  by_contra hlt
  obtain ⟨middle, rfl, -⟩ := exists_between hcut.symm (by omega)
  have hcount := h.1
  rw [List.count_append] at hcount
  -- What the start has more than the front would end in a feed that the front does not count.
  have hmiddle : middle ≠ [] := by
    rintro rfl
    simp at hlt
  obtain ⟨init, c, rfl⟩ := (List.eq_nil_or_concat' middle).resolve_left hmiddle
  rcases h.2 with hnil | ⟨prior, hprior⟩
  · simp at hnil
  · rw [← List.append_assoc] at hprior
    obtain ⟨-, hc⟩ := List.append_inj' hprior rfl
    rw [hc, List.count_append] at hcount
    simp at hcount
    omega

/-- A line starts behind every character that is on an earlier line. -/
theorem IsLineStart.add_size_le {c : Char} {back : List Char}
    (hcut : before ++ rest = front ++ c :: back) (h : IsLineStart first before)
    (hlt : front.count '\n' + 1 < first) : width front + c.utf8Size ≤ width before := by
  by_contra hgt
  have hends : before ++ rest = (front ++ [c]) ++ back := by
    rw [hcut]
    simp
  obtain ⟨middle, hmiddle, -⟩ := exists_between hends (by simp; omega)
  have hcount := h.1
  rcases List.eq_nil_or_concat' middle with rfl | ⟨init, d, rfl⟩
  · rw [List.append_nil] at hmiddle
    rw [← hmiddle] at hgt
    simp at hgt
  · -- Then the start is in front of the character, and its feeds are as well.
    rw [← List.append_assoc] at hmiddle
    obtain ⟨rfl, -⟩ := List.append_inj' hmiddle rfl
    rw [List.count_append] at hlt
    omega

/-- A line with its terminator ends where the next line starts, or with the text. -/
theorem exists_endWithTerminator (hne : chars ≠ []) (hpos : 1 ≤ number)
    (hle : number ≤ chars.count '\n' + 1) :
    ∃ front back, chars = front ++ back ∧
      (LineIndex.ofChars chars).endWithTerminator? number = some (width front) ∧
      (IsLineStart (number + 1) front ∨ back = []) := by
  rcases Nat.lt_or_ge (chars.count '\n') number with hlast | hfeed
  · obtain rfl : number = chars.count '\n' + 1 := by omega
    exact ⟨chars, [], (List.append_nil _).symm, LineIndex.endWithTerminator?_last hne, .inr rfl⟩
  · obtain ⟨front, back, rfl, hstart⟩ := exists_isLineStart chars number hfeed
    refine ⟨front, back, rfl, ?_, .inl hstart⟩
    -- The next line is not the first, so it starts behind the feed of this one.
    obtain ⟨hcount, rfl | ⟨init, rfl⟩⟩ := hstart
    · simp at hcount
      omega
    · rw [List.count_append, List.count_singleton_self] at hcount
      have hend := LineIndex.endWithTerminator?_append init back
      rw [List.append_assoc, List.singleton_append, show number = init.count '\n' + 1 by omega,
        hend, width_append]
      rfl

/-! ## Blocks -/

/-- A line ends where its terminator begins: a feed, a return with a feed, or nothing at the end of
the text. A return in front of a feed belongs to the terminator. -/
def EndsLine (body after : List Char) : Prop :=
  after = [] ∨ (∃ rest, after = '\n' :: rest ∧ body.getLast? ≠ some '\r') ∨
    ∃ rest, after = '\r' :: '\n' :: rest

/-- The text in front of the lines `first` to `last`, the lines without the last terminator, and
what is behind. -/
structure IsBlock (chars : List Char) (first last : Nat) (before body after : List Char) : Prop where
  nonempty : chars ≠ []
  text : chars = before ++ (body ++ after)
  start : IsLineStart first before
  feeds : first + body.count '\n' = last
  ending : EndsLine body after

/-- The content of the first line of a text, in front of its terminator. -/
theorem exists_endsLine (chars : List Char) :
    ∃ content after, chars = content ++ after ∧ content.count '\n' = 0 ∧ EndsLine content after := by
  -- A return counts as part of the terminator only if a feed comes right behind it.
  by_cases hmem : '\n' ∈ chars
  · obtain ⟨line, behind, rfl, hline⟩ := List.eq_append_cons_of_mem hmem
    have hcount := List.count_eq_zero_of_not_mem hline
    by_cases hreturn : line.getLast? = some '\r'
    · obtain ⟨content, rfl⟩ := List.getLast?_eq_some_iff.mp hreturn
      refine ⟨content, '\r' :: '\n' :: behind, by simp, ?_, .inr (.inr ⟨behind, rfl⟩)⟩
      rw [List.count_append] at hcount
      omega
    · exact ⟨line, '\n' :: behind, rfl, hcount, .inr (.inl ⟨behind, rfl, hreturn⟩)⟩
  · exact ⟨chars, [], by simp, List.count_eq_zero_of_not_mem hmem, .inl rfl⟩

/-- Text in front of a line does not change how the line ends, unless it is a return right in front of
the feed. -/
theorem EndsLine.append_left (h : EndsLine body after) (hfront : front.getLast? ≠ some '\r') :
    EndsLine (front ++ body) after := by
  rcases h with hnil | ⟨rest, hafter, hreturn⟩ | hreturn
  · exact .inl hnil
  · refine .inr (.inl ⟨rest, hafter, ?_⟩)
    cases body with
    | nil => simpa using hfront
    | cons c body => simpa [List.getLast?_append] using hreturn
  · exact .inr (.inr hreturn)

/-- There is a block for all line numbers in order and in range. -/
theorem exists_isBlock (hne : chars ≠ []) (hfirst : 1 ≤ first) (hle : first ≤ last)
    (hlast : last ≤ chars.count '\n' + 1) : ∃ before body after,
      IsBlock chars first last before body after := by
  -- The text is cut in front of the first line, in front of the last, and behind its content.
  obtain ⟨before, rest, rfl, hstart⟩ := exists_isLineStart chars (first - 1) (by omega)
  rw [Nat.sub_add_cancel hfirst] at hstart
  have hbefore := hstart.1
  rw [List.count_append] at hlast
  obtain ⟨lines, final, rfl, hlines⟩ := exists_isLineStart rest (last - first) (by omega)
  obtain ⟨content, after, rfl, hcontent, hending⟩ := exists_endsLine final
  -- If the last line is empty, a feed is in front of its terminator, not a return.
  refine ⟨before, lines ++ content, after, hne, by simp, hstart, ?_,
    hending.append_left hlines.getLast?_ne⟩
  have := hlines.1
  rw [List.count_append]
  omega

namespace IsBlock

variable (h : IsBlock chars first last before body after)
include h

theorem first_pos : 1 ≤ first := by
  have := h.start.1
  omega

theorem last_le : last ≤ chars.count '\n' + 1 := by
  have hbefore := h.start.1
  have hfeeds := h.feeds
  rw [h.text, List.count_append, List.count_append]
  omega

theorem first_le_last : first ≤ last := by
  have := h.feeds
  omega

/-- A return in front of a feed belongs to the terminator, not to the block in front of it. -/
theorem getLast?_ne (hafter : after = '\n' :: rest) : (before ++ body).getLast? ≠ some '\r' := by
  rcases h.ending with hnil | ⟨_, -, hreturn⟩ | ⟨_, hreturn⟩
  · rw [hafter] at hnil
    cases hnil
  · cases body with
    | nil => simpa using h.start.getLast?_ne
    | cons c body => simpa [List.getLast?_append] using hreturn
  · rw [hafter] at hreturn
    exact absurd (List.cons.inj hreturn).1 (by decide)

/-- The first byte of a block is where its first line starts. -/
theorem startOfLine?_eq :
    (LineIndex.ofChars chars).startOfLine? first = some (width before) := by
  have hhas := (LineIndex.hasLine_iff h.nonempty).mpr
    ⟨h.first_pos, Nat.le_trans h.first_le_last h.last_le⟩
  rw [LineIndex.startOfLine?, if_pos hhas]
  -- The first line starts with the text, any other behind the feed of the line before it.
  obtain ⟨hcount, rfl | ⟨init, rfl⟩⟩ := h.start
  · rw [if_pos (by simpa using hcount.symm)]
    rfl
  · rw [List.count_append, List.count_singleton_self] at hcount
    rw [if_neg (by omega)]
    have hfeed := LineIndex.getElem?_feeds init (body ++ after)
    rw [show init ++ '\n' :: (body ++ after) = chars by rw [h.text]; simp] at hfeed
    rw [show first - 2 = init.count '\n' by omega, hfeed, width_append]
    rfl

/-- The end of a block is the end of the content of its last line. -/
theorem endOfLine?_eq :
    (LineIndex.ofChars chars).endOfLine? chars last = some (width before + width body) := by
  have hhas := (LineIndex.hasLine_iff h.nonempty).mpr
    ⟨Nat.le_trans h.first_pos h.first_le_last, h.last_le⟩
  have hnumber : last - 1 = (before ++ body).count '\n' := by
    have hbefore := h.start.1
    have hfeeds := h.feeds
    rw [List.count_append]
    omega
  have htext : chars = (before ++ body) ++ after := by rw [h.text, List.append_assoc]
  rw [LineIndex.endOfLine?, if_pos hhas, ← width_append, hnumber]
  rcases h.ending with hnil | ⟨rest, hafter, -⟩ | ⟨rest, hafter⟩
  · rw [hnil, List.append_nil] at htext
    rw [LineIndex.getElem?_feeds_eq_none (Nat.le_of_eq (by rw [htext])), LineIndex.size_ofChars, htext]
  · rw [hafter] at htext
    have hfeed := LineIndex.getElem?_feeds (before ++ body) rest
    rw [← htext] at hfeed
    rw [hfeed]
    -- No return is in front of the feed, be it in the block or in front of it.
    refine if_neg ?_
    rintro ⟨hwide, hchar⟩
    rw [htext] at hchar
    exact h.getLast?_ne hafter (getLast?_of_charAt?_eq_some rfl (by omega) hchar)
  · have hfeed := LineIndex.getElem?_feeds (before ++ body ++ ['\r']) rest
    rw [show (before ++ body ++ ['\r']) ++ '\n' :: rest = chars by rw [htext, hafter]; simp,
      show (before ++ body ++ ['\r']).count '\n' = (before ++ body).count '\n' by simp,
      show width (before ++ body ++ ['\r']) = width (before ++ body) + 1 from width_append _ _]
      at hfeed
    rw [hfeed]
    refine if_pos ⟨by omega, charAt?_eq_some_iff.mpr ⟨before ++ body, '\n' :: rest, ?_, by simp⟩⟩
    rw [htext, hafter]

/-- The bytes of a block are in the text, so the index gives them. -/
theorem byteRange?_eq : (LineIndex.ofChars chars).byteRange? chars first last =
    some ⟨width before, width before + width body⟩ := by
  have hfirst := h.first_pos
  have hle := h.first_le_last
  have hlast := h.last_le
  have hstop : width before + width body ≤ width chars := by
    rw [h.text, width_append, width_append]
    omega
  rw [LineIndex.byteRange?, LineIndex.lineCount_ofChars h.nonempty, if_neg (by omega),
    h.startOfLine?_eq, h.endOfLine?_eq, LineIndex.size_ofChars]
  exact if_pos ⟨Nat.le_add_right _ _, hstop⟩

/-- A block holds all bytes of its lines from the first on. -/
theorem start_le {back : List Char} (hcut : chars = front ++ back)
    (hline : first ≤ front.count '\n' + 1) : width before ≤ width front :=
  h.start.width_le (h.text.symm.trans hcut) hline

/-- What is behind a block begins with its terminator: a part of that without a feed is the return
of the terminator. -/
theorem eq_return_of_append {middle back : List Char} (hafter : after = middle ++ back)
    (hne : middle ≠ []) (hfeed : '\n' ∉ middle) : middle = ['\r'] ∧ ∃ rest, back = '\n' :: rest := by
  obtain ⟨c, tail, rfl⟩ := List.exists_cons_of_ne_nil hne
  rcases h.ending with hnil | ⟨rest, hfirst, -⟩ | ⟨rest, hfirst⟩
  · rw [hnil] at hafter
    cases hafter
  · rw [hfirst] at hafter
    obtain ⟨rfl, -⟩ := List.cons.inj hafter
    exact absurd List.mem_cons_self hfeed
  · rw [hfirst] at hafter
    obtain ⟨rfl, htail⟩ := List.cons.inj hafter
    cases tail with
    | nil => exact ⟨rfl, rest, htail.symm⟩
    | cons d tail =>
      obtain ⟨rfl, -⟩ := List.cons.inj htail
      exact absurd (List.mem_cons_of_mem _ List.mem_cons_self) hfeed

/-- A block holds a character on one of its lines, unless that is part of the terminator of the
last. -/
theorem le_stop {c : Char} {back : List Char} (hcut : chars = front ++ c :: back)
    (hline : front.count '\n' + 1 ≤ last) (hfeed : c ≠ '\n') (hreturn : c ≠ '\r') :
    width front + c.utf8Size ≤ width before + width body := by
  by_contra hlt
  have hends : (before ++ body) ++ after = (front ++ [c]) ++ back := by
    rw [List.append_assoc, ← h.text, hcut]
    simp
  obtain ⟨middle, hmiddle, hrest⟩ := exists_between hends (by simp; omega)
  have hne : middle ≠ [] := by
    rintro rfl
    rw [List.append_nil] at hmiddle
    rw [← width_append, ← hmiddle] at hlt
    simp at hlt
  obtain ⟨init, d, rfl⟩ := (List.eq_nil_or_concat' middle).resolve_left hne
  rw [← List.append_assoc] at hmiddle
  obtain ⟨rfl, hc⟩ := List.append_inj' hmiddle rfl
  obtain rfl : c = d := by simpa using hc
  have hbefore := h.start.1
  have hfeeds := h.feeds
  rw [List.count_append, List.count_append] at hline
  -- Behind the block the terminator begins, and its feed would be in front of the character.
  have hclean : '\n' ∉ init ++ [c] := by
    rw [List.mem_append, List.mem_singleton]
    rintro (hmem | rfl)
    · have := List.count_pos_iff.mpr hmem
      omega
    · exact hfeed rfl
  obtain ⟨hreturned, -⟩ := h.eq_return_of_append hrest hne hclean
  obtain ⟨-, hlast⟩ := List.append_inj' (hreturned.trans (List.nil_append _).symm) rfl
  exact hreturn (List.cons.inj hlast).1

/-- A block that ends with a further line ends further back. -/
theorem stop_le_stop {first' last' : Nat} {before' body' after' : List Char}
    (h' : IsBlock chars first' last' before' body' after') (hle : last ≤ last') :
    width before + width body ≤ width before' + width body' := by
  by_contra hlt
  have hends : (before' ++ body') ++ after' = (before ++ body) ++ after := by
    rw [List.append_assoc, List.append_assoc, ← h.text, ← h'.text]
  obtain ⟨middle, hmiddle, hrest⟩ := exists_between hends (by rw [width_append, width_append]; omega)
  -- No line is between the two ends, so all that could be there is the return of a terminator.
  have hcount : (before ++ body).count '\n' = (before' ++ body').count '\n' + middle.count '\n' := by
    rw [hmiddle, List.count_append]
  have hbefore := h.start.1
  have hfeeds := h.feeds
  have hbefore' := h'.start.1
  have hfeeds' := h'.feeds
  rw [List.count_append, List.count_append] at hcount
  have hne : middle ≠ [] := by
    rintro rfl
    rw [List.append_nil] at hmiddle
    rw [← width_append, ← width_append, hmiddle] at hlt
    exact hlt (Nat.le_refl _)
  obtain ⟨rfl, rest, hafter⟩ :=
    h'.eq_return_of_append hrest hne (List.count_eq_zero.mp (by omega))
  exact h.getLast?_ne hafter (by rw [hmiddle, List.getLast?_concat])

/-- A block has all blocks of its lines in it. -/
theorem exists_inside {first' last' : Nat} (hfirst : first ≤ first') (hle : first' ≤ last')
    (hlast : last' ≤ last) : ∃ front lines back, body = front ++ (lines ++ back) ∧
      IsBlock chars first' last' (before ++ front) lines (back ++ after) := by
  have hpos := h.first_pos
  have hbound := h.last_le
  obtain ⟨before', lines, after', hinner⟩ :=
    exists_isBlock h.nonempty (by omega) hle (Nat.le_trans hlast hbound)
  -- The inner block begins behind the start of the outer one, and ends in front of its end.
  have hstart := hinner.start.1
  obtain ⟨front, rfl, hrest⟩ := exists_between (h.text.symm.trans hinner.text)
    (h.start_le hinner.text (by omega))
  have hends : (front ++ lines) ++ after' = body ++ after := by
    rw [List.append_assoc, hrest]
  have hstop := hinner.stop_le_stop h hlast
  rw [width_append] at hstop
  obtain ⟨back, hbody, rfl⟩ := exists_between hends (by rw [width_append]; omega)
  exact ⟨front, lines, back, by rw [hbody, List.append_assoc], hinner⟩

theorem sliceable : Sliceable ⟨width before, width before + width body⟩ chars :=
  sliceable_iff.mpr ⟨before, body, after, h.text, rfl, rfl⟩

theorem slice_eq : slice ⟨width before, width before + width body⟩ chars = body := by
  rw [h.text, slice_append]

end IsBlock

end ExactEdit
