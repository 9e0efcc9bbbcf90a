import ExactEdit.Proofs.Source.Span

/-! # Coordinates there and back

An offset and a position name the same place of a text in two ways, and the text in front of the
place leads to both: its width is the offset, its feeds tell the line, and the characters behind the
last of them the column. What is read off an offset therefore leads back to it, and positions in
reading order have their offsets in order.

There is one place of which this fails. A return in front of a feed is no part of its line, so the
place between the two has a column further right than any that the line has.

## Main definitions

* `Position.IsBehind` — a position is that of the place behind a front
* `Position.IsBefore` — reading order
* `Text.IsInTerminator` — the place between the return and the feed of a terminator

## Main results

* `Source.positionOf_eq_ok_iff`, `Source.offsetOf_eq_ok_iff` — positions and offsets by the text in
  front of them
* `Source.offsetOf_positionOf`, `Source.offsetOf_positionOf_of_isInTerminator` — where the position
  of an offset leads
* `Source.coordinates_decode` — which positions have an offset, and in which order
-/

namespace ExactEdit

open Text

variable {chars before before' body after front back middle rest rest' : List Char}
variable {left right : List Char} {number offset offset' : Nat} {position other : Position}

/-- Of the fronts of one text a line starts behind a single one. -/
theorem IsLineStart.unique (hcut : before ++ rest = before' ++ rest')
    (h : IsLineStart number before) (h' : IsLineStart number before') : before = before' ∧ rest = rest' := by
  have hle := h.width_le hcut (Nat.le_of_eq h'.1.symm)
  have hge := h'.width_le hcut.symm (Nat.le_of_eq h.1.symm)
  exact front_eq_of_width_eq hcut (Nat.le_antisymm hle hge)

/-! ## Positions of fronts -/

namespace Position

/-- A position is that of the place behind a front: its line starts in the front, and its column
counts the characters since. -/
def IsBehind (position : Position) (front : List Char) : Prop :=
  ∃ before line, front = before ++ line ∧ IsLineStart position.line before ∧
    line.count '\n' = 0 ∧ position.column = line.length + 1

/-- Reading order: on an earlier line, or further left on the same one. -/
def IsBefore (position other : Position) : Prop :=
  position.line < other.line ∨ position.line = other.line ∧ position.column < other.column

theorem IsBefore.ne (h : position.IsBefore other) : position ≠ other := by
  rintro rfl
  rcases h with hline | ⟨-, hcolumn⟩
  · exact Nat.lt_irrefl _ hline
  · exact Nat.lt_irrefl _ hcolumn

theorem IsBefore.asymm (h : position.IsBefore other) : ¬ other.IsBefore position := by
  intro h'
  rcases h with hline | ⟨hsame, hcolumn⟩
  · rcases h' with hline' | ⟨hsame', -⟩
    · omega
    · omega
  · rcases h' with hline' | ⟨-, hcolumn'⟩
    · omega
    · omega

theorem IsBehind.unique (h : position.IsBehind front) (h' : other.IsBehind front) :
    position = other := by
  obtain ⟨before, line, rfl, hstart, hline, hcolumn⟩ := h
  obtain ⟨before', line', hcut, hstart', hline', hcolumn'⟩ := h'
  have hnumber : position.line = other.line := by
    have hcount := congrArg (List.count '\n') hcut
    have hbefore := hstart.1
    have hbefore' := hstart'.1
    rw [List.count_append, List.count_append] at hcount
    omega
  rw [hnumber] at hstart
  obtain ⟨-, rfl⟩ := hstart.unique hcut hstart'
  obtain ⟨number, column⟩ := position
  obtain ⟨number', column'⟩ := other
  rw [Position.mk.injEq]
  exact ⟨hnumber, hcolumn.trans hcolumn'.symm⟩

/-- Of two places the one with more text in front of it comes later in reading order. -/
theorem IsBehind.isBefore (h : position.IsBehind front) (h' : other.IsBehind (front ++ middle))
    (hne : middle ≠ []) : position.IsBefore other := by
  obtain ⟨before, line, rfl, hstart, hline, hcolumn⟩ := h
  obtain ⟨before', line', hcut, hstart', hline', hcolumn'⟩ := h'
  have hbefore := hstart.1
  have hbefore' := hstart'.1
  have hcount := congrArg (List.count '\n') hcut
  rw [List.count_append, List.count_append, List.count_append] at hcount
  by_cases hfeed : '\n' ∈ middle
  · -- A feed between the two places ends the line of the first.
    have hpos := List.count_pos_iff.mpr hfeed
    left
    omega
  · -- Otherwise both are on one line, and so many characters apart.
    have hnone := List.count_eq_zero_of_not_mem hfeed
    have hnumber : position.line = other.line := by omega
    rw [hnumber] at hstart
    rw [List.append_assoc] at hcut
    obtain ⟨-, rfl⟩ := hstart.unique hcut hstart'
    have hlength := List.length_pos_of_ne_nil hne
    rw [List.length_append] at hcolumn'
    right
    exact ⟨hnumber, by omega⟩

end Position

/-- A place in the content of a line, by the number of the line and the characters in front. -/
theorem IsBlock.isBehind
    (h : IsBlock chars position.line position.line before (left ++ right) after)
    (hcolumn : position.column = left.length + 1) : position.IsBehind (before ++ left) := by
  have hfeeds := h.feeds
  rw [List.count_append] at hfeeds
  exact ⟨before, left, rfl, h.start, by omega, hcolumn⟩

/-! ## Places in terminators -/

/-- The offset of the place between the return and the feed of a terminator. -/
def Text.IsInTerminator (offset : Nat) (chars : List Char) : Prop :=
  ∃ front back, chars = front ++ '\r' :: '\n' :: back ∧ width front + 1 = offset

theorem Text.isInTerminator_append_iff (front back : List Char) :
    IsInTerminator (width front) (front ++ back) ↔
      front.getLast? = some '\r' ∧ back.head? = some '\n' := by
  constructor
  · rintro ⟨init, rest, hcut, hwidth⟩
    have hends : (init ++ ['\r']) ++ '\n' :: rest = front ++ back := by
      rw [hcut]
      simp
    obtain ⟨rfl, rfl⟩ := front_eq_of_width_eq hends (by rw [← hwidth, width_append]; rfl)
    exact ⟨List.getLast?_concat, rfl⟩
  · rintro ⟨hreturn, hfeed⟩
    obtain ⟨init, rfl⟩ := List.getLast?_eq_some_iff.mp hreturn
    obtain ⟨rest, rfl⟩ := List.head?_eq_some_iff.mp hfeed
    exact ⟨init, rest, by simp, by rw [width_append]; rfl⟩

/-- A place in the content of a line, or at its end, is in no terminator. -/
theorem IsBlock.not_isInTerminator
    (h : IsBlock chars number number before (left ++ right) after) :
    ¬ IsInTerminator (width (before ++ left)) chars := by
  have htext : chars = (before ++ left) ++ (right ++ after) := by
    rw [h.text]
    simp
  rw [htext, isInTerminator_append_iff]
  rintro ⟨hreturn, hfeed⟩
  -- The feed is not in the line, so it comes first behind it, and the return is in front of it.
  cases right with
  | nil =>
    obtain ⟨rest, rfl⟩ := List.head?_eq_some_iff.mp hfeed
    rw [List.append_nil] at h
    exact h.getLast?_ne rfl hreturn
  | cons c right =>
    obtain rfl : c = '\n' := by simpa using hfeed
    have hfeeds := h.feeds
    rw [List.count_append, List.count_cons_self] at hfeeds
    omega

/-- A place is in the content of its line or at the end of that, or in its terminator. -/
theorem Position.IsBehind.exists_isBlock (h : position.IsBehind front) (hne : front ++ back ≠ []) :
    ∃ before body after, IsBlock (front ++ back) position.line position.line before body after ∧
      ((∃ left right, body = left ++ right ∧ front = before ++ left ∧
        position.column = left.length + 1) ∨
      (IsInTerminator (width front) (front ++ back) ∧ position.column = body.length + 2)) := by
  obtain ⟨before, line, rfl, hstart, hline, hcolumn⟩ := h
  obtain ⟨content, after, hcontent, hcount, hending⟩ := exists_endsLine (line ++ back)
  have hblock : IsBlock (before ++ line ++ back) position.line position.line before content after :=
    ⟨hne, by rw [List.append_assoc, hcontent], hstart, by omega, hending⟩
  refine ⟨before, content, after, hblock, ?_⟩
  rcases List.append_eq_append_iff.mp hcontent with ⟨right, rfl, -⟩ | ⟨middle, rfl, hafter⟩
  · exact .inl ⟨line, right, rfl, rfl, hcolumn⟩
  · by_cases hmiddle : middle = []
    · rw [hmiddle, List.append_nil] at hcolumn ⊢
      exact .inl ⟨content, [], (List.append_nil _).symm, rfl, hcolumn⟩
    · -- More than the content is in front of the place, which can only be the return.
      have hclean : '\n' ∉ middle := by
        rw [List.count_append] at hline
        exact List.count_eq_zero.mp (by omega)
      obtain ⟨rfl, rest, rfl⟩ := hblock.eq_return_of_append hafter hmiddle hclean
      refine .inr ⟨(isInTerminator_append_iff _ _).mpr ⟨?_, rfl⟩, by simpa using hcolumn⟩
      rw [← List.append_assoc, List.getLast?_concat]

/-! ## Positions and offsets -/

namespace Source

theorem positionOf_of_isBehind (hne : front ++ back ≠ []) (h : position.IsBehind front) :
    (ofChars (front ++ back)).positionOf (width front) = .ok position := by
  obtain ⟨before, line, hcut, hstart, hline, hposition⟩ := positionOf_append hne
  have hbehind : Position.IsBehind ⟨front.count '\n' + 1, line.length + 1⟩ front :=
    ⟨before, line, hcut, hstart, hline, rfl⟩
  rw [hposition, h.unique hbehind]

/-- An offset has a position exactly if it splits no character of a text that is not empty. -/
theorem exists_positionOf_iff :
    (∃ position, (ofChars chars).positionOf offset = .ok position) ↔
      chars ≠ [] ∧ isBoundary offset chars = true := by
  constructor
  · rintro ⟨position, h⟩
    rw [positionOf, size_ofChars, chars_ofChars] at h
    split at h
    · cases h
    · next hsize =>
      split at h
      · next hboundary =>
        refine ⟨?_, hboundary⟩
        rintro rfl
        exact hsize (.inr rfl)
      · cases h
  · rintro ⟨hne, hboundary⟩
    obtain ⟨front, back, rfl, rfl⟩ := isBoundary_iff.mp hboundary
    obtain ⟨_, _, -, -, -, hposition⟩ := positionOf_append hne
    exact ⟨_, hposition⟩

/-- The position of an offset is told by the text in front of it. -/
theorem positionOf_eq_ok_iff :
    (ofChars chars).positionOf offset = .ok position ↔
      chars ≠ [] ∧ ∃ front back, chars = front ++ back ∧ width front = offset ∧
        position.IsBehind front := by
  constructor
  · intro h
    obtain ⟨hne, hboundary⟩ := exists_positionOf_iff.mp ⟨position, h⟩
    obtain ⟨front, back, rfl, rfl⟩ := isBoundary_iff.mp hboundary
    obtain ⟨before, line, hcut, hstart, hline, hposition⟩ := positionOf_append hne
    obtain rfl := Except.ok.inj (hposition.symm.trans h)
    exact ⟨hne, front, back, rfl, rfl, before, line, hcut, hstart, hline, rfl⟩
  · rintro ⟨hne, front, back, rfl, rfl, hbehind⟩
    exact positionOf_of_isBehind hne hbehind

/-- The offset of a position is looked up in the content of its line. -/
theorem offsetOf_of_isBlock (h : IsBlock chars position.line position.line before body after) :
    (ofChars chars).offsetOf position =
      if position.column = 0 ∨ body.length + 1 < position.column then
        .error (.columnOutOfBounds position.line position.column body.length)
      else .ok (width before + width (body.take (position.column - 1))) := by
  rw [offsetOf, lineSpan_eq_of_isBlock h]
  simp only [bind, Except.bind, chars_ofChars, h.slice_eq]

/-- A position has an offset exactly if its line has its column, the column behind the last
character included. -/
theorem offsetOf_eq_ok_iff :
    (ofChars chars).offsetOf position = .ok offset ↔
      ∃ before left right after,
        IsBlock chars position.line position.line before (left ++ right) after ∧
        position.column = left.length + 1 ∧ width (before ++ left) = offset := by
  constructor
  · intro h
    obtain ⟨span, hspan, -⟩ := Result.bind_eq_ok_iff.mp h
    obtain ⟨before, body, after, hblock, -⟩ := lineSpan_eq_ok_iff.mp hspan
    rw [offsetOf_of_isBlock hblock] at h
    split at h
    · cases h
    · next hcolumn =>
      -- The column cuts the content of the line in two.
      have hcut := List.take_append_drop (position.column - 1) body
      refine ⟨before, body.take (position.column - 1), body.drop (position.column - 1), after,
        hcut.symm ▸ hblock, ?_, ?_⟩
      · rw [List.length_take]
        omega
      · rw [width_append]
        exact Except.ok.inj h
  · rintro ⟨before, left, right, after, hblock, hcolumn, rfl⟩
    rw [offsetOf_of_isBlock hblock, if_neg (by rw [List.length_append]; omega), hcolumn,
      Nat.add_sub_cancel, List.take_left, width_append]

/-- A position leads to an offset that has this position. -/
theorem positionOf_offsetOf (h : (ofChars chars).offsetOf position = .ok offset) :
    (ofChars chars).positionOf offset = .ok position := by
  obtain ⟨before, left, right, after, hblock, hcolumn, rfl⟩ := offsetOf_eq_ok_iff.mp h
  have htext : chars = (before ++ left) ++ (right ++ after) := by
    rw [hblock.text]
    simp
  exact positionOf_eq_ok_iff.mpr
    ⟨hblock.nonempty, before ++ left, right ++ after, htext, rfl, hblock.isBehind hcolumn⟩

/-- The position of an offset leads back to it, unless the offset is in a terminator. -/
theorem offsetOf_positionOf (h : (ofChars chars).positionOf offset = .ok position)
    (houtside : ¬ IsInTerminator offset chars) :
    (ofChars chars).offsetOf position = .ok offset := by
  obtain ⟨hne, front, back, rfl, rfl, hbehind⟩ := positionOf_eq_ok_iff.mp h
  obtain ⟨before, body, after, hblock, ⟨left, right, rfl, rfl, hcolumn⟩ | ⟨hinside, -⟩⟩ :=
    hbehind.exists_isBlock hne
  · exact offsetOf_eq_ok_iff.mpr ⟨before, left, right, after, hblock, hcolumn, rfl⟩
  · exact absurd hinside houtside

/-- The column of an offset in a terminator is one more than its line has. -/
theorem offsetOf_positionOf_of_isInTerminator
    (h : (ofChars chars).positionOf offset = .ok position) (hinside : IsInTerminator offset chars) :
    (ofChars chars).offsetOf position =
      .error (.columnOutOfBounds position.line position.column (position.column - 2)) := by
  obtain ⟨hne, front, back, rfl, rfl, hbehind⟩ := positionOf_eq_ok_iff.mp h
  obtain ⟨before, body, after, hblock, ⟨left, right, rfl, rfl, -⟩ | ⟨-, hcolumn⟩⟩ :=
    hbehind.exists_isBlock hne
  · exact absurd hinside hblock.not_isInTerminator
  · rw [offsetOf_of_isBlock hblock, if_pos (by omega), hcolumn, Nat.add_sub_cancel]

/-! ## Reading order -/

/-- The further an offset is in the text, the later in reading order is its position. -/
theorem isBefore_of_lt (h : (ofChars chars).positionOf offset = .ok position)
    (h' : (ofChars chars).positionOf offset' = .ok other) (hlt : offset < offset') :
    position.IsBefore other := by
  obtain ⟨-, front, back, rfl, rfl, hbehind⟩ := positionOf_eq_ok_iff.mp h
  obtain ⟨-, front', back', hcut, rfl, hbehind'⟩ := positionOf_eq_ok_iff.mp h'
  obtain ⟨middle, rfl, -⟩ := exists_between hcut (Nat.le_of_lt hlt)
  refine hbehind.isBefore hbehind' ?_
  rintro rfl
  rw [List.append_nil] at hlt
  exact Nat.lt_irrefl _ hlt

/-- A position is that of the offset it leads to. It leads to one exactly if its line is one of the
text, and its column one of the line or the one behind. Offsets are in the reading order of their
positions, so two positions do not share one. -/
theorem coordinates_decode (chars : List Char) :
    (∀ position offset, (ofChars chars).offsetOf position = .ok offset →
      (ofChars chars).positionOf offset = .ok position) ∧
    (∀ position : Position, (∃ offset, (ofChars chars).offsetOf position = .ok offset) ↔
      (1 ≤ position.line ∧ position.line ≤ (ofChars chars).lineCount) ∧
      ∃ before content after, IsBlock chars position.line position.line before content after ∧
        1 ≤ position.column ∧ position.column ≤ content.length + 1) ∧
    ∀ position other offset offset', (ofChars chars).offsetOf position = .ok offset →
      (ofChars chars).offsetOf other = .ok offset' →
        (position.IsBefore other ↔ offset < offset') ∧ (offset = offset' → position = other) := by
  refine ⟨fun _ _ => positionOf_offsetOf, fun position => ⟨?_, ?_⟩, ?_⟩
  · rintro ⟨offset, h⟩
    obtain ⟨before, left, right, after, hblock, hcolumn, -⟩ := offsetOf_eq_ok_iff.mp h
    refine ⟨⟨hblock.first_pos, ?_⟩, before, left ++ right, after, hblock, by omega, ?_⟩
    · rw [lineCount_ofChars hblock.nonempty]
      exact hblock.last_le
    · rw [List.length_append]
      omega
  · rintro ⟨-, before, content, after, hblock, hpos, hle⟩
    exact ⟨_, by rw [offsetOf_of_isBlock hblock, if_neg (by omega)]⟩
  · intro position other offset offset' h h'
    have hplace := positionOf_offsetOf h
    have hplace' := positionOf_offsetOf h'
    have hsame : offset = offset' → position = other := by
      rintro rfl
      exact Except.ok.inj (hplace.symm.trans hplace')
    refine ⟨⟨fun hbefore => ?_, isBefore_of_lt hplace hplace'⟩, hsame⟩
    -- Of the three orders that two offsets can be in, only one goes with that of the positions.
    rcases Nat.lt_trichotomy offset offset' with hlt | heq | hgt
    · exact hlt
    · exact absurd (hsame heq) hbefore.ne
    · exact absurd (isBefore_of_lt hplace' hplace hgt) hbefore.asymm

/-- The second line of the text below begins behind a return and a feed, and in front of these the
column behind a character of two bytes is the last. -/
theorem twoByteLine_decodes :
    (ofString "aé\r\nb").offsetOf ⟨1, 3⟩ = .ok 3 ∧ (ofString "aé\r\nb").positionOf 3 = .ok ⟨1, 3⟩ ∧
    (ofString "aé\r\nb").offsetOf ⟨2, 1⟩ = .ok 5 ∧ Position.IsBefore ⟨1, 3⟩ ⟨2, 1⟩ := by
  have hend : (ofString "aé\r\nb").offsetOf ⟨1, 3⟩ = .ok 3 := by decide +kernel
  have hnext : (ofString "aé\r\nb").offsetOf ⟨2, 1⟩ = .ok 5 := by decide +kernel
  obtain ⟨hdecode, -, horder⟩ := coordinates_decode "aé\r\nb".toList
  exact ⟨hend, hdecode _ _ hend, hnext, (horder _ _ _ _ hend hnext).1.mpr (by decide)⟩

end Source

end ExactEdit
