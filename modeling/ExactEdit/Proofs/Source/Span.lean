import ExactEdit.Proofs.Result
import ExactEdit.Proofs.Source.Block

/-! # Coordinates of a source

A source carries the index of its own text, so every coordinate it is asked for in range is found:
spans and windows of lines, the line of a byte, the position of a boundary. What is cut out of the
text on the way is always a piece of it.

## Main results

* `Source.lineSpan_eq_ok_iff` — the span of lines is the place of their block
* `Source.exists_lineSpan` — it is there for all line numbers in order and in range
* `Source.positionOf_append` — the position behind a front
* `Source.window_eq_ok_iff`, `Source.window_eq_stopped` — a window shows lines, or the program stops
* `Source.exists_window` — a window around lines in range is found, if its last line has a number
-/

namespace ExactEdit.Source

open Text Result

variable {chars before body after front back : List Char} {first last line radius : Nat}
variable {span : ByteRange}

@[simp] theorem chars_ofChars (chars : List Char) : (ofChars chars).chars = chars := rfl

@[simp] theorem index_ofChars (chars : List Char) :
    (ofChars chars).index = LineIndex.ofChars chars := rfl

@[simp] theorem size_ofChars (chars : List Char) : (ofChars chars).size = width chars :=
  LineIndex.size_ofChars chars

theorem lineCount_ofChars (hne : chars ≠ []) :
    (ofChars chars).lineCount = chars.count '\n' + 1 :=
  LineIndex.lineCount_ofChars hne

@[simp] theorem lineCount_nil : (ofChars []).lineCount = 0 := rfl

/-! ## Spans of lines -/

theorem lineSpan_eq_of_isBlock (h : IsBlock chars first last before body after) :
    (ofChars chars).lineSpan first last =
      .ok ⟨width before, width before + width body⟩ := by
  have hfirst := h.first_pos
  have hle := h.first_le_last
  have hlast := h.last_le
  have hcount := lineCount_ofChars h.nonempty
  simp only [lineSpan, hcount, index_ofChars, chars_ofChars, h.byteRange?_eq]
  rw [if_neg (by omega), if_neg (by omega), if_neg (by omega)]

/-- Line numbers in order and in range are what a span asks for. -/
theorem bounds_of_lineSpan_eq_ok (h : (ofChars chars).lineSpan first last = .ok span) :
    1 ≤ first ∧ first ≤ last ∧ last ≤ (ofChars chars).lineCount := by
  -- One test for each of the three bounds.
  simp only [lineSpan] at h
  split at h
  · cases h
  · split at h
    · cases h
    · split at h
      · cases h
      · omega

/-- The span of lines is the place of their block. -/
theorem lineSpan_eq_ok_iff :
    (ofChars chars).lineSpan first last = .ok span ↔
      ∃ before body after, IsBlock chars first last before body after ∧
        span = ⟨width before, width before + width body⟩ := by
  constructor
  · intro h
    obtain ⟨hfirst, hle, hlast⟩ := bounds_of_lineSpan_eq_ok h
    have hne : chars ≠ [] := by
      rintro rfl
      rw [lineCount_nil] at hlast
      omega
    rw [lineCount_ofChars hne] at hlast
    obtain ⟨before, body, after, hblock⟩ := exists_isBlock hne hfirst hle hlast
    rw [lineSpan_eq_of_isBlock hblock] at h
    exact ⟨before, body, after, hblock, (Except.ok.inj h).symm⟩
  · rintro ⟨before, body, after, hblock, rfl⟩
    exact lineSpan_eq_of_isBlock hblock

theorem exists_lineSpan (hfirst : 1 ≤ first) (hle : first ≤ last)
    (hlast : last ≤ (ofChars chars).lineCount) :
    ∃ span, (ofChars chars).lineSpan first last = .ok span := by
  have hne : chars ≠ [] := by
    rintro rfl
    rw [lineCount_nil] at hlast
    omega
  rw [lineCount_ofChars hne] at hlast
  obtain ⟨before, body, after, hblock⟩ := exists_isBlock hne hfirst hle hlast
  exact ⟨_, lineSpan_eq_of_isBlock hblock⟩

/-- What is cut out by line numbers is a piece of the text. -/
theorem sliceable_of_lineSpan_eq_ok (h : (ofChars chars).lineSpan first last = .ok span) :
    Sliceable span chars := by
  obtain ⟨before, body, after, hblock, rfl⟩ := lineSpan_eq_ok_iff.mp h
  exact hblock.sliceable

theorem exists_lines (hfirst : 1 ≤ first) (hle : first ≤ last)
    (hlast : last ≤ (ofChars chars).lineCount) :
    ∃ text, (ofChars chars).lines first last = .ok text := by
  obtain ⟨span, hspan⟩ := exists_lineSpan hfirst hle hlast
  exact ⟨slice span chars, by rw [lines, hspan]; rfl⟩

/-- Lines are the text of their block. -/
theorem lines_eq_ok_iff {text : List Char} :
    (ofChars chars).lines first last = .ok text ↔
      ∃ before after, IsBlock chars first last before text after := by
  rw [lines, map_eq_ok_iff]
  constructor
  · rintro ⟨span, hspan, rfl⟩
    obtain ⟨before, body, after, hblock, rfl⟩ := lineSpan_eq_ok_iff.mp hspan
    rw [chars_ofChars, hblock.slice_eq]
    exact ⟨before, after, hblock⟩
  · rintro ⟨before, after, hblock⟩
    exact ⟨_, lineSpan_eq_of_isBlock hblock, hblock.slice_eq⟩

/-- A window shows the lines up to the sum, or to the end of the text, if the sum is a word. -/
theorem window_eq_ok_iff {source : Source} {text : List Char} :
    source.window first last radius = .ok text ↔ last + radius < UInt64.size ∧
      source.lines (max (first - radius) 1) (min (last + radius) source.lineCount) = .ok text := by
  rw [window, bind_eq_ok_iff]
  simp only [mapError_eq_ok_iff, checkedSum_eq_ok_iff]
  constructor
  · rintro ⟨_, ⟨hword, rfl⟩, hlines⟩
    exact ⟨hword, hlines⟩
  · rintro ⟨hword, hlines⟩
    exact ⟨_, ⟨hword, rfl⟩, hlines⟩

/-- Otherwise the program stops, whatever the text. -/
theorem window_eq_stopped (source : Source) (first : Nat) (hover : UInt64.size ≤ last + radius) :
    source.window first last radius = .error (.stopped .sumOverflow) := by
  rw [window, checkedSum_of_le hover]
  rfl

/-- A window around lines in range is found, if the sum is a word. -/
theorem exists_window (hfirst : 1 ≤ first) (hle : first ≤ last)
    (hlast : last ≤ (ofChars chars).lineCount) (hword : last + radius < UInt64.size) :
    ∃ text, (ofChars chars).window first last radius = .ok text := by
  simp only [window_eq_ok_iff]
  obtain ⟨text, htext⟩ : ∃ text, (ofChars chars).lines (max (first - radius) 1)
      (min (last + radius) (ofChars chars).lineCount) = .ok text :=
    exists_lines (by omega) (by omega) (by omega)
  exact ⟨text, hword, htext⟩

/-! ## Offsets -/

theorem lineOfOffset_append (hne : front ++ back ≠ []) :
    (ofChars (front ++ back)).lineOfOffset (width front) = .ok (front.count '\n' + 1) := by
  rw [lineOfOffset, index_ofChars, LineIndex.lineOfOffset?_append hne]

theorem lineOfOffset_last (front : List Char) (c : Char) (back : List Char) :
    (ofChars (front ++ c :: back)).lineOfOffset (width front + c.utf8Size - 1) =
      .ok (front.count '\n' + 1) := by
  rw [lineOfOffset, index_ofChars, LineIndex.lineOfOffset?_last]

/-- The position behind a front: its line is told by the feeds of the front, its column by the
characters since the last of them. -/
theorem positionOf_append (hne : front ++ back ≠ []) :
    ∃ before line, front = before ++ line ∧ IsLineStart (front.count '\n' + 1) before ∧
      line.count '\n' = 0 ∧ (ofChars (front ++ back)).positionOf (width front) =
        .ok ⟨front.count '\n' + 1, line.length + 1⟩ := by
  obtain ⟨before, line, rfl, hstart⟩ := exists_isLineStart front (front.count '\n') (Nat.le_refl _)
  have hline : line.count '\n' = 0 := by
    have := hstart.1
    rw [List.count_append] at this
    omega
  refine ⟨before, line, rfl, hstart, hline, ?_⟩
  -- The rest of the line is looked up only to name the block that starts where the line does.
  have hpos := width_pos_of_ne_nil hne
  have hstartOf : (LineIndex.ofChars (before ++ line ++ back)).startOfLine?
      ((before ++ line).count '\n' + 1) = some (width before) := by
    obtain ⟨content, after, hcontent, hcount, hending⟩ := exists_endsLine (line ++ back)
    have hblock : IsBlock (before ++ line ++ back) ((before ++ line).count '\n' + 1)
        ((before ++ line).count '\n' + 1) before content after :=
      ⟨hne, by rw [List.append_assoc, hcontent], hstart, by omega, hending⟩
    exact hblock.startOfLine?_eq
  have hslice : slice ⟨width before, width (before ++ line)⟩ (before ++ line ++ back) = line := by
    rw [width_append, List.append_assoc, slice_append]
  rw [positionOf, size_ofChars, if_neg (by rw [width_append _ back] at hpos ⊢; omega),
    chars_ofChars, if_pos (isBoundary_width _ _)]
  refine bind_eq_ok_iff.mpr ⟨_, lineOfOffset_append hne, ?_⟩
  simp only [index_ofChars, hstartOf, hslice]

end ExactEdit.Source
