import ExactEdit.Text.Offset
import Mathlib.Data.List.Basic

/-! # Boundaries as cuts

An offset that splits no character cuts a text into what is before it and what is behind it, and
the width of the front gives the offset back. All later arguments name the two sides and let the
offset follow, so that cutting, slicing and splicing become equations on appended texts.

## Main definitions

* `Text.StandsAt` — a pattern stands at a byte offset of a text
* `Text.Sliceable` — both ends of a range are boundaries, in order

## Main results

* `Text.isBoundary_iff` — boundaries are the widths of fronts
* `Text.takeBytes_append`, `Text.dropBytes_append` — the two sides of a cut
* `Text.slice_append`, `Text.splice_append` — slicing and splicing at named pieces
* `Text.front_eq_of_width_eq`, `Text.exists_between` — cuts of one text are ordered by width
-/

namespace ExactEdit.Text

variable {chars before after front back front' back' pattern old new middle : List Char}
variable {offset : Nat} {range : ByteRange}

/-! ## Widths -/

theorem width_pos_of_ne_nil (h : chars ≠ []) : 0 < width chars := by
  cases chars with
  | nil => exact absurd rfl h
  | cons c rest =>
    have := c.utf8Size_pos
    rw [width_cons]
    omega

@[simp] theorem width_eq_zero_iff : width chars = 0 ↔ chars = [] := by
  constructor
  · intro h
    by_contra hne
    have := width_pos_of_ne_nil hne
    omega
  · rintro rfl
    rfl

/-! ## Cutting -/

theorem charsWithin_go_append (count : Nat) (front back : List Char) :
    charsWithin.go count (width front) (front ++ back) = count + front.length := by
  induction front generalizing count with
  | nil =>
    cases back with
    | nil => rfl
    | cons c rest =>
      -- No byte is left, and every character takes one.
      have := c.utf8Size_pos
      rw [List.nil_append, charsWithin.go, if_neg (by rw [width_nil]; omega)]
      rfl
  | cons c rest ih =>
    rw [List.cons_append, charsWithin.go, width_cons, if_pos (Nat.le_add_right _ _),
      Nat.add_sub_cancel_left, ih, List.length_cons]
    omega

/-- Cutting at the width of a front gives that front. -/
@[simp] theorem takeBytes_append (front back : List Char) :
    takeBytes (width front) (front ++ back) = front := by
  rw [takeBytes, charsWithin, charsWithin_go_append, Nat.zero_add, List.take_left]

/-- Cutting at the width of a front leaves what is behind it. -/
@[simp] theorem dropBytes_append (front back : List Char) :
    dropBytes (width front) (front ++ back) = back := by
  rw [dropBytes, charsWithin, charsWithin_go_append, Nat.zero_add, List.drop_left]

@[simp] theorem takeBytes_zero (chars : List Char) : takeBytes 0 chars = [] :=
  takeBytes_append [] chars

@[simp] theorem dropBytes_zero (chars : List Char) : dropBytes 0 chars = chars :=
  dropBytes_append [] chars

@[simp] theorem takeBytes_width (chars : List Char) : takeBytes (width chars) chars = chars := by
  have := takeBytes_append chars []
  rwa [List.append_nil] at this

/-- Boundaries are the widths of fronts. -/
theorem isBoundary_iff :
    isBoundary offset chars = true ↔ ∃ front back, chars = front ++ back ∧ width front = offset := by
  constructor
  · intro h
    exact ⟨takeBytes offset chars, dropBytes offset chars,
      (takeBytes_append_dropBytes offset chars).symm, by simpa [isBoundary] using h⟩
  · rintro ⟨front, back, rfl, rfl⟩
    simp [isBoundary]

theorem isBoundary_width (front back : List Char) :
    isBoundary (width front) (front ++ back) = true :=
  isBoundary_iff.mpr ⟨front, back, rfl, rfl⟩

theorem IsBoundary.le_width (h : isBoundary offset chars = true) : offset ≤ width chars := by
  obtain ⟨front, back, rfl, rfl⟩ := isBoundary_iff.mp h
  rw [width_append]
  omega

theorem charAt?_eq_some_iff {c : Char} :
    charAt? offset chars = some c ↔ ∃ front back, chars = front ++ c :: back ∧ width front = offset := by
  constructor
  · intro h
    rw [charAt?] at h
    split at h
    · next hboundary =>
      obtain ⟨front, back, rfl, rfl⟩ := isBoundary_iff.mp hboundary
      rw [dropBytes_append] at h
      obtain ⟨back, rfl⟩ := List.head?_eq_some_iff.mp h
      exact ⟨front, back, rfl, rfl⟩
    · cases h
  · rintro ⟨front, back, rfl, rfl⟩
    rw [charAt?, if_pos (isBoundary_width _ _), dropBytes_append, List.head?_cons]

/-! ## Cuts of one text -/

/-- Of two cuts the one with the smaller front comes first, and something lies between them. -/
theorem exists_between (h : front ++ back = front' ++ back') (hle : width front ≤ width front') :
    ∃ middle, front' = front ++ middle ∧ back = middle ++ back' := by
  rcases List.append_eq_append_iff.mp h with ⟨middle, hfront, hback⟩ | ⟨middle, hfront, hback⟩
  · exact ⟨middle, hfront, hback⟩
  -- The other order is left only if both cuts are one.
  · have hzero : width middle = 0 := by
      rw [hfront, width_append] at hle
      omega
    obtain rfl := width_eq_zero_iff.mp hzero
    exact ⟨[], by simpa using hfront.symm, by simpa using hback.symm⟩

/-- Fronts of one text with the same width are the same. -/
theorem front_eq_of_width_eq (h : front ++ back = front' ++ back')
    (hwidth : width front = width front') : front = front' ∧ back = back' := by
  obtain ⟨middle, hfront, hback⟩ := exists_between h (Nat.le_of_eq hwidth)
  have hzero : width middle = 0 := by
    rw [hfront, width_append] at hwidth
    omega
  obtain rfl := width_eq_zero_iff.mp hzero
  exact ⟨by simpa using hfront.symm, by simpa using hback⟩

/-- The character in front of a cut, if it has one byte. -/
theorem getLast?_of_charAt?_eq_some {c : Char} (hsize : c.utf8Size = 1) (hpos : 1 ≤ width front)
    (h : charAt? (width front - 1) (front ++ back) = some c) : front.getLast? = some c := by
  obtain ⟨init, rest, hcut, hinit⟩ := charAt?_eq_some_iff.mp h
  have hends : (init ++ [c]) ++ rest = front ++ back := by
    rw [hcut]
    simp
  obtain ⟨rfl, -⟩ := front_eq_of_width_eq hends
    (by rw [width_append, width_cons, width_nil, hinit, hsize]; omega)
  simp

/-- Every byte of a text is one of a character. -/
theorem exists_char_of_lt (h : offset < width chars) : ∃ front c back,
    chars = front ++ c :: back ∧ width front ≤ offset ∧ offset < width front + c.utf8Size := by
  induction chars generalizing offset with
  | nil => exact absurd h (Nat.not_lt_zero _)
  | cons c rest ih =>
    rw [width_cons] at h
    rcases Nat.lt_or_ge offset c.utf8Size with hfirst | hbehind
    · exact ⟨[], c, rest, rfl, Nat.zero_le _, by rwa [width_nil, Nat.zero_add]⟩
    · obtain ⟨front, d, back, rfl, hle, hlt⟩ :=
        @ih (offset - c.utf8Size) (by omega)
      refine ⟨c :: front, d, back, rfl, ?_, ?_⟩
      · rw [width_cons]
        omega
      · rw [width_cons]
        omega

/-! ## Slices and splices -/

/-- Both ends of a range are boundaries of the text, and they are in order: the text can be cut
out without tearing a character or leaving the text. -/
def Sliceable (range : ByteRange) (chars : List Char) : Prop :=
  range.start ≤ range.stop ∧ isBoundary range.start chars = true ∧
    isBoundary range.stop chars = true

/-- The text of a range, named together with what is around it. -/
theorem slice_append (before middle after : List Char) :
    slice ⟨width before, width before + width middle⟩ (before ++ (middle ++ after)) = middle := by
  rw [slice, dropBytes_append, ByteRange.length, Nat.add_sub_cancel_left, takeBytes_append]

/-- Splicing exchanges the named piece. -/
theorem splice_append (before old new after : List Char) :
    splice ⟨width before, width before + width old⟩ new (before ++ (old ++ after)) =
      before ++ (new ++ after) := by
  have hbehind : dropBytes (width before + width old) (before ++ (old ++ after)) = after := by
    rw [← width_append, ← List.append_assoc, dropBytes_append]
  rw [splice, takeBytes_append, hbehind]

/-- A range can be cut out exactly if it is a piece of the text. -/
theorem sliceable_iff :
    Sliceable range chars ↔ ∃ before middle after, chars = before ++ (middle ++ after) ∧
      width before = range.start ∧ width before + width middle = range.stop := by
  constructor
  · rintro ⟨hle, hstart, hstop⟩
    obtain ⟨before, rest, rfl, hbefore⟩ := isBoundary_iff.mp hstart
    obtain ⟨front, after, hcut, hfront⟩ := isBoundary_iff.mp hstop
    obtain ⟨middle, rfl, rfl⟩ := exists_between hcut (by omega)
    exact ⟨before, middle, after, rfl, hbefore, by rw [← width_append, hfront]⟩
  · rintro ⟨before, middle, after, rfl, hstart, hstop⟩
    refine ⟨by omega, ?_, ?_⟩
    · exact hstart ▸ isBoundary_width _ _
    · rw [← hstop, ← width_append, ← List.append_assoc]
      exact isBoundary_width _ _

/-- What is outside of two cuts around a range is kept when the range is replaced. -/
theorem Sliceable.exists_splice_eq (h : Sliceable range chars)
    (new : List Char) (hfront : chars = front ++ back) (hstart : width front ≤ range.start)
    (hfront' : chars = front' ++ back') (hstop : range.stop ≤ width front') :
    ∃ middle, splice range new chars = front ++ (middle ++ back') := by
  obtain ⟨before, old, after, rfl, hbefore, hold⟩ := sliceable_iff.mp h
  obtain ⟨start, stop⟩ := range
  obtain rfl : width before = start := hbefore
  obtain rfl : width before + width old = stop := hold
  obtain ⟨left, rfl, -⟩ := exists_between hfront.symm hstart
  have hends : (front ++ left ++ old) ++ after = front' ++ back' := by
    rw [List.append_assoc, hfront']
  obtain ⟨right, -, rfl⟩ := exists_between hends (by rw [width_append]; exact hstop)
  exact ⟨left ++ (new ++ right), by rw [splice_append]; simp⟩

theorem Sliceable.stop_le_width (h : Sliceable range chars) : range.stop ≤ width chars :=
  IsBoundary.le_width h.2.2

/-! ## Standing patterns -/

/-- A pattern stands in the text with its first byte at `offset`. -/
def StandsAt (pattern : List Char) (offset : Nat) (chars : List Char) : Prop :=
  ∃ before after, chars = before ++ (pattern ++ after) ∧ width before = offset

theorem standsAt_append (before pattern after : List Char) :
    StandsAt pattern (width before) (before ++ (pattern ++ after)) :=
  ⟨before, after, rfl, rfl⟩

theorem StandsAt.sliceable (h : StandsAt pattern offset chars) :
    Sliceable ⟨offset, offset + width pattern⟩ chars := by
  obtain ⟨before, after, rfl, rfl⟩ := h
  exact sliceable_iff.mpr ⟨before, pattern, after, rfl, rfl, rfl⟩

theorem StandsAt.add_width_le (h : StandsAt pattern offset chars) :
    offset + width pattern ≤ width chars :=
  h.sliceable.stop_le_width

theorem StandsAt.slice_eq (h : StandsAt pattern offset chars) :
    slice ⟨offset, offset + width pattern⟩ chars = pattern := by
  obtain ⟨before, after, rfl, rfl⟩ := h
  exact slice_append before pattern after

/-- The text of a range stands at its start. -/
theorem Sliceable.standsAt (h : Sliceable range chars) :
    StandsAt (slice range chars) range.start chars := by
  obtain ⟨before, middle, after, rfl, hstart, hstop⟩ := sliceable_iff.mp h
  obtain ⟨start, stop⟩ := range
  obtain rfl : width before = start := hstart
  obtain rfl : width before + width middle = stop := hstop
  rw [slice_append]
  exact standsAt_append before middle after

theorem Sliceable.width_slice (h : Sliceable range chars) :
    range.start + width (slice range chars) = range.stop := by
  obtain ⟨before, middle, after, rfl, hstart, hstop⟩ := sliceable_iff.mp h
  obtain ⟨start, stop⟩ := range
  obtain rfl : width before = start := hstart
  obtain rfl : width before + width middle = stop := hstop
  rw [slice_append]

/-- A pattern that stands inside a standing block stands in the text. -/
theorem StandsAt.trans {block : List Char} {inner : Nat} (h : StandsAt block offset chars)
    (hinner : StandsAt pattern inner block) : StandsAt pattern (offset + inner) chars := by
  obtain ⟨before, after, rfl, rfl⟩ := h
  obtain ⟨front, back, rfl, rfl⟩ := hinner
  exact ⟨before ++ front, back ++ after, by simp, by simp⟩

/-- A pattern that stands in the text within the bytes of a standing block stands in the block. -/
theorem StandsAt.inside {block : List Char} {inner : Nat} (h : StandsAt block offset chars)
    (hpattern : StandsAt pattern (offset + inner) chars)
    (hfits : inner + width pattern ≤ width block) : StandsAt pattern inner block := by
  obtain ⟨before, after, rfl, rfl⟩ := h
  obtain ⟨front, back, hcut, hfront⟩ := hpattern
  obtain ⟨left, rfl, hrest⟩ := exists_between hcut (by omega)
  rw [width_append] at hfront
  -- What is left of the block behind the pattern is between the two ends.
  have hends : (left ++ pattern) ++ back = block ++ after := by
    rw [List.append_assoc, hrest]
  obtain ⟨right, rfl, -⟩ := exists_between hends (by rw [width_append]; omega)
  exact ⟨left, right, by rw [List.append_assoc], by omega⟩

end ExactEdit.Text
