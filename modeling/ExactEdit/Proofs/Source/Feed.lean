import ExactEdit.Proofs.Text.Boundary
import ExactEdit.Source.LineIndex

/-! # Line feeds by number

A line index lists the offsets of line feeds. The feed with a number is the one with so many feeds
in front of it, and the line of an offset is told by the feeds in front of that offset. Both are
said here of a text that is cut at the place in question, so that the index never has to be scanned
again.

## Main definitions

* `LineIndex.feedsFrom` — the offsets of the line feeds, without the scan's accumulator

## Main results

* `LineIndex.getElem?_feeds` — the feed with so many feeds in front of it
* `LineIndex.countP_feeds` — the feeds in front of an offset
* `LineIndex.endWithTerminator?_append`, `LineIndex.endWithTerminator?_last` — where a line ends
  together with its terminator
* `LineIndex.lineOfOffset?_append`, `LineIndex.lineOfOffset?_within` — the line of the byte behind a
  front, and of all bytes of a character
-/

namespace ExactEdit.LineIndex

open Text

variable {chars front back before after : List Char} {offset : Nat}

/-- Byte offsets of the line feeds of a text whose first byte is byte `offset`. -/
def feedsFrom (offset : Nat) : List Char → List Nat
  | [] => []
  | c :: rest =>
    if c = '\n' then offset :: feedsFrom (offset + c.utf8Size) rest
    else feedsFrom (offset + c.utf8Size) rest

theorem scan_eq (seen : List Nat) (offset : Nat) (chars : List Char) :
    scan seen offset chars = ⟨seen.reverse ++ feedsFrom offset chars, offset + width chars⟩ := by
  induction chars generalizing seen offset with
  | nil => simp [scan, feedsFrom]
  | cons c rest ih =>
    rw [scan, ih, width_cons, feedsFrom, Nat.add_assoc]
    split <;> simp

@[simp] theorem feeds_ofChars (chars : List Char) : (ofChars chars).feeds = feedsFrom 0 chars := by
  simp [ofChars, scan_eq]

@[simp] theorem size_ofChars (chars : List Char) : (ofChars chars).size = width chars := by
  simp [ofChars, scan_eq]

theorem feedsFrom_append (offset : Nat) (front back : List Char) :
    feedsFrom offset (front ++ back) =
      feedsFrom offset front ++ feedsFrom (offset + width front) back := by
  induction front generalizing offset with
  | nil => simp [feedsFrom]
  | cons c rest ih =>
    rw [List.cons_append, feedsFrom, feedsFrom, ih, width_cons, Nat.add_assoc]
    split <;> simp

@[simp] theorem length_feedsFrom (offset : Nat) (chars : List Char) :
    (feedsFrom offset chars).length = chars.count '\n' := by
  induction chars generalizing offset with
  | nil => rfl
  | cons c rest ih =>
    rw [feedsFrom, List.count_cons]
    split
    · next h => simp [ih, h]
    · next h => simp [ih, h]

theorem bounds_of_mem_feedsFrom {feed : Nat} (h : feed ∈ feedsFrom offset chars) :
    offset ≤ feed ∧ feed < offset + width chars := by
  induction chars generalizing offset with
  | nil => cases h
  | cons c rest ih =>
    have hpos := c.utf8Size_pos
    rw [width_cons]
    rw [feedsFrom] at h
    split at h
    · rcases List.mem_cons.mp h with rfl | hrest
      · omega
      · have := ih hrest
        omega
    · have := ih h
      omega

/-- The feed behind a front has the number of the feeds in it. -/
theorem getElem?_feeds (front back : List Char) :
    (ofChars (front ++ '\n' :: back)).feeds[front.count '\n']? = some (width front) := by
  rw [feeds_ofChars, feedsFrom_append,
    List.getElem?_append_right (Nat.le_of_eq (length_feedsFrom 0 front)), length_feedsFrom]
  simp [feedsFrom]

/-- A number that is too large names no feed. -/
theorem getElem?_feeds_eq_none {number : Nat} (h : chars.count '\n' ≤ number) :
    (ofChars chars).feeds[number]? = none := by
  rw [List.getElem?_eq_none_iff, feeds_ofChars, length_feedsFrom]
  exact h

/-- The feeds in front of an offset are those of a front that ends at or before it, if none of the
others is in front of the offset. -/
theorem countP_feeds (hle : width front ≤ offset)
    (hback : ∀ feed ∈ feedsFrom (width front) back, offset ≤ feed) :
    (ofChars (front ++ back)).feeds.countP (· < offset) = front.count '\n' := by
  rw [feeds_ofChars, feedsFrom_append, Nat.zero_add, List.countP_append]
  -- All feeds of the front count, and none of the others.
  have hfront : (feedsFrom 0 front).countP (· < offset) = front.count '\n' := by
    rw [← length_feedsFrom 0, List.countP_eq_length]
    intro feed hfeed
    have := (bounds_of_mem_feedsFrom hfeed).2
    simp only [decide_eq_true_eq]
    omega
  have hbehind : (feedsFrom (width front) back).countP (· < offset) = 0 := by
    rw [List.countP_eq_zero]
    intro feed hfeed
    simpa using hback feed hfeed
  rw [hfront, hbehind, Nat.add_zero]

theorem lineCount_ofChars (hne : chars ≠ []) :
    (ofChars chars).lineCount = chars.count '\n' + 1 := by
  have hpos := width_pos_of_ne_nil hne
  rw [lineCount, size_ofChars, if_neg (by omega), feeds_ofChars, length_feedsFrom]

theorem hasLine_iff {number : Nat} (hne : chars ≠ []) :
    (ofChars chars).hasLine number = true ↔ 1 ≤ number ∧ number ≤ chars.count '\n' + 1 := by
  rw [hasLine, lineCount_ofChars hne, Bool.and_eq_true, bne_iff_ne, decide_eq_true_eq]
  omega

/-- A line that ends in a feed ends, with its terminator, behind that feed. -/
theorem endWithTerminator?_append (front back : List Char) :
    (ofChars (front ++ '\n' :: back)).endWithTerminator? (front.count '\n' + 1) =
      some (width front + 1) := by
  have hhas : (ofChars (front ++ '\n' :: back)).hasLine (front.count '\n' + 1) = true :=
    (hasLine_iff (by simp)).mpr ⟨by omega, by rw [List.count_append]; omega⟩
  rw [endWithTerminator?, if_pos hhas, Nat.add_sub_cancel, getElem?_feeds]

/-- The last line ends, with its terminator, where the text ends. -/
theorem endWithTerminator?_last (hne : chars ≠ []) :
    (ofChars chars).endWithTerminator? (chars.count '\n' + 1) = some (width chars) := by
  have hhas : (ofChars chars).hasLine (chars.count '\n' + 1) = true :=
    (hasLine_iff hne).mpr ⟨by omega, Nat.le_refl _⟩
  rw [endWithTerminator?, if_pos hhas, Nat.add_sub_cancel,
    getElem?_feeds_eq_none (Nat.le_refl _), size_ofChars]

/-! ## Lines of offsets -/

theorem lineOfOffset?_eq (hne : front ++ back ≠ []) (hle : width front ≤ offset)
    (hsize : offset ≤ width (front ++ back))
    (hback : ∀ feed ∈ feedsFrom (width front) back, offset ≤ feed) :
    (ofChars (front ++ back)).lineOfOffset? offset = some (front.count '\n' + 1) := by
  have hpos := width_pos_of_ne_nil hne
  rw [lineOfOffset?, size_ofChars, if_neg (by omega), countP_feeds hle hback]

/-- The byte behind a front is on the line that the feeds of the front lead to. -/
theorem lineOfOffset?_append (hne : front ++ back ≠ []) :
    (ofChars (front ++ back)).lineOfOffset? (width front) = some (front.count '\n' + 1) :=
  lineOfOffset?_eq hne (Nat.le_refl _) (by rw [width_append]; omega)
    fun _ hfeed => (bounds_of_mem_feedsFrom hfeed).1

/-- All bytes of a character are on the same line. -/
theorem lineOfOffset?_within {c : Char} (hle : width front ≤ offset)
    (hlt : offset < width front + c.utf8Size) :
    (ofChars (front ++ c :: back)).lineOfOffset? offset = some (front.count '\n' + 1) := by
  refine lineOfOffset?_eq (by simp) hle (by rw [width_append, width_cons]; omega) ?_
  intro feed hfeed
  rw [feedsFrom] at hfeed
  split at hfeed
  · next hc =>
    -- A feed has one byte, which is its own.
    have hsize : c.utf8Size = 1 := by rw [hc]; rfl
    have hmem : feed ∈ feedsFrom (width front) (c :: back) := by
      rw [feedsFrom, if_pos hc]
      exact hfeed
    have := bounds_of_mem_feedsFrom hmem
    omega
  · have := (bounds_of_mem_feedsFrom hfeed).1
    omega

/-- A character's last byte is on the same line as its first. -/
theorem lineOfOffset?_last (front : List Char) (c : Char) (back : List Char) :
    (ofChars (front ++ c :: back)).lineOfOffset? (width front + c.utf8Size - 1) =
      some (front.count '\n' + 1) := by
  have hpos := c.utf8Size_pos
  exact lineOfOffset?_within (by omega) (by omega)

end ExactEdit.LineIndex
