import ExactEdit.Proofs.Source.Feed
import ExactEdit.Syntax.Point

/-! # Rows of points

A parser gives places as rows and columns, while lines are told by counting feeds. The row of an
offset is the number of feeds in front of it, and its column is zero exactly behind a feed, or at
the start of the text. So the last byte of a range lies on the row of its end, unless the range
ends at column zero, where it lies on the row before.

## Main results

* `LineIndex.row_pointOf` — a row counts feeds
* `LineIndex.column_pointOf_eq_zero_iff` — the places at column zero
* `LineIndex.row_pointOf_succ` — the row behind a byte, from the row of the byte
-/

namespace ExactEdit.LineIndex

open Text

variable {chars : List Char}

theorem pairwise_feedsFrom (offset : Nat) (chars : List Char) :
    (feedsFrom offset chars).Pairwise (· < ·) := by
  induction chars generalizing offset with
  | nil => exact .nil
  | cons c rest ih =>
    rw [feedsFrom]
    split
    · refine List.pairwise_cons.mpr ⟨fun feed hfeed => ?_, ih _⟩
      have := (bounds_of_mem_feedsFrom hfeed).1
      have := c.utf8Size_pos
      omega
    · exact ih _

/-- Feeds are in order, so those in front of an offset come first. -/
theorem takeWhile_lt_eq_filter {feeds : List Nat} (hsorted : feeds.Pairwise (· < ·))
    (bound : Nat) : feeds.takeWhile (· < bound) = feeds.filter (· < bound) := by
  induction feeds with
  | nil => rfl
  | cons feed rest ih =>
    rw [List.pairwise_cons] at hsorted
    by_cases hlt : feed < bound
    · rw [List.takeWhile_cons_of_pos (by simpa using hlt),
        List.filter_cons_of_pos (by simpa using hlt), ih hsorted.2]
    · rw [List.takeWhile_cons_of_neg (by simpa using hlt),
        List.filter_cons_of_neg (by simpa using hlt)]
      refine (List.filter_eq_nil_iff.mpr fun other hother => ?_).symm
      have := hsorted.1 other hother
      simp only [decide_eq_true_eq]
      omega

theorem takeWhile_feeds (chars : List Char) (bound : Nat) :
    (ofChars chars).feeds.takeWhile (· < bound) = (ofChars chars).feeds.filter (· < bound) := by
  rw [feeds_ofChars]
  exact takeWhile_lt_eq_filter (pairwise_feedsFrom 0 chars) bound

/-- The row of an offset is the number of feeds in front of it. -/
theorem row_pointOf (chars : List Char) (offset : Nat) :
    ((ofChars chars).pointOf offset).row = (ofChars chars).feeds.countP (· < offset) := by
  rw [pointOf, takeWhile_feeds, List.countP_eq_length_filter]
  split
  · rfl
  · rename_i hnone
    rw [List.getLast?_eq_none_iff.mp hnone]
    rfl

/-- A place behind the first byte is at column zero exactly if it is right behind a feed. -/
theorem column_pointOf_eq_zero_iff (chars : List Char) (offset : Nat) :
    ((ofChars chars).pointOf (offset + 1)).column = 0 ↔ offset ∈ (ofChars chars).feeds := by
  have hbefore : ∀ feed, feed ∈ (ofChars chars).feeds.takeWhile (· < offset + 1) ↔
      feed ∈ (ofChars chars).feeds ∧ feed < offset + 1 := by
    intro feed
    rw [takeWhile_feeds, List.mem_filter, decide_eq_true_eq]
  rw [pointOf]
  split
  · rename_i last hlast
    obtain ⟨front, hfront⟩ := List.getLast?_eq_some_iff.mp hlast
    obtain ⟨hmem, hle⟩ := (hbefore last).mp (List.mem_of_getLast? hlast)
    constructor
    · intro hzero
      obtain rfl : last = offset := by
        simp only at hzero
        omega
      exact hmem
    · intro hfeed
      -- The last feed in front of the place is not in front of this one.
      have hin := (hbefore offset).mpr ⟨hfeed, Nat.lt_succ_self _⟩
      have hsorted : ((ofChars chars).feeds.takeWhile (· < offset + 1)).Pairwise (· < ·) := by
        rw [feeds_ofChars]
        exact (pairwise_feedsFrom 0 chars).sublist (List.takeWhile_sublist _)
      rw [hfront] at hin hsorted
      rcases List.mem_append.mp hin with hearlier | heq
      · have := (List.pairwise_append.mp hsorted).2.2 offset hearlier last List.mem_cons_self
        omega
      · obtain rfl := List.mem_singleton.mp heq
        simp
  · rename_i hnone
    rw [List.getLast?_eq_none_iff] at hnone
    refine iff_of_false (Nat.succ_ne_zero _) fun hfeed => ?_
    have hin := (hbefore offset).mpr ⟨hfeed, Nat.lt_succ_self _⟩
    rw [hnone] at hin
    cases hin

theorem countP_lt_succ (feeds : List Nat) (offset : Nat) :
    feeds.countP (· < offset + 1) = feeds.countP (· < offset) + feeds.count offset := by
  induction feeds with
  | nil => rfl
  | cons feed rest ih =>
    rw [List.countP_cons, List.countP_cons, List.count_cons, ih]
    simp only [decide_eq_true_eq, beq_iff_eq]
    split_ifs <;> omega

/-- The row behind a byte is that of the byte, or the next one behind a feed. -/
theorem row_pointOf_succ (chars : List Char) (offset : Nat) :
    ((ofChars chars).pointOf (offset + 1)).row = ((ofChars chars).pointOf offset).row +
      if ((ofChars chars).pointOf (offset + 1)).column = 0 then 1 else 0 := by
  rw [row_pointOf, row_pointOf, countP_lt_succ]
  simp only [column_pointOf_eq_zero_iff]
  congr 1
  rw [feeds_ofChars]
  exact List.Nodup.count ((pairwise_feedsFrom 0 chars).imp fun h => Nat.ne_of_lt h)

/-- Rows do not go back. -/
theorem row_pointOf_mono (chars : List Char) {offset bound : Nat} (hle : offset ≤ bound) :
    ((ofChars chars).pointOf offset).row ≤ ((ofChars chars).pointOf bound).row := by
  rw [row_pointOf, row_pointOf]
  refine List.countP_mono_left fun feed _ hlt => ?_
  simp only [decide_eq_true_eq] at hlt ⊢
  omega

end ExactEdit.LineIndex
