import ExactEdit.Proofs.Diff.Sides
import ExactEdit.Proofs.Result

/-! # Differences as text

As text a difference is a list of lines: two with the names of the files, and for every hunk one
with its header and one for each of its lines, which begins with the mark of its sort. A line is
shown without its line feed and has no other, so cutting the text at its feeds gives these lines
back. Behind the names a mark is only in front of the lines of hunks, so these can be read off the
text.

## Main definitions

* `Overflows` — twice the lines around a change are no word, and this is noticed
* `Hunk.header`, `HunkLine.marked`, `printedLines` — the lines of the text
* `readLine?` — what a line of the text shows

## Main results

* `unified_eq_error_iff` — when there is no text
* `unified_readable` — the text is these lines, and shows the lines of the hunks
-/

namespace ExactEdit.Diff

variable {label old new shownText : String} {lines : List String} {hunk : Hunk} {shown : List Hunk}
variable {line : HunkLine} {context : Nat} {fault : Fault}

/-! ## When there is a text -/

/-- Twice the lines around a change are no word, and the length of some unchanged block is to be
held against them. -/
def Overflows (old new : String) (context : Nat) : Prop :=
  UInt64.size ≤ context + context ∧
    ∃ block ∈ blocks (linesOf old) (linesOf new), block.unchanged = true

theorem unified_eq_ok_iff :
    unified label old new context = .ok shownText ↔
      ∃ shown, hunks old new context = .ok shown ∧ render label shown = shownText :=
  Result.map_eq_ok_iff

theorem unified_eq_error_iff :
    unified label old new context = .error fault ↔
      Overflows old new context ∧ fault = .sumOverflow := by
  have hsize : UInt64.size ≤ context + context ↔ 2 ^ 63 ≤ context := by
    have : UInt64.size = 18446744073709551616 := rfl
    omega
  rw [unified, Result.map_eq_error_iff, hunks_eq, Overflows, hsize, ← List.any_eq_true]
  split
  · next hover => simp only [hover, true_and, Except.error.injEq, eq_comm]
  · next hfits => simp only [hfits, false_and, reduceCtorEq]

/-! ## Line feeds -/

/-- A line has a feed at its end at most. -/
theorem feed_notMem_dropLast_of_mem_cutLines {done : List (List Char)} {current chars : List Char}
    (hdone : ∀ line ∈ done, '\n' ∉ line.dropLast) (hcurrent : '\n' ∉ current) :
    ∀ line ∈ cutLines done current chars, '\n' ∉ line.dropLast := by
  -- What a finished line had before its terminator is the open line turned around.
  have hfinish : ∀ {current : List Char} {c : Char} {done : List (List Char)},
      (∀ line ∈ done, '\n' ∉ line.dropLast) → '\n' ∉ current →
        ∀ line ∈ (c :: current).reverse :: done, '\n' ∉ line.dropLast := by
    intro current c done hdone hcurrent
    rw [List.forall_mem_cons, List.reverse_cons, List.dropLast_concat, List.mem_reverse]
    exact ⟨hcurrent, hdone⟩
  fun_induction cutLines done current chars with
  | case1 done current =>
    intro line hmem
    rw [List.mem_reverse] at hmem
    split at hmem
    · exact hdone line hmem
    · rcases List.mem_cons.mp hmem with rfl | hmem
      · exact fun hfeed => hcurrent (List.mem_reverse.mp (List.mem_of_mem_dropLast hfeed))
      · exact hdone line hmem
  | case2 done current rest ih =>
    apply ih
    · apply hfinish hdone
      rw [List.mem_cons]
      exact fun hfeed => hfeed.elim (by decide) hcurrent
    · exact List.not_mem_nil
  | case3 done current c rest _ hends ih =>
    exact ih (hfinish hdone hcurrent) List.not_mem_nil
  | case4 done current c rest _ hends ih =>
    apply ih hdone
    rw [List.mem_cons]
    rintro (rfl | hfeed)
    · exact hends (.inr rfl)
    · exact hcurrent hfeed

/-- A line that is shown has none. -/
theorem feed_notMem_shownLine {whole : String} (hmem : whole ∈ linesOf old) :
    '\n' ∉ (shownLine whole).toList := by
  obtain ⟨chars, hchars, rfl⟩ := List.mem_map.mp hmem
  have hlast := feed_notMem_dropLast_of_mem_cutLines (List.forall_mem_nil _) List.not_mem_nil
    chars hchars
  rw [shownLine, String.toList_ofList, String.toList_ofList]
  cases chars using List.reverseRecOn with
  | nil => exact List.not_mem_nil
  | append_singleton front last =>
    rw [List.dropLast_concat] at hlast
    by_cases hfeed : last = '\n'
    · rw [hfeed, Text.withoutFeed, List.reverse_concat]
      simpa using hlast
    · have hwhole : Text.withoutFeed (front ++ [last]) = front ++ [last] := by
        rw [Text.withoutFeed, List.reverse_concat]
        split
        · next hhead => exact absurd (List.cons.inj hhead).1 hfeed
        · rfl
      rw [hwhole, List.mem_append, List.mem_singleton]
      exact fun hmem => hmem.elim hlast fun heq => hfeed heq.symm

/-- The text of a line of a hunk. -/
def HunkLine.text : HunkLine → String
  | kept line => line
  | removed line => line
  | added line => line

theorem exists_of_mem_shownLines {line : String} {start count : Nat}
    (h : line ∈ shownLines lines.toArray start count) :
    ∃ whole ∈ lines, shownLine whole = line := by
  rw [shownLines_toArray] at h
  obtain ⟨whole, hwhole, rfl⟩ := List.mem_map.mp h
  exact ⟨whole, List.mem_of_mem_drop (List.mem_of_mem_take hwhole), rfl⟩

/-- The lines of a block are shown lines of one of the texts. -/
theorem Block.exists_of_mem_hunkLines {block : Block} {olds news : List String}
    (h : line ∈ block.hunkLines olds.toArray news.toArray) :
    ∃ whole, (whole ∈ olds ∨ whole ∈ news) ∧ shownLine whole = line.text := by
  rw [hunkLines] at h
  split at h
  · obtain ⟨text, hmem, rfl⟩ := List.mem_map.mp h
    obtain ⟨whole, hwhole, hshown⟩ := exists_of_mem_shownLines hmem
    exact ⟨whole, .inl hwhole, hshown⟩
  · rcases List.mem_append.mp h with h | h
    · obtain ⟨text, hmem, rfl⟩ := List.mem_map.mp h
      obtain ⟨whole, hwhole, hshown⟩ := exists_of_mem_shownLines hmem
      exact ⟨whole, .inl hwhole, hshown⟩
    · obtain ⟨text, hmem, rfl⟩ := List.mem_map.mp h
      obtain ⟨whole, hwhole, hshown⟩ := exists_of_mem_shownLines hmem
      exact ⟨whole, .inr hwhole, hshown⟩

/-- No line of a hunk has a feed. -/
theorem feed_notMem_of_mem_hunks (h : hunks old new context = .ok shown) (hhunk : hunk ∈ shown)
    (hline : line ∈ hunk.lines) : '\n' ∉ line.text.toList := by
  rw [eq_exactHunks_of_eq_ok h, exactHunks] at hhunk
  obtain ⟨group, -, hgroup⟩ := List.mem_filterMap.mp hhunk
  rw [groupHunk?] at hgroup
  split at hgroup
  · obtain rfl := Option.some.inj hgroup
    obtain ⟨block, -, hmem⟩ := List.mem_flatMap.mp hline
    obtain ⟨whole, hwhole, hshown⟩ := Block.exists_of_mem_hunkLines hmem
    rw [← hshown]
    exact hwhole.elim feed_notMem_shownLine feed_notMem_shownLine
  · cases hgroup

/-! ## The lines of the text -/

/-- The header of a hunk. -/
def Hunk.header (hunk : Hunk) : List Char :=
  s!"@@ -{hunk.oldStart},{hunk.oldCount} +{hunk.newStart},{hunk.newCount} @@".toList

/-- The mark of a sort of lines. -/
def HunkLine.mark : HunkLine → Char
  | kept _ => ' '
  | removed _ => '-'
  | added _ => '+'

/-- A line of a hunk behind its mark. -/
def HunkLine.marked (line : HunkLine) : List Char := line.mark :: line.text.toList

/-- The lines of a hunk, its header first. -/
def Hunk.printedLines (hunk : Hunk) : List (List Char) :=
  hunk.header :: hunk.lines.map HunkLine.marked

/-- All lines of a difference, the names of the files first. -/
def printedLines (label : String) (shown : List Hunk) : List (List Char) :=
  ("--- a/" ++ label).toList :: ("+++ b/" ++ label).toList :: shown.flatMap Hunk.printedLines

/-- The line of a hunk that a line of the text shows, if it does. -/
def readLine? : List Char → Option HunkLine
  | ' ' :: text => some (.kept (String.ofList text))
  | '-' :: text => some (.removed (String.ofList text))
  | '+' :: text => some (.added (String.ofList text))
  | _ => none

theorem readLine?_marked (line : HunkLine) : readLine? line.marked = some line := by
  cases line with
  | kept line => exact congrArg (some ∘ HunkLine.kept) String.ofList_toList
  | removed line => exact congrArg (some ∘ HunkLine.removed) String.ofList_toList
  | added line => exact congrArg (some ∘ HunkLine.added) String.ofList_toList

theorem HunkLine.toList_render (line : HunkLine) : line.render.toList = line.marked ++ ['\n'] := by
  cases line with
  | kept line => simp [render, marked, mark, text]
  | removed line => simp [render, marked, mark, text]
  | added line => simp [render, marked, mark, text]

theorem Hunk.toList_render (hunk : Hunk) :
    hunk.render.toList = hunk.printedLines.flatMap (· ++ ['\n']) := by
  have hlines : (hunk.lines.map HunkLine.render).flatMap String.toList =
      (hunk.lines.map HunkLine.marked).flatMap (· ++ ['\n']) := by
    rw [List.flatMap_map, List.flatMap_map]
    exact List.flatMap_congr fun line _ => line.toList_render
  rw [render, String.toList_append, String.toList_join, hlines, printedLines, List.flatMap_cons,
    header]
  simp [String.toList_append, toString]

/-- A difference is the lines that are printed, each with a feed behind it. -/
theorem toList_render (label : String) (shown : List Hunk) :
    (render label shown).toList = (printedLines label shown).flatMap (· ++ ['\n']) := by
  have hhunks : (shown.map Hunk.render).flatMap String.toList =
      (shown.flatMap Hunk.printedLines).flatMap (· ++ ['\n']) := by
    rw [List.flatMap_map, List.flatMap_assoc]
    exact List.flatMap_congr fun hunk _ => hunk.toList_render
  rw [render, String.toList_append, String.toList_join, hhunks, printedLines, List.flatMap_cons,
    List.flatMap_cons]
  simp [String.toList_append, toString]

/-! ## Reading the text -/

theorem feed_notMem_toString (n : Nat) : '\n' ∉ (toString n).toList := by
  intro hfeed
  have hdigit : '\n'.isDigit = true := by
    apply Nat.isDigit_of_mem_toDigits (b := 10) (n := n) (by decide) (by decide)
    rwa [← Nat.toList_repr]
  exact absurd hdigit (by decide)

theorem Hunk.feed_notMem_header (hunk : Hunk) : '\n' ∉ hunk.header := by
  have hnumber := feed_notMem_toString
  simp only [header, String.toList_append, List.mem_append, hnumber]
  decide

theorem readLine?_header (hunk : Hunk) : readLine? hunk.header = none := by
  simp [Hunk.header, String.toList_append, toString, readLine?]

theorem HunkLine.mark_ne_feed (line : HunkLine) : line.mark ≠ '\n' := by
  cases line with
  | kept line => exact (by decide : ' ' ≠ '\n')
  | removed line => exact (by decide : '-' ≠ '\n')
  | added line => exact (by decide : '+' ≠ '\n')

theorem HunkLine.feed_notMem_marked (hline : '\n' ∉ line.text.toList) : '\n' ∉ line.marked := by
  rw [marked, List.mem_cons, not_or]
  exact ⟨line.mark_ne_feed.symm, hline⟩

/-- No printed line has a feed. -/
theorem feed_notMem_of_mem_printedLines (hlabel : '\n' ∉ label.toList)
    (h : hunks old new context = .ok shown) :
    ∀ line ∈ printedLines label shown, '\n' ∉ line := by
  rw [printedLines, List.forall_mem_cons, List.forall_mem_cons]
  refine ⟨by simpa using hlabel, by simpa using hlabel, fun line hmem => ?_⟩
  obtain ⟨hunk, hhunk, hmem⟩ := List.mem_flatMap.mp hmem
  rcases List.mem_cons.mp hmem with rfl | hmem
  · exact hunk.feed_notMem_header
  · obtain ⟨hunkLine, hline, rfl⟩ := List.mem_map.mp hmem
    exact HunkLine.feed_notMem_marked (feed_notMem_of_mem_hunks h hhunk hline)

/-- Lines with a feed behind each are cut at the feeds into themselves, and nothing behind the last
feed. -/
theorem splitOn_flatMap_feed {printed : List (List Char)} (h : ∀ line ∈ printed, '\n' ∉ line) :
    (printed.flatMap (· ++ ['\n'])).splitOn '\n' = printed ++ [[]] := by
  have hjoin : printed.flatMap (· ++ ['\n']) = ['\n'].intercalate (printed ++ [[]]) := by
    induction printed with
    | nil => rfl
    | cons line printed ih =>
      rw [List.flatMap_cons, ih (List.forall_mem_cons.mp h).2]
      cases printed <;> simp [List.intercalate]
  -- Lines without a feed are what a text with a feed between each two of them is cut into.
  rw [hjoin]
  apply List.splitOn_intercalate
  · rw [List.forall_mem_append, List.forall_mem_singleton]
    exact ⟨h, List.not_mem_nil⟩
  · exact List.append_ne_nil_of_right_ne_nil _ (List.cons_ne_nil _ _)

/-- Of the lines of a hunk all but the header are read. -/
theorem Hunk.filterMap_printedLines (hunk : Hunk) :
    hunk.printedLines.filterMap readLine? = hunk.lines := by
  have hmarked : readLine? ∘ HunkLine.marked = some := funext readLine?_marked
  rw [printedLines, List.filterMap_cons_none (readLine?_header hunk), List.filterMap_map, hmarked,
    List.filterMap_some]

/-- The text of a difference is its printed lines, each with a feed behind it: cut at the feeds it
gives the two names, the headers and the marked lines of the hunks, in this order. Behind the names
the lines that are read are those of the hunks. -/
theorem unified_readable (hlabel : '\n' ∉ label.toList)
    (h : unified label old new context = .ok shownText) :
    ∃ shown, hunks old new context = .ok shown ∧
      shownText.toList.splitOn '\n' = printedLines label shown ++ [[]] ∧
      ((shownText.toList.splitOn '\n').drop 2).filterMap readLine? = shown.flatMap Hunk.lines := by
  obtain ⟨shown, hshown, rfl⟩ := unified_eq_ok_iff.mp h
  have hlines : (render label shown).toList.splitOn '\n' = printedLines label shown ++ [[]] := by
    rw [toList_render]
    exact splitOn_flatMap_feed (feed_notMem_of_mem_printedLines hlabel hshown)
  refine ⟨shown, hshown, hlines, ?_⟩
  -- Neither a header nor the piece behind the last feed begins with a mark.
  have hbehind : (printedLines label shown ++ [[]]).drop 2 =
      shown.flatMap Hunk.printedLines ++ [[]] := rfl
  have hread : (shown.flatMap Hunk.printedLines).filterMap readLine? =
      shown.flatMap Hunk.lines := by
    rw [List.filterMap_flatMap]
    exact List.flatMap_congr fun hunk _ => hunk.filterMap_printedLines
  rw [hlines, hbehind, List.filterMap_append, hread]
  exact List.append_nil _

/-- A changed line behind one that is kept. -/
example : unified "f" "x\ny\n" "x\nz\n" 3 =
    .ok "--- a/f\n+++ b/f\n@@ -1,2 +1,2 @@\n x\n-y\n+z\n" := by decide +kernel

end ExactEdit.Diff
