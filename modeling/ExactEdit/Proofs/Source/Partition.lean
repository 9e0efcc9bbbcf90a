import ExactEdit.Proofs.Source.Coordinate
import ExactEdit.Proofs.Source.Row

/-! # Lines partition a text

The line index answers four questions of a line: where it starts, where its content ends, where its
terminator ends, and which line a byte is on. The answers fit together. Each line starts where the
terminator of the line before it ends, so the lines with their terminators are the text, cut into
pieces, and every byte is in the piece of the line that the index names for it. A run of lines can
be cut between any two of them, and the terminator between the two is all that neither part has.

## Main definitions

* `LineIndex.Delimits` — a line with what is around it, as the index cuts it out

## Main results

* `LineIndex.exists_delimits` — the index cuts out every line of a text
* `LineIndex.Delimits.holds_iff` — the bytes of a line are those whose line it is
* `LineIndex.exists_pieces` — the first lines of a text, one behind the other
* `Source.exists_lines_cut` — a run of lines, cut behind one of them
* `Source.lines_partition_text` — lines, bytes and runs of lines of a text
-/

namespace ExactEdit

open Text

variable {chars before content ending after front back rest : List Char} {c : Char}
variable {number first middle last offset start : Nat}

namespace LineIndex

/-- The line with this number is `content` with the terminator `ending` behind it, and the index of
the text tells where the line starts, where its content ends and where its terminator ends. Only the
last line has no terminator. -/
structure Delimits (chars : List Char) (number : Nat) (before content ending after : List Char) :
    Prop where
  text : chars = before ++ (content ++ (ending ++ after))
  start : IsLineStart number before
  feedless : '\n' ∉ content
  terminated : number < (ofChars chars).lineCount →
    ending = ['\n'] ∧ content.getLast? ≠ some '\r' ∨ ending = ['\r', '\n']
  unterminated : number = (ofChars chars).lineCount → ending = [] ∧ after = []
  start_eq : (ofChars chars).startOfLine? number = some (width before)
  stop_eq : (ofChars chars).endOfLine? chars number = some (width before + width content)
  next_eq : (ofChars chars).endWithTerminator? number =
    some (width before + width content + width ending)

/-! ## Lines that the index cuts out -/

/-- The index cuts out a block of one line, with the terminator behind it. -/
theorem exists_delimits_of_isBlock (h : IsBlock chars number number before content rest) :
    ∃ ending after, rest = ending ++ after ∧ Delimits chars number before content ending after := by
  have hcount := lineCount_ofChars h.nonempty
  have hstart := h.start.1
  have hfeeds : content.count '\n' = 0 := by
    have := h.feeds
    omega
  have htext : chars = (before ++ content) ++ rest := by
    rw [h.text, List.append_assoc]
  have hnumber : (before ++ content).count '\n' + 1 = number := by
    rw [List.count_append, hfeeds]
    exact hstart
  rcases h.ending with rfl | ⟨after, rfl, hreturn⟩ | ⟨after, rfl⟩
  · -- Nothing is behind the line, so it is the last.
    rw [List.append_nil] at htext
    refine ⟨[], [], rfl, ⟨h.text, h.start, List.count_eq_zero.mp hfeeds, ?_, fun _ => ⟨rfl, rfl⟩,
      h.startOfLine?_eq, h.endOfLine?_eq, ?_⟩⟩
    · rw [hcount, htext]
      omega
    · rw [width_nil, Nat.add_zero, ← width_append, ← hnumber, ← htext]
      exact endWithTerminator?_last h.nonempty
  · have hnext := endWithTerminator?_append (before ++ content) after
    rw [← htext, hnumber, width_append] at hnext
    refine ⟨['\n'], after, rfl, ⟨h.text, h.start, List.count_eq_zero.mp hfeeds,
      fun _ => .inl ⟨rfl, hreturn⟩, ?_, h.startOfLine?_eq, h.endOfLine?_eq, hnext⟩⟩
    rw [hcount, htext, List.count_append, List.count_cons_self]
    omega
  · have hcut : chars = (before ++ content ++ ['\r']) ++ '\n' :: after := by
      rw [htext]
      simp
    have hreturn : (before ++ content ++ ['\r']).count '\n' = (before ++ content).count '\n' := by
      simp
    have hnext := endWithTerminator?_append (before ++ content ++ ['\r']) after
    rw [← hcut, hreturn, hnumber, width_append, width_append] at hnext
    refine ⟨['\r', '\n'], after, rfl, ⟨h.text, h.start, List.count_eq_zero.mp hfeeds,
      fun _ => .inr rfl, ?_, h.startOfLine?_eq, h.endOfLine?_eq, hnext⟩⟩
    rw [hcount, hcut, List.count_append, hreturn, List.count_cons_self]
    omega

/-- The index cuts out every line of a text. -/
theorem exists_delimits (hne : chars ≠ []) (hpos : 1 ≤ number)
    (hle : number ≤ (ofChars chars).lineCount) :
    ∃ before content ending after, Delimits chars number before content ending after := by
  rw [lineCount_ofChars hne] at hle
  obtain ⟨before, content, rest, hblock⟩ := exists_isBlock hne hpos (Nat.le_refl number) hle
  obtain ⟨ending, after, -, hline⟩ := exists_delimits_of_isBlock hblock
  exact ⟨before, content, ending, after, hline⟩

/-- What the index says where a line starts, it says of lines of the text only. -/
theorem bounds_of_startOfLine?_eq_some {index : LineIndex}
    (h : index.startOfLine? number = some start) : 1 ≤ number ∧ number ≤ index.lineCount := by
  rw [startOfLine?] at h
  split at h
  · next hhas =>
    rw [hasLine, Bool.and_eq_true, bne_iff_ne, decide_eq_true_eq] at hhas
    omega
  · cases h

namespace Delimits

variable (h : Delimits chars number before content ending after)
include h

/-- The next line starts where the terminator of a line ends. -/
theorem next_start (hlt : number < (ofChars chars).lineCount) :
    IsLineStart (number + 1) (before ++ (content ++ ending)) := by
  have hstart := h.start.1
  have hcontent := List.count_eq_zero_of_not_mem h.feedless
  rcases h.terminated hlt with ⟨rfl, -⟩ | rfl
  · refine ⟨?_, .inr ⟨before ++ content, by simp⟩⟩
    rw [List.count_append, List.count_append, hcontent, List.count_singleton_self]
    omega
  · refine ⟨?_, .inr ⟨before ++ (content ++ ['\r']), by simp⟩⟩
    rw [List.count_append, List.count_append, hcontent, show ['\r', '\n'].count '\n' = 1 from rfl]
    omega

/-- The bytes of a line and its terminator are those of the characters with as many feeds in front
of them as the line has. -/
theorem holds_iff (hcut : chars = front ++ c :: back) (hle : width front ≤ offset)
    (hlt : offset < width front + c.utf8Size) :
    width before ≤ offset ∧ offset < width before + width content + width ending ↔
      number = front.count '\n' + 1 := by
  have hends : before ++ (content ++ (ending ++ after)) = front ++ c :: back := by
    rw [← h.text, hcut]
  have hnext : (before ++ (content ++ ending)) ++ after = front ++ c :: back := by
    rw [← hends]
    simp
  have hcount : (ofChars chars).lineCount = chars.count '\n' + 1 :=
    lineCount_ofChars (by rw [hcut]; simp)
  have hfeeds : front.count '\n' ≤ chars.count '\n' := by
    rw [hcut, List.count_append]
    omega
  have hlast := (bounds_of_startOfLine?_eq_some h.start_eq).2
  constructor
  · rintro ⟨hstart, hstop⟩
    rcases Nat.lt_trichotomy number (front.count '\n' + 1) with hbefore | heq | hbehind
    · -- Then the next line starts in front of the character too.
      have := (h.next_start (by omega)).width_le hnext (by omega)
      rw [width_append, width_append] at this
      omega
    · exact heq
    · -- Then the line starts behind the character.
      have := h.start.add_size_le hends hbehind
      omega
  · intro hnumber
    have hstart := h.start.width_le hends (by omega)
    refine ⟨by omega, ?_⟩
    rcases Nat.lt_or_eq_of_le hlast with hinner | hfinal
    · have := (h.next_start hinner).add_size_le hnext (by omega)
      rw [width_append, width_append] at this
      omega
    · -- The last line ends with the text.
      obtain ⟨rfl, rfl⟩ := h.unterminated hfinal
      have hwidth := congrArg width hends
      simp only [width_append, width_cons, width_nil] at hwidth ⊢
      omega

end Delimits

/-- The first lines of a text with their terminators, one behind the other. Behind them the next
line starts, or the text ends. -/
theorem exists_pieces (hne : chars ≠ []) (count : Nat) (hle : count ≤ (ofChars chars).lineCount) :
    ∃ (pieces : List (List Char)) (rest : List Char), pieces.length = count ∧
      chars = pieces.flatten ++ rest ∧
      (count < (ofChars chars).lineCount → IsLineStart (count + 1) pieces.flatten) ∧
      (count = (ofChars chars).lineCount → rest = []) ∧
      ∀ number piece, pieces[number]? = some piece → ∃ before content ending after,
        Delimits chars (number + 1) before content ending after ∧ piece = content ++ ending := by
  induction count with
  | zero =>
    have hcount := lineCount_ofChars hne
    exact ⟨[], chars, rfl, rfl, fun _ => ⟨rfl, .inl rfl⟩, by omega, nofun⟩
  | succ count ih =>
    obtain ⟨pieces, rest, hlength, hcut, hstart, -, hpieces⟩ := ih (by omega)
    obtain ⟨before, content, ending, after, hline⟩ := exists_delimits hne (Nat.succ_pos count) hle
    -- The next line starts behind the pieces, so its piece is what comes first there.
    obtain ⟨rfl, hrest⟩ :=
      hline.start.unique (hline.text.symm.trans hcut) (hstart (by omega))
    refine ⟨pieces ++ [content ++ ending], after, by simp [hlength], ?_, ?_, ?_, ?_⟩
    · rw [hline.text]
      simp
    · intro hlt
      simpa using hline.next_start hlt
    · exact fun hlast => (hline.unterminated hlast).2
    · intro number piece hpiece
      rcases Nat.lt_or_ge number pieces.length with hlt | hge
      · rw [List.getElem?_append_left hlt] at hpiece
        exact hpieces number piece hpiece
      · rw [List.getElem?_append_right hge, List.getElem?_singleton] at hpiece
        split at hpiece
        · obtain rfl : number = count := by omega
          exact ⟨_, content, ending, after, hline, (Option.some.inj hpiece).symm⟩
        · cases hpiece

/-- A byte is in the piece of its line, and in no other. -/
theorem exists_line_of_byte (h : offset < (ofChars chars).size) :
    ∃ line start next, (ofChars chars).lineOfOffset? offset = some line ∧
      (ofChars chars).startOfLine? line = some start ∧
      (ofChars chars).endWithTerminator? line = some next ∧ start ≤ offset ∧ offset < next ∧
      ∀ other start' next', (ofChars chars).startOfLine? other = some start' →
        (ofChars chars).endWithTerminator? other = some next' →
          start' ≤ offset → offset < next' → other = line := by
  rw [size_ofChars] at h
  obtain ⟨front, c, back, hcut, hle, hlt⟩ := exists_char_of_lt h
  have hne : chars ≠ [] := by
    rw [hcut]
    simp
  have hcount := lineCount_ofChars hne
  have hfeeds : front.count '\n' ≤ chars.count '\n' := by
    rw [hcut, List.count_append]
    omega
  obtain ⟨before, content, ending, after, hline⟩ :=
    exists_delimits hne (Nat.succ_pos (front.count '\n')) (by omega)
  obtain ⟨hstart, hnext⟩ := (hline.holds_iff hcut hle hlt).mpr rfl
  refine ⟨front.count '\n' + 1, _, _, ?_, hline.start_eq, hline.next_eq, hstart, hnext, ?_⟩
  · rw [hcut]
    exact lineOfOffset?_within hle hlt
  · intro other start' next' hother hother' hstart' hnext'
    obtain ⟨hpos, hbound⟩ := bounds_of_startOfLine?_eq_some hother
    obtain ⟨_, _, _, _, hotherLine⟩ := exists_delimits hne hpos hbound
    rw [hotherLine.start_eq, Option.some.injEq] at hother
    rw [hotherLine.next_eq, Option.some.injEq] at hother'
    exact (hotherLine.holds_iff hcut hle hlt).mp ⟨by omega, by omega⟩

end LineIndex

/-! ## Runs of lines -/

namespace Source

/-- A run of lines can be cut behind any of them but the last. The terminator of that line is
between the two parts. -/
theorem exists_lines_cut (hfirst : 1 ≤ first) (hle : first ≤ middle) (hlt : middle < last)
    (hlast : last ≤ (ofChars chars).lineCount) :
    ∃ front before content ending after back, (ofChars chars).lines first middle = .ok front ∧
      LineIndex.Delimits chars middle before content ending after ∧
      (ofChars chars).lines (middle + 1) last = .ok back ∧
      (ofChars chars).lines first last = .ok (front ++ (ending ++ back)) := by
  have hne : chars ≠ [] := by
    rintro rfl
    rw [lineCount_nil] at hlast
    omega
  have hinner : middle < (LineIndex.ofChars chars).lineCount := Nat.lt_of_lt_of_le hlt hlast
  obtain ⟨front, hfront⟩ :=
    exists_lines hfirst hle (Nat.le_trans (Nat.le_of_lt hlt) hlast)
  obtain ⟨back, hback⟩ := exists_lines (Nat.succ_pos middle) hlt hlast
  obtain ⟨before, content, ending, after, hline⟩ :=
    LineIndex.exists_delimits hne (Nat.le_trans hfirst hle) (Nat.le_of_lt hinner)
  refine ⟨front, before, content, ending, after, back, hfront, hline, hback, ?_⟩
  obtain ⟨beforeFront, afterFront, hblock⟩ := lines_eq_ok_iff.mp hfront
  obtain ⟨beforeBack, afterBack, hblock'⟩ := lines_eq_ok_iff.mp hback
  -- The first part ends where the content of its last line does.
  have hstop := hblock.endOfLine?_eq.symm.trans hline.stop_eq
  rw [Option.some.injEq, ← width_append, ← width_append] at hstop
  obtain ⟨hcontent, rfl⟩ :
      beforeFront ++ front = before ++ content ∧ afterFront = ending ++ after :=
    front_eq_of_width_eq
      (by rw [List.append_assoc, List.append_assoc, ← hblock.text, ← hline.text]) hstop
  -- The second part starts where the terminator of that line ends.
  have hcut : beforeBack ++ (back ++ afterBack) = (before ++ (content ++ ending)) ++ after := by
    rw [← hblock'.text, hline.text]
    simp
  obtain ⟨-, hrest⟩ := hblock'.start.unique hcut (hline.next_start hinner)
  have hfeeds : ending.count '\n' = 1 ∧ ending.getLast? = some '\n' := by
    rcases hline.terminated hinner with ⟨rfl, -⟩ | rfl
    · exact ⟨rfl, rfl⟩
    · exact ⟨rfl, rfl⟩
  have hcount := hblock.feeds
  have hcount' := hblock'.feeds
  refine lines_eq_ok_iff.mpr ⟨beforeFront, afterBack, hne, ?_, hblock.start, ?_, ?_⟩
  · rw [hblock.text, ← hrest]
    simp
  · rw [List.count_append, List.count_append]
    omega
  · rw [← List.append_assoc]
    refine hblock'.ending.append_left ?_
    rw [List.getLast?_append, hfeeds.2]
    simp

/-- The span of a run of lines goes from the start of its first to the end of the content of its
last, which are in order and in the text. -/
theorem exists_span_ends (hfirst : 1 ≤ first) (hle : first ≤ last)
    (hlast : last ≤ (ofChars chars).lineCount) :
    ∃ start stop, (LineIndex.ofChars chars).startOfLine? first = some start ∧
      (LineIndex.ofChars chars).endOfLine? chars last = some stop ∧
      start ≤ stop ∧ stop ≤ (ofChars chars).size ∧
      (LineIndex.ofChars chars).byteRange? chars first last = some ⟨start, stop⟩ ∧
      (ofChars chars).lineSpan first last = .ok ⟨start, stop⟩ := by
  obtain ⟨span, hspan⟩ := exists_lineSpan hfirst hle hlast
  obtain ⟨before, body, after, hblock, rfl⟩ := lineSpan_eq_ok_iff.mp hspan
  refine ⟨_, _, hblock.startOfLine?_eq, hblock.endOfLine?_eq, Nat.le_add_right _ _, ?_,
    hblock.byteRange?_eq, hspan⟩
  rw [size_ofChars]
  exact hblock.sliceable.stop_le_width

/-- Other line numbers have no span. -/
theorem no_span (h : ¬ (1 ≤ first ∧ first ≤ last ∧ last ≤ (ofChars chars).lineCount)) :
    (LineIndex.ofChars chars).byteRange? chars first last = none ∧
      ∀ span, (ofChars chars).lineSpan first last ≠ .ok span := by
  refine ⟨if_pos ?_, fun span hspan => h (bounds_of_lineSpan_eq_ok hspan)⟩
  have hcount : (ofChars chars).lineCount = (LineIndex.ofChars chars).lineCount := rfl
  omega

/-- The lines of a text, each with its terminator, are the text cut into pieces. A byte is in the
piece of the line that the index names for it and in no other, and the end of the text is on the
last line. Feeds in front of an offset are listed before the others, so halving the list is enough
to count them. There is a span exactly for numbers of lines in order, from the start of the first
line to the end of the last, and a run of lines is cut by the terminators of its lines. -/
theorem lines_partition_text (hne : chars ≠ []) :
    (∃ pieces : List (List Char), pieces.length = (ofChars chars).lineCount ∧
      pieces.flatten = chars ∧
      ∀ number piece, pieces[number]? = some piece → ∃ before content ending after,
        LineIndex.Delimits chars (number + 1) before content ending after ∧
          piece = content ++ ending) ∧
    (∀ offset < (ofChars chars).size, ∃ line start next,
      (LineIndex.ofChars chars).lineOfOffset? offset = some line ∧
      (LineIndex.ofChars chars).startOfLine? line = some start ∧
      (LineIndex.ofChars chars).endWithTerminator? line = some next ∧
      start ≤ offset ∧ offset < next ∧
      ∀ other start' next', (LineIndex.ofChars chars).startOfLine? other = some start' →
        (LineIndex.ofChars chars).endWithTerminator? other = some next' →
          start' ≤ offset → offset < next' → other = line) ∧
    (LineIndex.ofChars chars).lineOfOffset? (ofChars chars).size = some (ofChars chars).lineCount ∧
    (∀ offset, (LineIndex.ofChars chars).feeds.takeWhile (· < offset) =
      (LineIndex.ofChars chars).feeds.filter (· < offset)) ∧
    (∀ first last, 1 ≤ first ∧ first ≤ last ∧ last ≤ (ofChars chars).lineCount →
      ∃ start stop, (LineIndex.ofChars chars).startOfLine? first = some start ∧
        (LineIndex.ofChars chars).endOfLine? chars last = some stop ∧
        start ≤ stop ∧ stop ≤ (ofChars chars).size ∧
        (LineIndex.ofChars chars).byteRange? chars first last = some ⟨start, stop⟩ ∧
        (ofChars chars).lineSpan first last = .ok ⟨start, stop⟩) ∧
    (∀ first last, ¬ (1 ≤ first ∧ first ≤ last ∧ last ≤ (ofChars chars).lineCount) →
      (LineIndex.ofChars chars).byteRange? chars first last = none ∧
        ∀ span, (ofChars chars).lineSpan first last ≠ .ok span) ∧
    ∀ first middle last, 1 ≤ first → first ≤ middle → middle < last →
      last ≤ (ofChars chars).lineCount →
      ∃ front before content ending after back, (ofChars chars).lines first middle = .ok front ∧
        LineIndex.Delimits chars middle before content ending after ∧
        (ofChars chars).lines (middle + 1) last = .ok back ∧
        (ofChars chars).lines first last = .ok (front ++ (ending ++ back)) := by
  refine ⟨?_, fun _ => LineIndex.exists_line_of_byte, ?_, LineIndex.takeWhile_feeds chars, ?_,
    fun _ _ => no_span, fun _ _ _ => exists_lines_cut⟩
  · obtain ⟨pieces, rest, hlength, hcut, -, hrest, hpieces⟩ :=
      LineIndex.exists_pieces hne _ (Nat.le_refl _)
    rw [hrest rfl, List.append_nil] at hcut
    exact ⟨pieces, hlength, hcut.symm, hpieces⟩
  · -- The whole text is in front of its end.
    have hend := LineIndex.lineOfOffset?_append (by rwa [List.append_nil] : chars ++ [] ≠ [])
    rwa [List.append_nil, ← size_ofChars, ← lineCount_ofChars hne] at hend
  · rintro first last ⟨hfirst, hle, hlast⟩
    exact exists_span_ends hfirst hle hlast

/-- The first of the three lines below ends with a return and a feed, and the second is empty. -/
theorem returnLine_partitioned : "é\r\n\nb".toList ≠ [] ∧
    (∃ before content after,
      LineIndex.Delimits "é\r\n\nb".toList 1 before content ['\r', '\n'] after) ∧
    ∃ line start next, (LineIndex.ofChars "é\r\n\nb".toList).lineOfOffset? 4 = some line ∧
      (LineIndex.ofChars "é\r\n\nb".toList).startOfLine? line = some start ∧
      (LineIndex.ofChars "é\r\n\nb".toList).endWithTerminator? line = some next ∧
      start ≤ 4 ∧ 4 < next := by
  have hne : "é\r\n\nb".toList ≠ [] := by decide
  obtain ⟨-, hbyte, -, -, -, -, hcut⟩ := lines_partition_text hne
  have hfirst : (ofString "é\r\n\nb").lines 1 1 = .ok "é".toList := by decide +kernel
  have hothers : (ofString "é\r\n\nb").lines 2 3 = .ok "\nb".toList := by decide +kernel
  have hall : (ofString "é\r\n\nb").lines 1 3 =
      .ok ("é".toList ++ (['\r', '\n'] ++ "\nb".toList)) := by
    decide +kernel
  obtain ⟨front, before, content, ending, after, back, hfront, hline, hback, hwhole⟩ :=
    hcut 1 1 3 (by decide) (by decide) (by decide) (by decide +kernel)
  obtain rfl := Except.ok.inj (hfront.symm.trans hfirst)
  obtain rfl := Except.ok.inj (hback.symm.trans hothers)
  have hending := List.append_cancel_left (Except.ok.inj (hwhole.symm.trans hall))
  obtain rfl := List.append_cancel_right hending
  obtain ⟨line, start, next, hlineOf, hstart, hnext, hle, hlt, -⟩ := hbyte 4 (by decide +kernel)
  exact ⟨hne, ⟨before, content, after, hline⟩, line, start, next, hlineOf, hstart, hnext, hle, hlt⟩

end Source

end ExactEdit
