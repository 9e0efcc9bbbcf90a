import ExactEdit.Proofs.Occurrence.Exactness
import ExactEdit.Proofs.Scope.Lookup
import ExactEdit.Proofs.Scope.Nesting

/-! # The extent of a scope

Two rules tell which lines a scope has. One goes by the rows that the parser counts, steps back from
a column zero and strips a terminator off the text; the other looks bytes up in the line index. They
agree: a scope goes from the line of its first byte to the line of its last, and where it stops at
the end of a line it is as wide as the content of that line. Whatever is in the bytes of a scope is
therefore on its lines, and no search in the scope leaves it out.

## Main definitions

* `SyntaxNode.FollowsBytes` — the points of a node are those of its bytes

## Main results

* `LineIndex.lineOfOffset?_eq_row` — the line of a byte is the one behind its row
* `exists_line_lastLineWidth` — what is measured in front of a feed is the content of its line
* `scope_extent_agrees` — the lines, the width and the bytes of a scope agree
-/

namespace ExactEdit

open Text

variable {chars front back before content : List Char} {source : Source} {node : SyntaxNode}
variable {declared : Declaration} {parent : Option Nat} {range : ByteRange} {offset number : Nat}

/-! ## Lines of bytes -/

namespace LineIndex

/-- A feed of the index is one of the text. -/
theorem exists_cut_of_mem_feedsFrom {start : Nat} (h : offset ∈ feedsFrom start chars) :
    ∃ front back, chars = front ++ '\n' :: back ∧ start + width front = offset := by
  induction chars generalizing start with
  | nil => cases h
  | cons c rest ih =>
    have hrest : offset ∈ feedsFrom (start + c.utf8Size) rest →
        ∃ front back, c :: rest = front ++ '\n' :: back ∧ start + width front = offset := by
      intro hmem
      obtain ⟨front, back, rfl, hfront⟩ := ih hmem
      exact ⟨c :: front, back, rfl, by rw [width_cons, ← hfront, Nat.add_assoc]⟩
    rw [feedsFrom] at h
    split at h
    · next hc =>
      rcases List.mem_cons.mp h with rfl | hmem
      · exact ⟨[], rest, by rw [hc]; rfl, rfl⟩
      · exact hrest hmem
    · exact hrest h

/-- The line of a byte is the one behind its row. -/
theorem lineOfOffset?_eq_row (hpos : 0 < width chars) (hle : offset ≤ width chars) :
    (ofChars chars).lineOfOffset? offset = some (((ofChars chars).pointOf offset).row + 1) := by
  rw [lineOfOffset?, size_ofChars, if_neg (by omega), row_pointOf]

/-- At column zero, behind the first byte, the text is cut behind a feed. -/
theorem exists_cut_of_column_eq_zero {last : Nat}
    (h : ((ofChars chars).pointOf (last + 1)).column = 0) : ∃ front back,
      chars = front ++ '\n' :: back ∧ width front = last ∧
        ((ofChars chars).pointOf last).row = front.count '\n' := by
  have hfeed := (column_pointOf_eq_zero_iff chars last).mp h
  rw [feeds_ofChars] at hfeed
  obtain ⟨front, back, rfl, hfront⟩ := exists_cut_of_mem_feedsFrom hfeed
  rw [Nat.zero_add] at hfront
  refine ⟨front, back, rfl, hfront, ?_⟩
  rw [row_pointOf, ← hfront]
  exact countP_feeds (Nat.le_refl _) fun _ hmem => (bounds_of_mem_feedsFrom hmem).1

end LineIndex

theorem Source.lineOfOffset_eq_row (hpos : 0 < width chars) (hle : offset ≤ width chars) :
    (ofChars chars).lineOfOffset offset =
      .ok (((LineIndex.ofChars chars).pointOf offset).row + 1) := by
  rw [lineOfOffset, index_ofChars, LineIndex.lineOfOffset?_eq_row hpos hle]

theorem Source.eq_row_of_lineOfOffset_eq_ok {line : Nat}
    (h : (ofChars chars).lineOfOffset offset = .ok line) :
    line = ((LineIndex.ofChars chars).pointOf offset).row + 1 := by
  rw [lineOfOffset, index_ofChars, LineIndex.lineOfOffset?] at h
  by_cases hout : (LineIndex.ofChars chars).size = 0 ∨ (LineIndex.ofChars chars).size < offset
  · rw [if_pos hout] at h
    cases h
  · rw [if_neg hout] at h
    rw [LineIndex.row_pointOf]
    exact (Except.ok.inj h).symm

/-! ## The content in front of a feed -/

theorem Text.width_reverse (chars : List Char) : width chars.reverse = width chars := by
  induction chars with
  | nil => rfl
  | cons c rest ih =>
    rw [List.reverse_cons, width_append, ih, width_cons, width_cons, width_nil]
    omega

/-- Read from its end, a text goes back to the start of its last line. -/
theorem takeWhile_reverse_line (hstart : IsLineStart number before) (hline : '\n' ∉ content) :
    (before ++ content).reverse.takeWhile (· != '\n') = content.reverse := by
  rw [List.reverse_append, List.takeWhile_append_of_pos]
  · obtain ⟨-, rfl | ⟨init, rfl⟩⟩ := hstart
    · simp
    · simp
  · intro c hc
    rw [List.mem_reverse] at hc
    rw [bne_iff_ne]
    rintro rfl
    exact hline hc

theorem Scope.lastLineWidth_feed (hstart : IsLineStart number before) (hline : '\n' ∉ content)
    (hreturn : content.getLast? ≠ some '\r') :
    lastLineWidth (before ++ content ++ ['\n']) = width content := by
  have hcontent := takeWhile_reverse_line hstart hline
  -- No return is in front of the feed, be it the end of the line or that of the line before.
  have hhead : (before ++ content).reverse.head? ≠ some '\r' := by
    rw [List.head?_reverse]
    rcases List.eq_nil_or_concat' content with rfl | ⟨init, c, rfl⟩
    · rw [List.append_nil]
      exact hstart.getLast?_ne
    · simpa [← List.append_assoc] using hreturn
  rw [lastLineWidth, List.reverse_append, List.reverse_singleton, List.singleton_append]
  split
  · next rest heq =>
    rw [(List.cons.inj heq).2] at hhead
    exact absurd rfl hhead
  · next rest _ heq =>
    rw [← (List.cons.inj heq).2, hcontent, width_reverse]
  · next heq => cases (List.cons.inj heq).1
  · next hfeed _ => exact absurd rfl (hfeed _)

theorem Scope.lastLineWidth_return (hstart : IsLineStart number before) (hline : '\n' ∉ content) :
    lastLineWidth (before ++ (content ++ ['\r']) ++ ['\n']) = width content := by
  have hreverse : (before ++ (content ++ ['\r']) ++ ['\n']).reverse =
      '\n' :: '\r' :: (before ++ content).reverse := by
    simp
  rw [lastLineWidth, hreverse]
  simp only [takeWhile_reverse_line hstart hline]
  rw [width_reverse]

/-- What is measured in front of a feed is the content of the line that it ends. -/
theorem exists_line_lastLineWidth (front back : List Char) :
    ∃ content, (Source.ofChars (front ++ '\n' :: back)).line (front.count '\n' + 1) = .ok content ∧
      Scope.lastLineWidth (front ++ ['\n']) = width content := by
  obtain ⟨before, line, rfl, hstart⟩ := exists_isLineStart front (front.count '\n') (Nat.le_refl _)
  -- All feeds in front are before the line.
  have hcount : line.count '\n' = 0 := by
    have hfeeds := hstart.1
    rw [List.count_append] at hfeeds
    omega
  have hline : '\n' ∉ line := List.count_eq_zero.mp hcount
  have hne : before ++ line ++ '\n' :: back ≠ [] := by simp
  by_cases hreturn : line.getLast? = some '\r'
  · -- The return is part of the terminator.
    obtain ⟨content, rfl⟩ := List.getLast?_eq_some_iff.mp hreturn
    have hcontent : '\n' ∉ content := fun hmem => hline (List.mem_append_left _ hmem)
    refine ⟨content, Source.lines_eq_ok_iff.mpr ⟨before, '\r' :: '\n' :: back, hne, ?_, hstart, ?_,
      .inr (.inr ⟨back, rfl⟩)⟩, Scope.lastLineWidth_return hstart hcontent⟩
    · simp
    · rw [List.count_eq_zero.mpr hcontent]
  · refine ⟨line, Source.lines_eq_ok_iff.mpr ⟨before, '\n' :: back, hne, ?_, hstart, ?_,
      .inr (.inl ⟨back, rfl, hreturn⟩)⟩, Scope.lastLineWidth_feed hstart hline hreturn⟩
    · rw [List.append_assoc]
    · rw [hcount]

/-! ## Nodes -/

/-- The points of a node follow from its bytes: rows count the feeds in front, columns the bytes
behind the last of these. -/
structure SyntaxNode.FollowsBytes (node : SyntaxNode) (source : Source) : Prop where
  start_eq : node.start = source.index.pointOf node.range.start
  stop_eq : node.stop = source.index.pointOf node.range.stop

namespace SyntaxNode.FollowsBytes

variable (h : node.FollowsBytes (Source.ofChars chars))
include h

/-- Only the bytes of a node count for its scope. -/
theorem exists_site (declared : Declaration) : ∃ site : Site, site.label.range = node.range ∧
    ∀ parent, Scope.ofNode (Source.ofChars chars) node declared parent =
      site.scope (Source.ofChars chars) parent := by
  refine ⟨⟨[], ⟨node.kind, true, false, false, false, node.range, none⟩, declared⟩, rfl, ?_⟩
  intro parent
  obtain ⟨kind, _, start, stop, range, _, _⟩ := node
  -- The points of the node are those of its bytes, and nothing else of it is read.
  obtain rfl : start = (Source.ofChars chars).index.pointOf range.start := h.start_eq
  obtain rfl : stop = (Source.ofChars chars).index.pointOf range.stop := h.stop_eq
  rfl

/-- A scope starts on the line of its first byte. -/
theorem lineOfOffset_start (hfull : node.range.start < node.range.stop)
    (hinside : node.range.stop ≤ width chars) :
    (Source.ofChars chars).lineOfOffset node.range.start =
      .ok (Scope.ofNode (Source.ofChars chars) node declared parent).startLine := by
  rw [Source.lineOfOffset_eq_row (by omega) (by omega), Scope.ofNode, h.start_eq]
  rfl

/-- A scope stops on the line of its last byte. -/
theorem lineOfOffset_last (hfull : node.range.start < node.range.stop)
    (hinside : node.range.stop ≤ width chars) :
    (Source.ofChars chars).lineOfOffset (node.range.stop - 1) =
      .ok (Scope.ofNode (Source.ofChars chars) node declared parent).endLine := by
  obtain ⟨site, hrange, hscope⟩ := h.exists_site declared
  rw [hscope, Site.endLine_scope (by rw [hrange]; exact hfull), hrange,
    Source.lineOfOffset_eq_row (by omega) (by omega)]

/-- A scope that stops at the end of a line is as wide as its content. -/
theorem exists_line_of_column_eq_zero (hfull : node.range.start < node.range.stop)
    (hcolumn : node.stop.column = 0) : ∃ content,
      (Source.ofChars chars).line
        (Scope.ofNode (Source.ofChars chars) node declared parent).endLine = .ok content ∧
      (Scope.ofNode (Source.ofChars chars) node declared parent).endColumn = width content + 1 := by
  obtain ⟨last, hlast⟩ := Nat.exists_eq_succ_of_ne_zero (Nat.ne_zero_of_lt hfull)
  rw [Nat.succ_eq_add_one] at hlast
  have hstop : node.stop = (LineIndex.ofChars chars).pointOf (last + 1) := hlast ▸ h.stop_eq
  have hstart : node.start = (LineIndex.ofChars chars).pointOf node.range.start := h.start_eq
  have hzero := hstop ▸ hcolumn
  have hmono := LineIndex.row_pointOf_mono chars (show node.range.start ≤ last by omega)
  have hnext := LineIndex.row_pointOf_succ chars last
  rw [if_pos hzero, ← hstop] at hnext
  rw [← hstart] at hmono
  -- The row of the end is behind that of the start, so the scope stops at a terminator.
  obtain ⟨front, back, rfl, rfl, hrow⟩ := LineIndex.exists_cut_of_column_eq_zero hzero
  obtain ⟨content, hcontent, hwidth⟩ := exists_line_lastLineWidth front back
  have hcut : takeBytes node.range.stop (front ++ '\n' :: back) = front ++ ['\n'] := by
    have hbytes : node.range.stop = width (front ++ ['\n']) := by
      rw [hlast, width_append]
      rfl
    rw [hbytes, List.append_cons front '\n' back, takeBytes_append]
  have hlineEnd : Scope.lineEnd (Source.ofChars (front ++ '\n' :: back)) node =
      (front.count '\n' + 1, width content + 1) := by
    rw [Scope.lineEnd, if_pos ⟨hcolumn, by omega⟩, Source.chars_ofChars, hcut, hwidth, hnext, hrow]
  have hendLine : (Scope.ofNode (Source.ofChars (front ++ '\n' :: back)) node declared
      parent).endLine = front.count '\n' + 1 := by
    simp only [Scope.ofNode, hlineEnd]
    omega
  refine ⟨content, by rw [hendLine]; exact hcontent, ?_⟩
  simp only [Scope.ofNode, hlineEnd]

/-- What is in the bytes of a scope is on its lines. -/
theorem exists_lines_of_containsBytes (hinside : node.range.stop ≤ width chars)
    (hrange : range.start < range.stop)
    (hcontains :
      (Scope.ofNode (Source.ofChars chars) node declared parent).containsBytes range = true) :
    ∃ first last, (Source.ofChars chars).lineOfOffset range.start = .ok first ∧
      (Source.ofChars chars).lineOfOffset (range.stop - 1) = .ok last ∧
      (Scope.ofNode (Source.ofChars chars) node declared parent).containsLines first last =
        true := by
  obtain ⟨site, hsite, hscope⟩ := h.exists_site declared
  rw [hscope] at hcontains ⊢
  have hbytes : site.label.range.contains range = true := hcontains
  have hstop := (ByteRange.contains_iff.mp hbytes).2
  rw [hsite] at hstop
  exact ⟨_, _, Source.lineOfOffset_eq_row (by omega) (by omega),
    Source.lineOfOffset_eq_row (by omega) (by omega),
    Site.containsLines_of_contains hrange hbytes parent⟩

end SyntaxNode.FollowsBytes

/-! ## Scopes of a table -/

/-- An occurrence in the bytes of a scope is not left out by a search in that scope. -/
theorem exists_mem_findOccurrences {table : ScopeTable} {id contextLines : Nat} {ids : List Nat}
    {scope : Scope} {search : String} {occurrences : List Occurrence} {occurrence : Occurrence}
    (hfound : findOccurrences source table contextLines search none = .ok occurrences)
    (hmem : occurrence ∈ occurrences) (hscope : table.get? id = some scope) (hid : id ∈ ids)
    (hlines : scope.containsLines occurrence.line occurrence.endLine = true) :
    ∃ kept, findOccurrences source table contextLines search (some ids) = .ok kept ∧
      occurrence ∈ kept :=
  ⟨_, findOccurrences_of_none (some ids) hfound, List.mem_filter.mpr
    ⟨hmem, ScopeTable.allowsLines_some_iff.mpr ⟨id, hid, scope, hscope, hlines⟩⟩⟩

/-- A scope goes from the line of its first byte to that of its last, and is as wide as the content
of its last line where it stops at the end of that. What is in its bytes is on its lines, so that a
search in the scope keeps every occurrence there. -/
theorem scope_extent_agrees (text : String) (node : SyntaxNode) (declared : Declaration)
    (parent : Option Nat) (hfollows : node.FollowsBytes (Source.ofString text))
    (hfull : node.range.start < node.range.stop)
    (hinside : node.range.stop ≤ (Source.ofString text).size) :
    (Source.ofString text).lineOfOffset node.range.start =
        .ok (Scope.ofNode (Source.ofString text) node declared parent).startLine ∧
      (Source.ofString text).lineOfOffset (node.range.stop - 1) =
        .ok (Scope.ofNode (Source.ofString text) node declared parent).endLine ∧
      (node.stop.column = 0 → ∃ content,
        (Source.ofString text).line
          (Scope.ofNode (Source.ofString text) node declared parent).endLine = .ok content ∧
        (Scope.ofNode (Source.ofString text) node declared parent).endColumn =
          width content + 1) ∧
      (∀ range : ByteRange, range.start < range.stop →
        (Scope.ofNode (Source.ofString text) node declared parent).containsBytes range = true →
        ∃ first last, (Source.ofString text).lineOfOffset range.start = .ok first ∧
          (Source.ofString text).lineOfOffset (range.stop - 1) = .ok last ∧
          (Scope.ofNode (Source.ofString text) node declared parent).containsLines first last =
            true) ∧
      ∀ (table : ScopeTable) (id : Nat) (ids : List Nat),
        table.get? id = some (Scope.ofNode (Source.ofString text) node declared parent) →
        id ∈ ids → ∀ (contextLines : Nat) (search : String) (occurrences : List Occurrence),
        findOccurrences (Source.ofString text) table contextLines search none = .ok occurrences →
        ∀ occurrence ∈ occurrences,
          (Scope.ofNode (Source.ofString text) node declared parent).containsBytes
            occurrence.range = true →
          ∃ kept, findOccurrences (Source.ofString text) table contextLines search (some ids) =
            .ok kept ∧ occurrence ∈ kept := by
  have hwidth : node.range.stop ≤ width text.toList := by
    rw [← Source.size_ofChars]
    exact hinside
  refine ⟨hfollows.lineOfOffset_start hfull hwidth, hfollows.lineOfOffset_last hfull hwidth,
    hfollows.exists_line_of_column_eq_zero hfull,
    fun range => hfollows.exists_lines_of_containsBytes hwidth, ?_⟩
  intro table id ids hscope hid contextLines search occurrences hfound occurrence hmem hbytes
  -- The lines of the occurrence are those that were looked up by its bytes.
  obtain ⟨start, hstart, hread⟩ := ((mem_findOccurrences_iff hfound).mp hmem).1
  have hne := ne_nil_of_mem_matchOffsets hstart
  have hpos := width_pos_of_ne_nil hne
  rw [hread.range_eq] at hbytes
  obtain ⟨first, last, hfirst, hlast, hlines⟩ :=
    hfollows.exists_lines_of_containsBytes hwidth (by simp only; omega) hbytes
  obtain rfl := Except.ok.inj (hfirst.symm.trans hread.line_eq)
  obtain rfl := Except.ok.inj (hlast.symm.trans hread.endLine_eq)
  exact exists_mem_findOccurrences hfound hmem hscope hid hlines

/-- A class whose lines end with a return and a feed. -/
def returnText : String := "class A:\r\n  x\r\n"

/-- The node of that class, up to the start of the row behind it. -/
def returnNode : SyntaxNode :=
  { kind := "class_definition"
    declared := some ⟨.classBody, "A"⟩
    start := ⟨0, 0⟩
    stop := ⟨2, 0⟩
    range := ⟨0, 15⟩
    parent := none
    children := [] }

/-- The scope of the class stops on the line of its last byte, behind the last letter there. -/
theorem returnNode_extent : returnNode.FollowsBytes (Source.ofString returnText) ∧
    returnNode.range.start < returnNode.range.stop ∧
    returnNode.range.stop ≤ (Source.ofString returnText).size ∧
    (Source.ofString returnText).lineOfOffset (returnNode.range.stop - 1) =
      .ok (Scope.ofNode (Source.ofString returnText) returnNode ⟨.classBody, "A"⟩ none).endLine ∧
    ∃ content, (Source.ofString returnText).line
        (Scope.ofNode (Source.ofString returnText) returnNode ⟨.classBody, "A"⟩ none).endLine =
          .ok content ∧
      (Scope.ofNode (Source.ofString returnText) returnNode ⟨.classBody, "A"⟩ none).endColumn =
        width content + 1 := by
  have hfollows : returnNode.FollowsBytes (Source.ofString returnText) :=
    ⟨by decide +kernel, by decide +kernel⟩
  have hinside : returnNode.range.stop ≤ (Source.ofString returnText).size := by
    decide +kernel
  obtain ⟨-, hlast, hwidth, -, -⟩ := scope_extent_agrees returnText returnNode ⟨.classBody, "A"⟩
    none hfollows (by decide) hinside
  exact ⟨hfollows, by decide, hinside, hlast, hwidth rfl⟩

example :
    let scope := Scope.ofNode (Source.ofString returnText) returnNode ⟨.classBody, "A"⟩ none
    (scope.startLine, scope.endLine, scope.endColumn) = (1, 2, 4) := by
  decide +kernel

end ExactEdit
