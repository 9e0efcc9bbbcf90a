import ExactEdit.Text.Blank
import ExactEdit.Text.Line
import Mathlib.Data.List.Basic

/-! # Lines one by one

The lines of a text are cut off one after the other: the first ends with the first line feed, and
the others are the lines of what is behind. What a line ends with is blank, so whether a line has
text, and where that begins, can be told with or without its terminator.

## Main results

* `Text.lines_cons`, `Text.lines_eq_singleton` — the lines of a text by its line feeds
* `Text.exists_lineContent_append` — a line is its content with blanks behind it
* `Text.indentation_append` — text that stands in a line fixes its indentation
-/

namespace ExactEdit.Text

variable {line rest chars front back : List Char}

/-! ## Cutting off -/

/-- Pieces that are finished are put in front. -/
theorem cutAfter_eq (ends : Char → Bool) (done : List (List Char)) (current chars : List Char) :
    cutAfter ends done current chars = done.reverse ++ cutAfter ends [] current chars := by
  induction chars generalizing done current with
  | nil =>
    rw [cutAfter, cutAfter]
    split
    · simp
    · simp
  | cons c rest ih =>
    rw [cutAfter, cutAfter]
    split
    · rw [ih (((c :: current).reverse) :: done), ih [(c :: current).reverse]]
      simp
    · exact ih done (c :: current)

theorem cutAfter_append (current : List Char) (h : '\n' ∉ line) (rest : List Char) :
    cutAfter (· == '\n') [] current (line ++ rest) =
      cutAfter (· == '\n') [] (line.reverse ++ current) rest := by
  induction line generalizing current with
  | nil => rfl
  | cons c line ih =>
    obtain ⟨hc, hline⟩ := not_or.mp (List.mem_cons.not.mp h)
    rw [List.cons_append, cutAfter, if_neg (by simpa using Ne.symm hc), ih _ hline]
    simp

theorem terminatedLines_cons (h : '\n' ∉ line) (rest : List Char) :
    terminatedLines (line ++ '\n' :: rest) = (line ++ ['\n']) :: terminatedLines rest := by
  rw [terminatedLines, cutAfter_append _ h, cutAfter, if_pos (by rfl), cutAfter_eq, terminatedLines]
  simp

theorem terminatedLines_eq_singleton (h : '\n' ∉ line) (hne : line ≠ []) :
    terminatedLines line = [line] := by
  have hcut := cutAfter_append [] h []
  rw [List.append_nil, List.append_nil] at hcut
  rw [terminatedLines, hcut, cutAfter, if_neg (by simpa using hne)]
  simp

@[simp] theorem lines_nil : lines [] = [] := rfl

/-- The first line ends with the first line feed. -/
theorem lines_cons (h : '\n' ∉ line) (rest : List Char) :
    lines (line ++ '\n' :: rest) = lineContent (line ++ ['\n']) :: lines rest := by
  rw [lines, terminatedLines_cons h, List.map_cons, lines]

/-- A text without line feeds is one line. -/
theorem lines_eq_singleton (h : '\n' ∉ line) (hne : line ≠ []) :
    lines line = [lineContent line] := by
  rw [lines, terminatedLines_eq_singleton h hne, List.map_singleton]

/-! ## Blanks -/

/-- A line is its content with blanks behind it. -/
theorem exists_lineContent_append (line : List Char) :
    ∃ ending, line = lineContent line ++ ending ∧ isBlankLine ending = true := by
  rw [lineContent]
  split
  · next rest hrest =>
    exact ⟨['\r', '\n'], by rw [← List.reverse_reverse line, hrest]; simp, by decide⟩
  · next rest hrest =>
    exact ⟨['\n'], by rw [← List.reverse_reverse line, hrest]; simp, by decide⟩
  · exact ⟨[], by simp, rfl⟩

theorem isBlankLine_append (front back : List Char) :
    isBlankLine (front ++ back) = (isBlankLine front && isBlankLine back) :=
  List.all_append

/-- Text that stands in a line fixes its indentation. -/
theorem indentation_append (h : isBlankLine front = false) (back : List Char) :
    indentation (front ++ back) = indentation front := by
  induction front with
  | nil => cases h
  | cons c front ih =>
    rw [indentation, indentation, List.cons_append, List.takeWhile_cons, List.takeWhile_cons]
    cases hc : isBlank c with
    | false => rfl
    | true =>
      have hfront : isBlankLine front = false := by
        simpa [isBlankLine, hc] using h
      exact congrArg (c :: ·) (ih hfront)

/-- Blanks in front of a line are a part of its indentation. -/
theorem indentation_append_of_blank (h : isBlankLine front = true) (back : List Char) :
    indentation (front ++ back) = front ++ indentation back :=
  List.takeWhile_append_of_pos (List.all_eq_true.mp h)

theorem isBlankLine_lineContent (line : List Char) :
    isBlankLine (lineContent line) = isBlankLine line := by
  obtain ⟨ending, hline, hending⟩ := exists_lineContent_append line
  have := isBlankLine_append (lineContent line) ending
  rw [← hline, hending, Bool.and_true] at this
  exact this.symm

theorem indentation_lineContent (h : isBlankLine line = false) :
    indentation (lineContent line) = indentation line := by
  obtain ⟨ending, hline, -⟩ := exists_lineContent_append line
  have := indentation_append ((isBlankLine_lineContent line).trans h) ending
  rw [← hline] at this
  exact this.symm

end ExactEdit.Text
