import ExactEdit.Proofs.Source.Span

/-! # Windows around lines

A window shows some lines of a text with a number of further lines on both sides, or as many as
there are. Towards the beginning of the text the subtraction stops at its first line. Towards the
end the last line is told by a sum of two words, which is taken before it is held against the lines
of the text: if it is no word, there is no window, however many lines the text has.

## Main definitions

* `IsWindow` — the text of some lines with those around them

## Main results

* `Source.exists_isWindow` — what a window is to show is in the text, for every radius
* `Source.window_exact_iff` — a window shows it exactly if the number of its last line is a word,
  and the program stops otherwise
-/

namespace ExactEdit

open Text

variable {chars text before after : List Char} {first last radius : Nat}

/-- The text of the lines `first` to `last` and of those up to `radius` lines above and below them,
as far as there are such. The lines themselves are a piece of it. -/
def IsWindow (chars : List Char) (first last radius : Nat) (text : List Char) : Prop :=
  ∃ before after, IsBlock chars (max 1 (first - radius))
      (min (Source.ofChars chars).lineCount (last + radius)) before text after ∧
    ∃ front lines back, text = front ++ (lines ++ back) ∧
      IsBlock chars first last (before ++ front) lines (back ++ after)

namespace Source

/-- What a window is to show is in the text, however large the radius. -/
theorem exists_isWindow (radius : Nat) (hfirst : 1 ≤ first) (hle : first ≤ last)
    (hlast : last ≤ (ofChars chars).lineCount) : ∃ text, IsWindow chars first last radius text := by
  obtain ⟨text, htext⟩ : ∃ text, (ofChars chars).lines (max 1 (first - radius))
      (min (ofChars chars).lineCount (last + radius)) = .ok text :=
    exists_lines (by omega) (by omega) (by omega)
  obtain ⟨before, after, hblock⟩ := lines_eq_ok_iff.mp htext
  exact ⟨text, before, after, hblock, hblock.exists_inside (by omega) hle (by omega)⟩

/-- What a window shows is what it is to show. -/
theorem isWindow_of_window_eq_ok (hfirst : 1 ≤ first) (hle : first ≤ last)
    (hlast : last ≤ (ofChars chars).lineCount)
    (h : (ofChars chars).window first last radius = .ok text) :
    IsWindow chars first last radius text := by
  obtain ⟨-, hlines⟩ := window_eq_ok_iff.mp h
  rw [Nat.max_comm, Nat.min_comm] at hlines
  obtain ⟨before, after, hblock⟩ := lines_eq_ok_iff.mp hlines
  exact ⟨before, after, hblock, hblock.exists_inside (by omega) hle (by omega)⟩

/-- A window around lines of a text shows exactly those up to the radius, clipped at both ends of
the text and with the lines themselves in it, if the line that many below the last has a number that
is a word. Otherwise the program stops, even though these lines are there. -/
theorem window_exact_iff (hfirst : 1 ≤ first) (hle : first ≤ last)
    (hlast : last ≤ (ofChars chars).lineCount) (radius : Nat) :
    (∃ text, IsWindow chars first last radius text) ∧
    ((∃ text, (ofChars chars).window first last radius = .ok text ∧
        IsWindow chars first last radius text) ↔ last + radius < UInt64.size) ∧
    (UInt64.size ≤ last + radius →
      (ofChars chars).window first last radius = .error (.stopped .sumOverflow)) := by
  refine ⟨exists_isWindow radius hfirst hle hlast, ⟨?_, ?_⟩, window_eq_stopped _ first⟩
  · rintro ⟨text, hwindow, -⟩
    exact (window_eq_ok_iff.mp hwindow).1
  · intro hword
    obtain ⟨text, hwindow⟩ := exists_window hfirst hle hlast hword
    exact ⟨text, hwindow, isWindow_of_window_eq_ok hfirst hle hlast hwindow⟩

/-- With the largest radius there is, all of three lines are near enough to the second of them, but
the program stops. -/
theorem threeLines_window_stopped : (ofString "a\nb\nc").lineCount = 3 ∧
    UInt64.size - 1 < UInt64.size ∧
    IsWindow "a\nb\nc".toList 2 2 (UInt64.size - 1) "a\nb\nc".toList ∧
    (ofString "a\nb\nc").window 2 2 (UInt64.size - 1) = .error (.stopped .sumOverflow) := by
  have hcount : (ofString "a\nb\nc").lineCount = 3 := by decide +kernel
  have hwhole : (ofString "a\nb\nc").lines 1 3 = .ok "a\nb\nc".toList := by decide +kernel
  refine ⟨hcount, by decide, ?_, by decide +kernel⟩
  obtain ⟨before, after, hblock⟩ := lines_eq_ok_iff.mp hwhole
  have hcount' : (ofChars "a\nb\nc".toList).lineCount = 3 := hcount
  rw [IsWindow, hcount']
  exact ⟨before, after, hblock, hblock.exists_inside (by decide) (by decide) (by decide)⟩

/-- With the largest radius that can be added it shows all of them. -/
theorem threeLines_window_clipped :
    ∃ text, (ofString "a\nb\nc").window 2 2 (UInt64.size - 3) = .ok text ∧
      IsWindow "a\nb\nc".toList 2 2 (UInt64.size - 3) text :=
  (window_exact_iff (by decide) (by decide) (by decide +kernel) (UInt64.size - 3)).2.1.mpr
    (by decide)

end Source

end ExactEdit
