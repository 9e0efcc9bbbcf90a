import ExactEdit.Check.Balance
import Mathlib.Data.List.Induction

/-! # Balance of joined texts

The depths of a text can be read off the depths of its parts: the nets add up, and the lowest depth
is that of the first part, or that of the second as it is reached from the net of the first. A
balanced part leaves no trace in this. So it may be taken out of a text or put into it, and whether
the whole is balanced is a matter of what is around it.

## Main definitions

* `Balance.append` — the depths of a text from those of its two parts
* `Text.Balanced` — no brace and no parenthesis is closed too early or left open

## Main results

* `Balance.scan_append` — the depths of joined texts
* `balanceWarnings_eq_nil_iff` — nothing is said of a balanced text, and of no other
* `Text.Balanced.insert_iff` — a balanced part does not matter
-/

namespace ExactEdit

variable {opening closing : Char} {chars front inner back : List Char}

namespace Balance

/-- The depths of a text whose parts have these. -/
def append (first second : Balance) : Balance :=
  ⟨first.net + second.net, min first.lowest (first.net + second.lowest)⟩

@[simp] theorem scan_nil : scan opening closing [] = ⟨0, 0⟩ := rfl

theorem scan_concat (opening closing : Char) (chars : List Char) (c : Char) :
    scan opening closing (chars ++ [c]) = step opening closing (scan opening closing chars) c := by
  rw [scan, List.foldl_append]
  rfl

/-- A text begins at depth zero and ends at its net; no depth is lower than the lowest. -/
theorem lowest_le (opening closing : Char) (chars : List Char) :
    (scan opening closing chars).lowest ≤ 0 ∧
      (scan opening closing chars).lowest ≤ (scan opening closing chars).net := by
  induction chars using List.reverseRecOn with
  | nil => exact ⟨Int.le_refl 0, Int.le_refl 0⟩
  | append_singleton chars c ih =>
    rw [scan_concat, step]
    split
    · exact ⟨ih.1, by simp only; omega⟩
    · split
      · exact ⟨by simp only; omega, by simp only; omega⟩
      · exact ih

/-- One more character is read in the second part as in the whole. -/
theorem append_step (first second : Balance) (c : Char) :
    first.append (step opening closing second c) =
      step opening closing (first.append second) c := by
  simp only [step, append]
  split
  · simp only [mk.injEq, and_true]
    omega
  · split
    · simp only [mk.injEq]
      omega
    · rfl

/-- The depths of joined texts. -/
theorem scan_append (opening closing : Char) (front back : List Char) :
    scan opening closing (front ++ back) =
      (scan opening closing front).append (scan opening closing back) := by
  -- The scan reads from the front, so the second part is taken apart from its end.
  induction back using List.reverseRecOn with
  | nil =>
    have := (lowest_le opening closing front).2
    rw [List.append_nil, scan_nil, append, Int.add_zero, Int.min_eq_left this]
  | append_singleton back c ih =>
    rw [← List.append_assoc, scan_concat, ih, scan_concat, append_step]

/-- A part without depths of its own can be left out in the middle. -/
theorem scan_insert (hinner : scan opening closing inner = ⟨0, 0⟩) (front back : List Char) :
    scan opening closing (front ++ (inner ++ back)) = scan opening closing (front ++ back) := by
  have hlowest := (lowest_le opening closing back).1
  have hback : scan opening closing (inner ++ back) = scan opening closing back := by
    rw [scan_append, hinner, append, Int.zero_add, Int.zero_add, Int.min_eq_right hlowest]
  rw [scan_append, hback, ← scan_append]

end Balance

open Balance

/-- Nothing is said of a pair of delimiters that never goes below zero and ends there. -/
theorem balanceWarning?_eq_none_iff {label : String} :
    balanceWarning? label opening closing chars = none ↔ scan opening closing chars = ⟨0, 0⟩ := by
  have hlowest := (lowest_le opening closing chars).1
  simp only [balanceWarning?]
  generalize scan opening closing chars = balance at hlowest ⊢
  obtain ⟨net, lowest⟩ := balance
  simp only at hlowest ⊢
  split
  · simp only [reduceCtorEq, false_iff, mk.injEq]
    omega
  · split
    · simp only [reduceCtorEq, false_iff, mk.injEq]
      omega
    · -- Never below zero, the lowest depth is the one at the beginning.
      simp only [true_iff, mk.injEq]
      omega

namespace Text

/-- No brace and no parenthesis is closed before it is opened, and none is left open. -/
def Balanced (chars : List Char) : Prop :=
  scan '\x7b' '\x7d' chars = ⟨0, 0⟩ ∧ scan '(' ')' chars = ⟨0, 0⟩

instance (chars : List Char) : Decidable (Balanced chars) :=
  inferInstanceAs (Decidable (_ ∧ _))

/-- A balanced part does not matter for the balance of a text. -/
theorem Balanced.insert_iff (hinner : Balanced inner) (front back : List Char) :
    Balanced (front ++ (inner ++ back)) ↔ Balanced (front ++ back) := by
  rw [Balanced, Balanced, scan_insert hinner.1, scan_insert hinner.2]

end Text

/-- Nothing is said of a balanced replacement, and of no other. -/
theorem balanceWarnings_eq_nil_iff {replacement : String} :
    balanceWarnings replacement = [] ↔ Text.Balanced replacement.toList := by
  rw [balanceWarnings, List.append_eq_nil_iff, Option.toList_eq_nil_iff, Option.toList_eq_nil_iff,
    balanceWarning?_eq_none_iff, balanceWarning?_eq_none_iff, Text.Balanced]

end ExactEdit
