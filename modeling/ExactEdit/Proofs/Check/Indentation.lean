import ExactEdit.Check.Indentation
import ExactEdit.Proofs.Text.Line

/-! # Indentation of texts in context

The indentation check compares lines in pairs, so it depends on where the lines of a text begin and
on how many there are. A pair of texts that passes on its own may fail once it is put between other
texts: a blank line gets text behind it, or the lines behind are no longer paired with themselves.
Two texts whose lines are alike one by one, in number as well, pass in whatever context both are put
into.

## Main definitions

* `Text.SameIndentation` — two lines that the check lets pass
* `Text.LinesAlike` — two texts that are alike line by line

## Main results

* `indentationIssues_eq_nil_iff` — nothing is said exactly if all pairs of lines pass
* `Text.LinesAlike.insert` — texts that are alike stay alike between others
* `Text.LinesAlike.indentationIssues_eq_nil` — nothing is said of texts that are alike
-/

namespace ExactEdit

namespace Text

variable {old new oldRest newRest : List Char}

/-! ## Pairs of lines -/

/-- One of the lines has no text, or both are indented in the same way. -/
def SameIndentation (old new : List Char) : Prop :=
  isBlankLine old = true ∨ isBlankLine new = true ∨ indentation old = indentation new

/-- The lines are the same, or both have text and are indented in the same way. -/
def Alike (old new : List Char) : Prop :=
  old = new ∨
    isBlankLine old = false ∧ isBlankLine new = false ∧ indentation old = indentation new

theorem Alike.sameIndentation_lineContent (h : Alike old new) :
    SameIndentation (lineContent old) (lineContent new) := by
  rcases h with rfl | ⟨hold, hnew, hsame⟩
  · exact .inr (.inr rfl)
  · refine .inr (.inr ?_)
    rw [indentation_lineContent hold, indentation_lineContent hnew, hsame]

theorem Alike.append_right (h : Alike old new) (back : List Char) :
    Alike (old ++ back) (new ++ back) := by
  rcases h with rfl | ⟨hold, hnew, hsame⟩
  · exact .inl rfl
  · refine .inr ⟨?_, ?_, ?_⟩
    · rw [isBlankLine_append, hold, Bool.false_and]
    · rw [isBlankLine_append, hnew, Bool.false_and]
    · rw [indentation_append hold, indentation_append hnew, hsame]

theorem Alike.append_left (h : Alike old new) (front : List Char) :
    Alike (front ++ old) (front ++ new) := by
  rcases h with rfl | ⟨hold, hnew, hsame⟩
  · exact .inl rfl
  · refine .inr ⟨?_, ?_, ?_⟩
    · rw [isBlankLine_append, hold, Bool.and_false]
    · rw [isBlankLine_append, hnew, Bool.and_false]
    · -- The front is a part of both indentations, or has text and fixes them.
      cases hfront : isBlankLine front with
      | true => rw [indentation_append_of_blank hfront, indentation_append_of_blank hfront, hsame]
      | false => rw [indentation_append hfront, indentation_append hfront]

/-! ## Texts -/

/-- Two texts with the same number of lines, which are alike in pairs. -/
inductive LinesAlike : List Char → List Char → Prop
  | last {old new : List Char} (hold : '\n' ∉ old) (hnew : '\n' ∉ new) (alike : Alike old new) :
      LinesAlike old new
  | line {old new oldRest newRest : List Char} (hold : '\n' ∉ old) (hnew : '\n' ∉ new)
      (alike : Alike old new) (rest : LinesAlike oldRest newRest) :
      LinesAlike (old ++ '\n' :: oldRest) (new ++ '\n' :: newRest)

namespace LinesAlike

theorem cons (c : Char) (h : LinesAlike old new) : LinesAlike (c :: old) (c :: new) := by
  by_cases hc : c = '\n'
  · subst hc
    exact .line List.not_mem_nil List.not_mem_nil (.inl rfl) h
  · -- The first lines get one more character in front.
    have hfeed : ∀ {line : List Char}, '\n' ∉ line → '\n' ∉ c :: line := fun hline hmem =>
      (List.mem_cons.mp hmem).elim (fun h => hc h.symm) hline
    cases h with
    | last hold hnew alike => exact .last (hfeed hold) (hfeed hnew) (alike.append_left [c])
    | line hold hnew alike rest =>
      exact .line (hfeed hold) (hfeed hnew) (alike.append_left [c]) rest

theorem append_left (h : LinesAlike old new) (front : List Char) :
    LinesAlike (front ++ old) (front ++ new) := by
  induction front with
  | nil => exact h
  | cons c front ih => exact ih.cons c

theorem refl (chars : List Char) : LinesAlike chars chars := by
  have h := (last List.not_mem_nil List.not_mem_nil (.inl rfl)).append_left chars
  rwa [List.append_nil] at h

theorem append_right (h : LinesAlike old new) (back : List Char) :
    LinesAlike (old ++ back) (new ++ back) := by
  induction h with
  | last hold hnew alike =>
    -- The last lines go on with the first line of what is behind.
    by_cases hmem : '\n' ∈ back
    · obtain ⟨line, rest, rfl, hline⟩ := List.eq_append_cons_of_mem hmem
      rw [← List.append_assoc, ← List.append_assoc]
      exact .line (by simp [hold, hline]) (by simp [hnew, hline]) (alike.append_right line)
        (refl rest)
    · exact .last (by simp [hold, hmem]) (by simp [hnew, hmem]) (alike.append_right back)
  | line hold hnew alike _ ih =>
    rw [List.append_assoc, List.append_assoc, List.cons_append, List.cons_append]
    exact .line hold hnew alike ih

/-- Texts that are alike stay alike between others. -/
theorem insert (h : LinesAlike old new) (front back : List Char) :
    LinesAlike (front ++ (old ++ back)) (front ++ (new ++ back)) :=
  (h.append_right back).append_left front

theorem sameIndentation (h : LinesAlike old new) {pair : List Char × List Char}
    (hpair : pair ∈ (lines old).zip (lines new)) : SameIndentation pair.1 pair.2 := by
  induction h with
  | @last old new hold hnew alike =>
    by_cases hempty : old = [] ∨ new = []
    · rcases hempty with rfl | rfl
      · simp at hpair
      · simp at hpair
    · obtain ⟨hne, hne'⟩ := not_or.mp hempty
      rw [lines_eq_singleton hold hne, lines_eq_singleton hnew hne'] at hpair
      obtain rfl := List.mem_singleton.mp hpair
      exact alike.sameIndentation_lineContent
  | line hold hnew alike _ ih =>
    rw [lines_cons hold, lines_cons hnew, List.zip_cons_cons] at hpair
    rcases List.mem_cons.mp hpair with rfl | hrest
    · exact (alike.append_right ['\n']).sameIndentation_lineContent
    · exact ih hrest

end LinesAlike

end Text

open Text

theorem indentationIssue?_eq_none_iff {index : Nat} {old new : List Char} :
    indentationIssue? index old new = none ↔ SameIndentation old new := by
  simp only [indentationIssue?, SameIndentation]
  split
  · next h => simpa [or_assoc] using h
  · next h => simpa [or_assoc] using h

/-- Nothing is said exactly if all pairs of lines pass. -/
theorem indentationIssues_eq_nil_iff {old new : String} :
    indentationIssues old new = [] ↔
      ∀ pair ∈ (lines old.toList).zip (lines new.toList), SameIndentation pair.1 pair.2 := by
  rw [indentationIssues, List.filterMap_eq_nil_iff]
  constructor
  · intro h pair hpair
    obtain ⟨index, hindex⟩ := List.getElem?_of_mem hpair
    exact indentationIssue?_eq_none_iff.mp
      (h (pair, index) (List.mem_zipIdx_iff_getElem?.mpr hindex))
  · rintro h ⟨pair, index⟩ hmem
    exact indentationIssue?_eq_none_iff.mpr (h pair (List.fst_mem_of_mem_zipIdx hmem))

/-- Nothing is said of texts that are alike. -/
theorem Text.LinesAlike.indentationIssues_eq_nil {old new : String}
    (h : LinesAlike old.toList new.toList) : indentationIssues old new = [] :=
  indentationIssues_eq_nil_iff.mpr fun _ hpair => h.sameIndentation hpair

end ExactEdit
