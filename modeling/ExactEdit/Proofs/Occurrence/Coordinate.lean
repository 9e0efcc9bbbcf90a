import ExactEdit.Proofs.Occurrence.Exactness
import ExactEdit.Proofs.Source.Coordinate

/-! # Positions that are reported

A position is reported for the start of every match. A reader who goes to its line and column is
back at the match, unless that begins between the return and the feed of a terminator: there the
column is one that the line does not have, and asking for it is refused. Only a search text with a
feed in front can begin there.

## Main results

* `Source.offsetOf_positionOf_iff` — which positions lead back
* `reported_positions_lead_back_iff` — the same of all that is reported, for offsets and for matches
-/

namespace ExactEdit

open Text

variable {chars : List Char} {scopes : ScopeTable} {contextLines offset : Nat} {search : String}
variable {within : Option (List Nat)} {occurrence : Occurrence} {occurrences : List Occurrence}
variable {position : Position}

/-- The position of an offset leads back to it exactly if the offset is in no terminator. -/
theorem Source.offsetOf_positionOf_iff (h : (ofChars chars).positionOf offset = .ok position) :
    (ofChars chars).offsetOf position = .ok offset ↔ ¬ IsInTerminator offset chars := by
  constructor
  · intro hback hinside
    rw [offsetOf_positionOf_of_isInTerminator h hinside] at hback
    cases hback
  · exact offsetOf_positionOf h

/-- A match whose text does not begin with a feed begins in no terminator. -/
theorem Text.StandsAt.not_isInTerminator {pattern : List Char} (h : StandsAt pattern offset chars)
    (hne : pattern ≠ []) (hfirst : pattern.head? ≠ some '\n') : ¬ IsInTerminator offset chars := by
  obtain ⟨before, after, rfl, rfl⟩ := h
  rw [isInTerminator_append_iff]
  rintro ⟨-, hfeed⟩
  obtain ⟨c, pattern, rfl⟩ := List.exists_cons_of_ne_nil hne
  exact hfirst hfeed

/-- An offset has a position exactly if it is in the text, which is not empty, and splits no
character. The position leads back to the offset exactly if that is not between the return and the
feed of a terminator; there it is refused for its column. The same holds of the line and column of
every match, and so these lead back to all matches of a text that does not begin with a feed. -/
theorem reported_positions_lead_back_iff (chars : List Char) (offset : Nat) :
    ((∃ position, (Source.ofChars chars).positionOf offset = .ok position) ↔
      chars ≠ [] ∧ offset ≤ width chars ∧ isBoundary offset chars = true) ∧
    (∀ position, (Source.ofChars chars).positionOf offset = .ok position →
      ((Source.ofChars chars).offsetOf position = .ok offset ↔ ¬ IsInTerminator offset chars) ∧
      (IsInTerminator offset chars → (Source.ofChars chars).offsetOf position =
        .error (.columnOutOfBounds position.line position.column (position.column - 2)))) ∧
    ∀ scopes contextLines search within occurrences,
      findOccurrences (Source.ofChars chars) scopes contextLines search within =
          .ok occurrences → ∀ occurrence ∈ occurrences,
        ((Source.ofChars chars).offsetOf ⟨occurrence.line, occurrence.column⟩ =
          .ok occurrence.range.start ↔ ¬ IsInTerminator occurrence.range.start chars) ∧
        (search.toList.head? ≠ some '\n' →
          (Source.ofChars chars).offsetOf ⟨occurrence.line, occurrence.column⟩ =
            .ok occurrence.range.start) := by
  refine ⟨?_, ?_, ?_⟩
  · rw [Source.exists_positionOf_iff]
    constructor
    · rintro ⟨hne, hboundary⟩
      exact ⟨hne, IsBoundary.le_width hboundary, hboundary⟩
    · rintro ⟨hne, -, hboundary⟩
      exact ⟨hne, hboundary⟩
  · intro position hposition
    exact ⟨Source.offsetOf_positionOf_iff hposition,
      Source.offsetOf_positionOf_of_isInTerminator hposition⟩
  · intro scopes contextLines search within occurrences h occurrence hmem
    have hposition := positionOf_of_mem_findOccurrences h hmem
    refine ⟨Source.offsetOf_positionOf_iff hposition, fun hfirst => ?_⟩
    have hne := ne_nil_of_mem_matchOffsets (start_mem_matchOffsets_of_mem_findOccurrences h hmem)
    obtain ⟨_, _, hat⟩ := isAt_of_mem_findOccurrences h hmem
    exact Source.offsetOf_positionOf hposition (hat.standsAt.not_isInTerminator hne hfirst)

/-- In the text `a`, return, feed, `b` the feed is reported in the third column of the first line,
which has two. -/
theorem returnFeed_position_refused :
    (Source.ofString "a\r\nb").positionOf 2 = .ok ⟨1, 3⟩ ∧
    (Source.ofString "a\r\nb").offsetOf ⟨1, 3⟩ ≠ .ok 2 ∧
    (findOccurrences (Source.ofString "a\r\nb") ⟨[]⟩ 3 "\n" none).toOption.map
      (·.map fun occurrence => (occurrence.range.start, occurrence.line, occurrence.column)) =
        some [(2, 1, 3)] := by
  refine ⟨by decide +kernel, by decide +kernel, by decide +kernel⟩

/-- The place in front of the return leads back, the one behind it does not. The character behind
the feed is found, and what is told of it leads there. -/
theorem returnFeed_positions_lead_back :
    (Source.ofString "a\r\nb").positionOf 1 = .ok ⟨1, 2⟩ ∧
    (Source.ofString "a\r\nb").offsetOf ⟨1, 2⟩ = .ok 1 ∧
    (Source.ofString "a\r\nb").positionOf 2 = .ok ⟨1, 3⟩ ∧
    (Source.ofString "a\r\nb").offsetOf ⟨1, 3⟩ = .error (.columnOutOfBounds 1 3 1) ∧
    ∃ occurrences, findOccurrences (Source.ofString "a\r\nb") ⟨[]⟩ 3 "b" none = .ok occurrences ∧
      occurrences.map (·.range.start) = [3] ∧ ∀ occurrence ∈ occurrences,
        (Source.ofString "a\r\nb").offsetOf ⟨occurrence.line, occurrence.column⟩ =
          .ok occurrence.range.start := by
  have hreturn : (Source.ofString "a\r\nb").positionOf 1 = .ok ⟨1, 2⟩ := by decide +kernel
  have hfeed : (Source.ofString "a\r\nb").positionOf 2 = .ok ⟨1, 3⟩ := by decide +kernel
  have hfound : (findOccurrences (Source.ofString "a\r\nb") ⟨[]⟩ 3 "b" none).toOption.map
      (·.map (·.range.start)) = some [3] := by
    decide +kernel
  have houtside : ¬ IsInTerminator 1 "a\r\nb".toList := by
    rw [show "a\r\nb".toList = ['a'] ++ ['\r', '\n', 'b'] from rfl,
      show 1 = width ['a'] from rfl, isInTerminator_append_iff]
    decide
  obtain ⟨occurrences, hoccurrences, hstarts⟩ := Result.toOption_map_eq_some_iff.mp hfound
  refine ⟨hreturn, ?_, hfeed, ?_, occurrences, hoccurrences, hstarts, ?_⟩
  · exact ((reported_positions_lead_back_iff _ 1).2.1 _ hreturn).1.mpr houtside
  · exact ((reported_positions_lead_back_iff _ 2).2.1 _ hfeed).2 ⟨['a'], ['b'], rfl, rfl⟩
  · intro occurrence hmem
    exact ((reported_positions_lead_back_iff _ 3).2.2 _ _ _ _ _ hoccurrences occurrence hmem).2
      (by decide)

end ExactEdit
