import ExactEdit.Proofs.Occurrence
import ExactEdit.Proofs.Text.Overlap

/-! # Searching in scopes

A search that is limited to scopes goes through the whole text all the same. It takes matches from
the left, goes on behind each, and keeps those on lines of a scope. A place inside a scope is
therefore lost if a match that begins further up reaches into it and is not on lines of a scope
itself. Those are the only places that are lost: a limited search finds nothing exactly if all
places in its scopes are lost in this way. It cannot happen to a search text on one line, nor to
one without a border.

## Main definitions

* `Swallowed` — a place that the search goes past with a match that it does not keep

## Main results

* `findOccurrences_ne_nil_iff` — a search finds something exactly if some place is not swallowed
* `not_swallowed_of_oneLine`, `not_swallowed_of_not_bordered` — search texts that never are
* `limited_search_finds_iff` — when a limited search finds something
-/

namespace ExactEdit

open Text

variable {chars : List Char} {scopes : ScopeTable} {contextLines : Nat} {search : String}
variable {within : Option (List Nat)} {occurrences : List Occurrence} {old : List Char}
variable {place taken : Nat}

/-- A place of the search text is swallowed if the search takes a match that begins before it and
reaches into it, on lines that the scopes do not allow. -/
def Swallowed (scopes : ScopeTable) (within : Option (List Nat)) (old chars : List Char)
    (place : Nat) : Prop :=
  ∃ taken ∈ matchOffsets old chars, taken < place ∧ place < taken + width old ∧
    allowsMatch scopes within old chars taken = false

/-- A match that is taken is not swallowed by another. -/
theorem not_swallowed_of_mem (h : place ∈ matchOffsets old chars) :
    ¬ Swallowed scopes within old chars place := by
  rintro ⟨taken, htaken, hlt, hreaches, -⟩
  have := (matchOffsets_leftmost (ne_nil_of_mem_matchOffsets h) chars).add_width_le htaken h hlt
  omega

/-- A search finds something exactly if the search text has a place on allowed lines that is not
swallowed. -/
theorem findOccurrences_ne_nil_iff (hne : search.toList ≠ [])
    (h : findOccurrences (Source.ofChars chars) scopes contextLines search within =
      .ok occurrences) :
    occurrences ≠ [] ↔ ∃ place, StandsAt search.toList place chars ∧
      allowsMatch scopes within search.toList chars place = true ∧
      ¬ Swallowed scopes within search.toList chars place := by
  have hstarts := starts_of_findOccurrences h
  constructor
  · intro hsome
    obtain ⟨occurrence, hmem⟩ := List.exists_mem_of_ne_nil _ hsome
    have hkept := List.mem_map_of_mem (f := (·.range.start)) hmem
    rw [hstarts] at hkept
    obtain ⟨htaken, hallowed⟩ := List.mem_filter.mp hkept
    exact ⟨occurrence.range.start, standsAt_of_mem_matchOffsets htaken, hallowed,
      not_swallowed_of_mem htaken⟩
  · rintro ⟨place, hstands, hallowed, hkept⟩ rfl
    -- The match that is taken over the place is kept, be it there or further up.
    obtain ⟨taken, htaken, hle, hreaches⟩ :=
      (matchOffsets_leftmost hne chars).covers (Nat.zero_le place) hstands
    have hnone : taken ∉ (matchOffsets search.toList chars).filter
        (allowsMatch scopes within search.toList chars) := by
      rw [← hstarts]
      exact List.not_mem_nil
    apply hnone
    refine List.mem_filter.mpr ⟨htaken, ?_⟩
    rcases Nat.lt_or_eq_of_le hle with hlt | rfl
    · by_contra hforbidden
      exact hkept ⟨taken, htaken, hlt, hreaches, by simpa using hforbidden⟩
    · exact hallowed

/-! ## Search texts that are never swallowed -/

/-- Without a border no match reaches into another place. -/
theorem not_swallowed_of_not_bordered (hborder : ¬ Bordered old)
    (hstands : StandsAt old place chars) : ¬ Swallowed scopes within old chars place := by
  rintro ⟨taken, htaken, hlt, hreaches, -⟩
  exact hborder (bordered_of_overlap (standsAt_of_mem_matchOffsets htaken) hstands hlt hreaches)

/-- A place that a match reaches into is on the line of that match, if the search text is on one
line. Its last character may be the terminator of that line. -/
theorem allowsMatch_eq_of_oneLine (hline : '\n' ∉ old.dropLast)
    (htaken : StandsAt old taken chars) (hstands : StandsAt old place chars) (hle : taken ≤ place)
    (hreaches : place < taken + width old) :
    allowsMatch scopes within old chars taken = allowsMatch scopes within old chars place := by
  have hne : old ≠ [] := by
    rintro rfl
    rw [width_nil] at hreaches
    omega
  obtain ⟨front, back, rfl, rfl⟩ := htaken
  obtain ⟨front', back', hcut, rfl⟩ := hstands
  obtain ⟨shift, rfl, hrest⟩ := exists_between hcut hle
  rw [width_append] at hreaches
  -- What lies between the two places is a part of the search text that ends before its last
  -- character.
  obtain ⟨border, hold, -⟩ := exists_between hrest.symm (by omega)
  have hborder : border ≠ [] := by
    rintro rfl
    rw [hold, List.append_nil] at hreaches
    omega
  have hshift : shift.count '\n' = 0 := by
    refine List.count_eq_zero_of_not_mem fun hmem => hline ?_
    rw [hold, List.dropLast_append_of_ne_nil hborder]
    exact List.mem_append_left _ hmem
  have hlast : old.dropLast.count '\n' = 0 := List.count_eq_zero_of_not_mem hline
  have hplace : allowsMatch scopes within old (front ++ (old ++ back)) (width (front ++ shift)) =
      scopes.allowsLines within ((front ++ shift).count '\n' + 1)
        ((front ++ shift ++ old.dropLast).count '\n' + 1) := by
    rw [hcut]
    exact allowsMatch_append hne _ _
  rw [hplace, allowsMatch_append hne, List.count_append, List.count_append, List.count_append,
    List.count_append, hshift, hlast]

theorem not_swallowed_of_oneLine (hline : '\n' ∉ old.dropLast) (hstands : StandsAt old place chars)
    (hallowed : allowsMatch scopes within old chars place = true) :
    ¬ Swallowed scopes within old chars place := by
  rintro ⟨taken, htaken, hlt, hreaches, hforbidden⟩
  rw [allowsMatch_eq_of_oneLine hline (standsAt_of_mem_matchOffsets htaken) hstands
    (Nat.le_of_lt hlt) hreaches, hallowed] at hforbidden
  cases hforbidden

/-! ## Limited searches -/

/-- A search that is limited to scopes has an answer, and finds something exactly if the search text
has a place on the lines of one of the scopes that is not swallowed. A search text on one line, or
without a border, is found in a scope if it stands there at all. -/
theorem limited_search_finds_iff (ids : List Nat) (hne : search.toList ≠ [])
    (hword : (Source.ofChars chars).lineCount + contextLines < UInt64.size) :
    ∃ occurrences, findOccurrences (Source.ofChars chars) scopes contextLines search (some ids) =
        .ok occurrences ∧
      (occurrences ≠ [] ↔ ∃ place, StandsAt search.toList place chars ∧
        allowsMatch scopes (some ids) search.toList chars place = true ∧
        ¬ Swallowed scopes (some ids) search.toList chars place) ∧
      ('\n' ∉ search.toList.dropLast ∨ ¬ Bordered search.toList →
        (∃ place, StandsAt search.toList place chars ∧
          allowsMatch scopes (some ids) search.toList chars place = true) → occurrences ≠ []) := by
  obtain ⟨occurrences, hfound⟩ : ∃ occurrences, findOccurrences (Source.ofChars chars) scopes
      contextLines search (some ids) = .ok occurrences := exists_findOccurrences hword
  have hiff := findOccurrences_ne_nil_iff hne hfound
  refine ⟨occurrences, hfound, hiff, ?_⟩
  rintro hsearch ⟨place, hstands, hallowed⟩
  refine hiff.mpr ⟨place, hstands, hallowed, ?_⟩
  rcases hsearch with hline | hborder
  · exact not_swallowed_of_oneLine hline hstands hallowed
  · exact not_swallowed_of_not_bordered hborder hstands

/-! ### A place that is swallowed

Line 1 of the text below ends with a brace and line 2 declares `f`, as lines 2 and 3 do once more.
The match on lines 1 and 2 is taken, and the one on lines 2 and 3, inside the outer `f`, overlaps
it. -/

/-- A method `f` with a function `f` inside, line by line. -/
def nestedSource : Source :=
  Source.ofChars "impl A \x7b\nfn f() \x7b\nfn f() \x7b\n\x7d\x7d\x7d\n".toList

/-- The end of a line and the one behind it. -/
def nestedSearch : String := "\x7b\nfn f() \x7b"

/-- The scopes of that text. -/
def nestedScopes : ScopeTable :=
  ⟨[⟨.classBody, "A", 1, 4, 1, 4, ⟨0, 30⟩, none⟩, ⟨.method, "f", 2, 4, 1, 3, ⟨9, 29⟩, some 0⟩,
    ⟨.function, "f", 3, 4, 1, 2, ⟨18, 28⟩, some 1⟩]⟩

/-- In the method the search text stands, but is not found. -/
theorem nested_search_misses : ∃ place, StandsAt nestedSearch.toList place nestedSource.chars ∧
    allowsMatch nestedScopes (some [1]) nestedSearch.toList nestedSource.chars place = true ∧
    findOccurrences nestedSource nestedScopes defaultContextLines nestedSearch (some [1]) =
      .ok [] := by
  refine ⟨16, ⟨"impl A \x7b\nfn f() ".toList, "\n\x7d\x7d\x7d\n".toList, ?_, ?_⟩, ?_, ?_⟩
  · decide
  · decide
  · decide +kernel
  · decide +kernel

/-- The place in the method is swallowed, and there is no other. -/
theorem nested_search_finds_nothing : nestedSearch.toList ≠ [] ∧
    nestedSource.lineCount + defaultContextLines < UInt64.size ∧
    ¬ ∃ place, StandsAt nestedSearch.toList place nestedSource.chars ∧
      allowsMatch nestedScopes (some [1]) nestedSearch.toList nestedSource.chars place = true ∧
      ¬ Swallowed nestedScopes (some [1]) nestedSearch.toList nestedSource.chars place := by
  have hne : nestedSearch.toList ≠ [] := by decide
  have hword : nestedSource.lineCount + defaultContextLines < UInt64.size := by decide +kernel
  refine ⟨hne, hword, ?_⟩
  have hnone : findOccurrences nestedSource nestedScopes defaultContextLines nestedSearch
      (some [1]) = .ok [] := by
    decide +kernel
  obtain ⟨occurrences, hfound, hiff, -⟩ := limited_search_finds_iff [1] hne hword
  obtain rfl := Except.ok.inj (hnone.symm.trans hfound)
  exact fun hplace => hiff.mpr hplace rfl

end ExactEdit
