import ExactEdit.Proofs.Editor.Making
import ExactEdit.Proofs.Text.Overlap

/-! # What a unique edit is unique in

A request that is to be unique is refused if its old text is found more than once. What is found
does not overlap, so a request that is made may have had further places: all of them overlap the
first one, which is where the edit was made. There are none unless the old text ends with a text
that it also begins with.

## Main results

* `Editor.matchCount_eq_one_of_plan_eq_ok` — a unique request is planned for a single match
* `Editor.unique_edit_places` — the places of the old text of a unique edit
-/

namespace ExactEdit.Editor

open Text

variable {σ : Type} {storage : Storage (StateM σ)} {editor edited : Editor} {request : Request}
variable {plan : Plan} {report : EditReport} {state state' : σ} {chars : List Char}

/-- A unique request without filters is planned for a single match. -/
theorem matchCount_eq_one_of_plan_eq_ok (hsource : editor.source = Source.ofChars chars)
    (hfree : request.constraint.filters = []) (hunique : request.constraint.requireUnique = true)
    (h : editor.plan request = .ok plan) : matchCount request.oldText.toList chars = 1 := by
  obtain ⟨within, occurrences, target, hwithin, hfound, -, -, honly⟩ := of_plan_eq_ok h
  rw [ScopeTable.resolve_of_filters_eq_nil hfree] at hwithin
  obtain rfl := Except.ok.inj hwithin
  rw [hsource] at hfound
  rw [matchCount, ← starts_of_findOccurrences_none hfound, honly hunique]
  rfl

/-- A unique edit without filters is made at the first place of its old text, and any two places of
the old text overlap. Without a border the old text has no other place. -/
theorem unique_edit_places (hreachable : editor.Reachable)
    (hfree : request.constraint.filters = []) (hunique : request.constraint.requireUnique = true)
    (h : editor.edit storage request state = ((.ok report, edited), state')) :
    ∃ place, IsFirst request.oldText.toList place editor.source.chars ∧
      edited.source.chars = Text.splice ⟨place, place + width request.oldText.toList⟩
        request.newText.toList editor.source.chars ∧
      (∀ p q, StandsAt request.oldText.toList p editor.source.chars →
        StandsAt request.oldText.toList q editor.source.chars →
          q < p + width request.oldText.toList) ∧
      (¬ Bordered request.oldText.toList →
        ∀ other, StandsAt request.oldText.toList other editor.source.chars → other = place) := by
  have hsource := hreachable.isParsed.source_eq
  obtain ⟨plan, hplan, hedited⟩ := of_edit_eq_ok h
  have hne := oldText_ne_nil_of_plan_eq_ok hsource hplan
  have hfirst := isFirst_of_plan_eq_ok hsource hfree hplan
  have hcount := matchCount_eq_one_of_plan_eq_ok hsource hfree hunique hplan
  obtain ⟨-, hstop⟩ := standsAt_of_plan_eq_ok hsource hplan
  refine ⟨plan.range.start, hfirst, ?_, ((matchCount_eq_one_iff hne).mp hcount).2, ?_⟩
  · rw [hedited, Source.chars_ofChars, splice, ← hstop]
  · -- A single match of a text without a border is its only place.
    intro hborder other hother
    exact ((not_bordered_iff hne).mp hborder _ hcount).unique hother hfirst.1

/-! ### A unique edit with two places

In the text `aaa` the old text `aa` stands at the first byte and at the second. Behind the first
match there is no other, so the edit is made. -/

theorem exists_tripled_edit : ∃ report edited,
    (ofText "aaa".toList).edit Disk.storage ⟨"aa", "b", .default⟩ Disk.empty =
      ((.ok report, edited), Disk.empty) := by
  have hrange : ((ofText "aaa".toList).plan ⟨"aa", "b", .default⟩).toOption.map (·.range) =
      some ⟨0, 2⟩ := by
    decide +kernel
  obtain ⟨plan, hplan, -⟩ := Result.toOption_map_eq_some_iff.mp hrange
  obtain ⟨report, edited, hedit, -⟩ := exists_edit_of_plan_eq_ok Disk.storage Disk.empty rfl
    (ofText_acceptsAll _) hplan
  exact ⟨report, edited, hedit⟩

/-- The edit is made, without filters and to be unique, though the old text has two places. -/
theorem tripled_edit_two_places : (ofText "aaa".toList).Reachable ∧
    Constraint.default.filters = [] ∧ Constraint.default.requireUnique = true ∧
    (∃ report edited, (ofText "aaa".toList).edit Disk.storage ⟨"aa", "b", .default⟩ Disk.empty =
      ((.ok report, edited), Disk.empty)) ∧
    ¬ ∃! place, StandsAt "aa".toList place (ofText "aaa".toList).source.chars := by
  refine ⟨ofText_reachable _, rfl, rfl, exists_tripled_edit, ?_⟩
  intro hunique
  have hfirst : StandsAt "aa".toList 0 "aaa".toList := standsAt_append [] "aa".toList ['a']
  have hsecond : StandsAt "aa".toList 1 "aaa".toList := standsAt_append ['a'] "aa".toList []
  exact absurd (hunique.unique hfirst hsecond) (by decide)

/-- Its two places overlap. -/
theorem tripled_edit_overlap : (ofText "aaa".toList).Reachable ∧ ∃ report edited,
    (ofText "aaa".toList).edit Disk.storage ⟨"aa", "b", .default⟩ Disk.empty =
      ((.ok report, edited), Disk.empty) ∧
    ∃ place, IsFirst "aa".toList place (ofText "aaa".toList).source.chars ∧
      ∀ p q, StandsAt "aa".toList p (ofText "aaa".toList).source.chars →
        StandsAt "aa".toList q (ofText "aaa".toList).source.chars → q < p + width "aa".toList := by
  obtain ⟨report, edited, hedit⟩ := exists_tripled_edit
  obtain ⟨place, hfirst, -, hoverlap, -⟩ :=
    unique_edit_places (ofText_reachable _) rfl rfl hedit
  exact ⟨ofText_reachable _, report, edited, hedit, place, hfirst, hoverlap⟩

end ExactEdit.Editor
