import ExactEdit.Proofs.Suggestion.Widening

/-! # Where suggestions come from

Suggestions are gathered from all occurrences, made distinct and sorted. None of these steps makes
up a suggestion: each one that is left was a candidate of an occurrence on the line it names, and a
candidate of a wider search text is what widening makes of one of the blocks of that occurrence.
The steps do not stop either, so gathering stops exactly if some block does.

## Main results

* `exists_of_mem_suggestions` — every suggestion is a candidate of some occurrence
* `exists_widen_of_mem_suggestions` — a wider search text is a block of its occurrence, widened
* `exists_suggestions_eq_error_iff` — suggestions stop exactly at an overhang
-/

namespace ExactEdit

open Result

variable {basis : SuggestionBasis} {old new : String} {occurrence : Occurrence}
variable {occurrences : List Occurrence} {suggestion other : Suggestion} {list : List Suggestion}

/-! ## Making distinct -/

theorem Suggestion.mem_of_mem_addTo (h : suggestion ∈ other.addTo list) :
    suggestion = other ∨ suggestion ∈ list := by
  induction list with
  | nil => exact .inl (List.mem_singleton.mp h)
  | cons head rest ih =>
    rw [addTo] at h
    split at h
    · rcases List.mem_cons.mp h with rfl | hrest
      · split
        · exact .inl rfl
        · exact .inr List.mem_cons_self
      · exact .inr (List.mem_cons_of_mem _ hrest)
    · rcases List.mem_cons.mp h with rfl | hrest
      · exact .inr List.mem_cons_self
      · exact (ih hrest).imp_right (List.mem_cons_of_mem _)

/-- Making distinct keeps some of the suggestions and adds none. -/
theorem Suggestion.mem_of_mem_distinct (h : suggestion ∈ distinct list) : suggestion ∈ list := by
  have hfold : ∀ kept, suggestion ∈ list.foldl (fun kept s => s.addTo kept) kept →
      suggestion ∈ kept ∨ suggestion ∈ list := by
    clear h
    induction list with
    | nil => exact fun kept h => .inl h
    | cons head rest ih =>
      intro kept h
      rcases ih _ h with hkept | hrest
      · rcases mem_of_mem_addTo hkept with rfl | hbefore
        · exact .inr List.mem_cons_self
        · exact .inl hbefore
      · exact .inr (List.mem_cons_of_mem _ hrest)
  exact (hfold [] h).resolve_left (by simp)

/-- Sorting adds no suggestion and loses none. -/
theorem exists_suggestions_eq_ok {all : List (List Suggestion)}
    (h : occurrences.mapM (basis.candidates old new occurrences) = .ok all) :
    ∃ list, suggestions basis old new occurrences = .ok list ∧
      ∀ suggestion, suggestion ∈ list ↔ suggestion ∈ Suggestion.distinct all.flatten :=
  ⟨_, bind_eq_ok_iff.mpr ⟨all, h, rfl⟩, fun _ => List.mem_mergeSort⟩

/-- Every suggestion is a candidate of some occurrence. -/
theorem exists_of_mem_suggestions
    (h : suggestions basis old new occurrences = .ok list) (hmem : suggestion ∈ list) :
    ∃ occurrence ∈ occurrences, ∃ candidates,
      basis.candidates old new occurrences occurrence = .ok candidates ∧
        suggestion ∈ candidates := by
  obtain ⟨all, hall, hlist⟩ := bind_eq_ok_iff.mp h
  obtain rfl := Except.ok.inj hlist
  have hflat := Suggestion.mem_of_mem_distinct (List.mem_mergeSort.mp hmem)
  obtain ⟨candidates, hcandidates, hmem⟩ := List.mem_flatten.mp hflat
  obtain ⟨occurrence, hoccurrence, hstep⟩ := exists_of_mapM_eq_ok hall hcandidates
  exact ⟨occurrence, hoccurrence, candidates, hstep, hmem⟩

namespace SuggestionBasis

/-! ## The two wider search texts -/

theorem surrounding_eq_ok_some
    (h : basis.surrounding old new occurrence = .ok (some suggestion)) :
    suggestion.line = occurrence.line ∧
      basis.widen old new occurrence.range (max (occurrence.line - basis.contextLines) 1)
        occurrence.endLine = .ok (some (suggestion.oldText, suggestion.newText)) := by
  obtain ⟨widened, hwidened, hmap⟩ := bind_eq_ok_iff.mp h
  obtain ⟨⟨oldText, newText⟩, rfl, rfl⟩ := Option.map_eq_some_iff.mp (Except.ok.inj hmap)
  exact ⟨rfl, hwidened⟩

theorem exists_surrounding_eq_error_iff :
    (∃ fault, basis.surrounding old new occurrence = .error fault) ↔
      ∃ fault, basis.widen old new occurrence.range
        (max (occurrence.line - basis.contextLines) 1) occurrence.endLine = .error fault :=
  exists_congr fun _ => bind_ok_eq_error_iff

theorem comment_eq_ok_some (h : basis.comment old new occurrence = .ok (some suggestion)) :
    ∃ anchor, basis.nearestComment? occurrence.line occurrence.endLine = some anchor ∧
      suggestion.line = occurrence.line ∧
      basis.widen old new occurrence.range (basis.commentBlock occurrence anchor).1
        (basis.commentBlock occurrence anchor).2 =
          .ok (some (suggestion.oldText, suggestion.newText)) := by
  rw [comment] at h
  split at h
  · cases h
  · next anchor hanchor =>
    obtain ⟨widened, hwidened, hmap⟩ := bind_eq_ok_iff.mp h
    obtain ⟨⟨oldText, newText⟩, rfl, rfl⟩ := Option.map_eq_some_iff.mp (Except.ok.inj hmap)
    exact ⟨anchor, hanchor, rfl, hwidened⟩

theorem exists_comment_eq_error_iff :
    (∃ fault, basis.comment old new occurrence = .error fault) ↔
      ∃ anchor, basis.nearestComment? occurrence.line occurrence.endLine = some anchor ∧
        ∃ fault, basis.widen old new occurrence.range (basis.commentBlock occurrence anchor).1
          (basis.commentBlock occurrence anchor).2 = .error fault := by
  rw [comment]
  cases hnearest : basis.nearestComment? occurrence.line occurrence.endLine with
  | none => simp
  | some anchor =>
    simp only [Option.some.injEq, exists_eq_left']
    exact exists_congr fun _ => bind_ok_eq_error_iff

/-- The candidates of an occurrence are those of the three strategies. -/
theorem mem_candidates_iff {candidates : List Suggestion}
    (h : basis.candidates old new occurrences occurrence = .ok candidates) :
    suggestion ∈ candidates ↔ basis.surrounding old new occurrence = .ok (some suggestion) ∨
      basis.comment old new occurrence = .ok (some suggestion) ∨
      basis.scope old new occurrence occurrences = some suggestion := by
  obtain ⟨surrounding, hsurrounding, h⟩ := bind_eq_ok_iff.mp h
  obtain ⟨comment, hcomment, h⟩ := bind_eq_ok_iff.mp h
  obtain rfl := Except.ok.inj h
  rw [hsurrounding, hcomment, List.mem_append, List.mem_append, Option.mem_toList,
    Option.mem_toList, Option.mem_toList, Except.ok.injEq, Except.ok.injEq, or_assoc]

/-- A candidate other than a scope is what widening makes of a block. -/
theorem exists_widen_of_mem_candidates {candidates : List Suggestion}
    (h : basis.candidates old new occurrences occurrence = .ok candidates)
    (hmem : suggestion ∈ candidates) (hstrategy : suggestion.strategy ≠ .scope) :
    suggestion.line = occurrence.line ∧ ∃ lines ∈ basis.blocks occurrence,
      basis.widen old new occurrence.range lines.1 lines.2 =
        .ok (some (suggestion.oldText, suggestion.newText)) := by
  rcases (mem_candidates_iff h).mp hmem with hsurrounding | hcomment | hscope
  · obtain ⟨hline, hwiden⟩ := surrounding_eq_ok_some hsurrounding
    exact ⟨hline, _, List.mem_cons_self, hwiden⟩
  · obtain ⟨anchor, hanchor, hline, hwiden⟩ := comment_eq_ok_some hcomment
    refine ⟨hline, basis.commentBlock occurrence anchor, List.mem_cons_of_mem _ ?_, hwiden⟩
    rw [hanchor]
    exact List.mem_singleton_self _
  · -- The third candidate names its own strategy.
    refine absurd ?_ hstrategy
    simp only [scope, Option.bind_eq_bind, Option.bind_eq_some_iff, Option.pure_def,
      Option.some.injEq] at hscope
    obtain ⟨_, -, _, -, rfl⟩ := hscope
    rfl

/-- The candidates of an occurrence stop exactly if widening one of its blocks does. -/
theorem exists_candidates_eq_error_iff :
    (∃ fault, basis.candidates old new occurrences occurrence = .error fault) ↔
      ∃ lines ∈ basis.blocks occurrence, ∃ fault,
        basis.widen old new occurrence.range lines.1 lines.2 = .error fault := by
  -- The scope of an occurrence is looked up without a block, and is no reason to stop.
  have hblocks : (∃ lines ∈ basis.blocks occurrence, ∃ fault,
      basis.widen old new occurrence.range lines.1 lines.2 = .error fault) ↔
        (∃ fault, basis.surrounding old new occurrence = .error fault) ∨
          ∃ fault, basis.comment old new occurrence = .error fault := by
    rw [blocks, List.exists_mem_cons_iff, exists_surrounding_eq_error_iff,
      exists_comment_eq_error_iff]
    simp
  rw [hblocks]
  constructor
  · rintro ⟨fault, h⟩
    rcases bind_eq_error_iff.mp h with hsurrounding | ⟨_, -, h⟩
    · exact .inl ⟨fault, hsurrounding⟩
    · exact .inr ⟨fault, bind_ok_eq_error_iff.mp h⟩
  · intro h
    cases hsurrounding : basis.surrounding old new occurrence with
    | error fault => exact ⟨fault, bind_eq_error_iff.mpr (.inl hsurrounding)⟩
    | ok surrounding =>
      obtain ⟨fault, hcomment⟩ := h.resolve_left (by simp [hsurrounding])
      exact ⟨fault, bind_eq_error_iff.mpr (.inr ⟨surrounding, hsurrounding,
        bind_ok_eq_error_iff.mpr hcomment⟩)⟩

end SuggestionBasis

/-! ## All suggestions -/

/-- A wider search text is a block of an occurrence, widened. -/
theorem exists_widen_of_mem_suggestions
    (h : suggestions basis old new occurrences = .ok list) (hmem : suggestion ∈ list)
    (hstrategy : suggestion.strategy ≠ .scope) :
    ∃ occurrence ∈ occurrences, suggestion.line = occurrence.line ∧
      ∃ lines ∈ basis.blocks occurrence, basis.widen old new occurrence.range lines.1 lines.2 =
        .ok (some (suggestion.oldText, suggestion.newText)) := by
  obtain ⟨occurrence, hoccurrence, candidates, hcandidates, hmem⟩ :=
    exists_of_mem_suggestions h hmem
  exact ⟨occurrence, hoccurrence,
    SuggestionBasis.exists_widen_of_mem_candidates hcandidates hmem hstrategy⟩

/-- Suggestions stop exactly if an occurrence overhangs one of its blocks. -/
theorem exists_suggestions_eq_error_iff {chars : List Char}
    (hsource : basis.source = Source.ofChars chars)
    (hat : ∀ occurrence ∈ occurrences, ∃ before after,
      occurrence.IsAt old.toList chars before after) :
    (∃ fault, suggestions basis old new occurrences = .error fault) ↔
      ∃ occurrence ∈ occurrences, ∃ lines ∈ basis.blocks occurrence,
        basis.Overhangs old occurrence lines := by
  have hgather : (∃ fault, suggestions basis old new occurrences = .error fault) ↔
      ∃ fault, occurrences.mapM (basis.candidates old new occurrences) = .error fault :=
    exists_congr fun _ => bind_ok_eq_error_iff
  rw [hgather, exists_mapM_eq_error_iff]
  refine exists_congr fun occurrence => and_congr_right fun hmem => ?_
  obtain ⟨before, after, hplace⟩ := hat occurrence hmem
  rw [SuggestionBasis.exists_candidates_eq_error_iff]
  refine exists_congr fun lines => and_congr_right fun hlines => ?_
  exact SuggestionBasis.exists_widen_eq_error_iff hsource hplace
    (SuggestionBasis.bounds_of_mem_blocks hlines hplace.line_pos).1

end ExactEdit
