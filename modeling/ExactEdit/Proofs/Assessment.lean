import ExactEdit.Assessment.Assess
import ExactEdit.Proofs.Suggestion.Candidates

/-! # How an assessment ends

An assessment goes through its checks in a fixed order, and each of them ends it in its own way.
Only the search and the suggestions can stop the program, the search only if the lines that it is to
show have no numbers. Suggestions are asked for if the texts mean an edit, the filters select
something and the old text occurs more than once there, so the program stops exactly if, beyond
that, an occurrence overhangs one of its blocks.

## Main definitions

* `SuggestionBasis.HasOverhang` — a request that the program stops at

## Main results

* `exists_assess_eq_stopped_iff` — an assessment stops exactly at an overhang
* `assess_eq_ok_iff` — when an assessment is made, and what it holds
* `of_assess_eq_error` — how it ends early
-/

namespace ExactEdit

open Text Result

variable {basis : SuggestionBasis} {checker : Option SnippetChecker} {old new : String}
variable {constraint : Constraint} {chars : List Char}

/-- The texts mean an edit, the filters select something, the old text occurs there more than once
and one of its occurrences overhangs one of its blocks. -/
def SuggestionBasis.HasOverhang (basis : SuggestionBasis) (old new : String)
    (constraint : Constraint) : Prop :=
  checkTexts old new = .ok () ∧
    ∃ within, basis.scopes.resolve constraint = .ok within ∧
      ∃ occurrences, findOccurrences basis.source basis.scopes basis.contextLines old within =
          .ok occurrences ∧ 1 < occurrences.length ∧
        ∃ occurrence ∈ occurrences, ∃ lines ∈ basis.blocks occurrence,
          basis.Overhangs old occurrence lines

theorem resolveOrRefuse_eq_ok_iff {table : ScopeTable} {within : Option (List Nat)} :
    resolveOrRefuse table constraint = .ok within ↔ table.resolve constraint = .ok within :=
  mapError_eq_ok_iff

/-- An assessment ends early by a refusal for its texts, for its filters or for a coordinate, or
because the search or the suggestions stop. -/
theorem of_assess_eq_error {failure : Failure}
    (h : assess basis checker old new constraint = .error failure) :
    (∃ error, failure = .refused (.input error)) ∨ (∃ error, failure = .refused (.scope error)) ∨
      (∃ error, failure = .refused (.position error)) ∨
      checkTexts old new = .ok () ∧ ∃ within, basis.scopes.resolve constraint = .ok within ∧
        ∃ fault, failure = .stopped fault ∧
          (findOccurrences basis.source basis.scopes basis.contextLines old within =
              .error (.stopped fault) ∨
            ∃ occurrences, findOccurrences basis.source basis.scopes basis.contextLines old
                within = .ok occurrences ∧ 1 < occurrences.length ∧
              suggestions basis old new occurrences = .error fault) := by
  rw [assess] at h
  rcases bind_eq_error_iff.mp h with htexts | ⟨_, htexts, h⟩
  · obtain ⟨error, -, rfl⟩ := mapError_eq_error_iff.mp htexts
    exact .inl ⟨error, rfl⟩
  rcases bind_eq_error_iff.mp h with hwithin | ⟨within, hwithin, h⟩
  · obtain ⟨_, hscope, rfl⟩ := mapError_eq_error_iff.mp hwithin
    obtain ⟨error, -, rfl⟩ := mapError_eq_error_iff.mp hscope
    exact .inr (.inl ⟨error, rfl⟩)
  have htexts := mapError_eq_ok_iff.mp htexts
  have hwithin := resolveOrRefuse_eq_ok_iff.mp (mapError_eq_ok_iff.mp hwithin)
  rcases bind_eq_error_iff.mp h with hfound | ⟨occurrences, hfound, h⟩
  · obtain ⟨cause, hsearch, rfl⟩ := mapError_eq_error_iff.mp hfound
    cases cause with
    | position error => exact .inr (.inr (.inl ⟨error, rfl⟩))
    | stopped fault =>
      exact .inr (.inr (.inr ⟨htexts, within, hwithin, fault, rfl, .inl hsearch⟩))
  have hfound := mapError_eq_ok_iff.mp hfound
  -- What is left can only end with the suggestions, which are asked for if there are several.
  dsimp only at h
  split at h
  · next hseveral =>
    rcases bind_eq_error_iff.mp h with hsuggested | ⟨_, -, hpure⟩
    · obtain ⟨fault, hstopped, rfl⟩ := mapError_eq_error_iff.mp hsuggested
      exact .inr (.inr (.inr ⟨htexts, within, hwithin, fault, rfl,
        .inr ⟨occurrences, hfound, hseveral, hstopped⟩⟩))
    · cases hpure
  · cases h

/-- Only the search and the suggestions stop an assessment. -/
theorem assess_eq_stopped_iff {fault : Fault} :
    assess basis checker old new constraint = .error (.stopped fault) ↔
      checkTexts old new = .ok () ∧ ∃ within, basis.scopes.resolve constraint = .ok within ∧
        (findOccurrences basis.source basis.scopes basis.contextLines old within =
            .error (.stopped fault) ∨
          ∃ occurrences, findOccurrences basis.source basis.scopes basis.contextLines old within =
              .ok occurrences ∧ 1 < occurrences.length ∧
            suggestions basis old new occurrences = .error fault) := by
  constructor
  · intro h
    rcases of_assess_eq_error h with ⟨_, hinput⟩ | ⟨_, hscope⟩ | ⟨_, hposition⟩ |
      ⟨htexts, within, hwithin, _, hsame, hstopped⟩
    · cases hinput
    · cases hscope
    · cases hposition
    · obtain rfl := Failure.stopped.inj hsame
      exact ⟨htexts, within, hwithin, hstopped⟩
  · intro ⟨htexts, within, hwithin, hstopped⟩
    rw [assess]
    refine bind_eq_error_iff.mpr (.inr ⟨(), mapError_eq_ok_iff.mpr htexts, ?_⟩)
    refine bind_eq_error_iff.mpr (.inr ⟨within, mapError_eq_ok_iff.mpr
      (resolveOrRefuse_eq_ok_iff.mpr hwithin), ?_⟩)
    rcases hstopped with hfound | ⟨occurrences, hfound, hseveral, hsuggested⟩
    · exact bind_eq_error_iff.mpr (.inl (mapError_eq_error_iff.mpr ⟨_, hfound, rfl⟩))
    · refine bind_eq_error_iff.mpr (.inr ⟨occurrences, mapError_eq_ok_iff.mpr hfound, ?_⟩)
      dsimp only
      rw [if_pos hseveral]
      exact bind_eq_error_iff.mpr (.inl (mapError_eq_error_iff.mpr ⟨fault, hsuggested, rfl⟩))

/-- An assessment stops exactly at an overhang, if the lines that a search shows have numbers. -/
theorem exists_assess_eq_stopped_iff (hsource : basis.source = Source.ofChars chars)
    (hword : basis.source.lineCount + basis.contextLines < UInt64.size) :
    (∃ fault, assess basis checker old new constraint = .error (.stopped fault)) ↔
      basis.HasOverhang old new constraint := by
  rw [hsource] at hword
  simp only [assess_eq_stopped_iff]
  constructor
  · intro ⟨fault, htexts, within, hwithin, hstopped⟩
    obtain ⟨occurrences, hfound⟩ : ∃ occurrences, findOccurrences (Source.ofChars chars)
        basis.scopes basis.contextLines old within = .ok occurrences :=
      exists_findOccurrences hword
    rcases hstopped with hsearch | ⟨found, hfound', hseveral, hsuggested⟩
    · -- The search has an answer.
      rw [hsource, hfound] at hsearch
      cases hsearch
    · have hplaces := hfound'
      rw [hsource] at hplaces
      exact ⟨htexts, within, hwithin, found, hfound', hseveral,
        (exists_suggestions_eq_error_iff hsource fun occurrence hmem =>
          isAt_of_mem_findOccurrences hplaces hmem).mp ⟨fault, hsuggested⟩⟩
  · intro ⟨htexts, within, hwithin, occurrences, hfound, hseveral, hoverhang⟩
    have hplaces := hfound
    rw [hsource] at hplaces
    obtain ⟨fault, hstopped⟩ := (exists_suggestions_eq_error_iff hsource fun occurrence hmem =>
      isAt_of_mem_findOccurrences hplaces hmem).mpr hoverhang
    exact ⟨fault, htexts, within, hwithin, .inr ⟨occurrences, hfound, hseveral, hstopped⟩⟩

/-- An assessment is made once nothing ends it before: it holds the occurrences that the filters
leave, what the checks of the two texts say, and suggestions if there are several occurrences. -/
theorem assess_eq_ok_iff {assessment : Assessment} :
    assess basis checker old new constraint = .ok assessment ↔
      checkTexts old new = .ok () ∧ ∃ within, basis.scopes.resolve constraint = .ok within ∧
        ∃ occurrences, findOccurrences basis.source basis.scopes basis.contextLines old within =
            .ok occurrences ∧
          ∃ suggested, (if 1 < occurrences.length then suggestions basis old new occurrences
              else .ok []) = .ok suggested ∧
            assessment =
              { occurrences
                requireUnique := constraint.requireUnique
                ambiguousContext := selectsMany within
                indentationIssues := indentationIssues old new
                syntaxWarnings := balanceWarnings new ++ checkerWarnings checker old new
                syntaxValid := (balanceWarnings new).isEmpty
                suggestions := suggested } := by
  simp only [assess, bind_eq_ok_iff, mapError_eq_ok_iff, resolveOrRefuse_eq_ok_iff]
  constructor
  · rintro ⟨_, htexts, within, hwithin, occurrences, hfound, h⟩
    refine ⟨htexts, within, hwithin, occurrences, hfound, ?_⟩
    split at h
    · next hseveral =>
      obtain ⟨suggested, hsuggested, hresult⟩ := bind_eq_ok_iff.mp h
      exact ⟨suggested, by rw [if_pos hseveral, mapError_eq_ok_iff.mp hsuggested],
        pure_eq_ok_iff.mp hresult⟩
    · next hfew =>
      exact ⟨[], by rw [if_neg hfew], pure_eq_ok_iff.mp h⟩
  · rintro ⟨htexts, within, hwithin, occurrences, hfound, suggested, hsuggested, rfl⟩
    refine ⟨(), htexts, within, hwithin, occurrences, hfound, ?_⟩
    split at hsuggested
    · next hseveral =>
      rw [if_pos hseveral]
      exact bind_eq_ok_iff.mpr ⟨suggested, mapError_eq_ok_iff.mpr hsuggested, rfl⟩
    · next hfew =>
      obtain rfl := Except.ok.inj hsuggested
      rw [if_neg hfew]
      rfl

/-- An assessment is refused for its texts, its filters or a coordinate, and for nothing else. -/
theorem of_assess_eq_refused {refusal : Refusal}
    (h : assess basis checker old new constraint = .error (.refused refusal)) :
    (∃ error, refusal = .input error) ∨ (∃ error, refusal = .scope error) ∨
      ∃ error, refusal = .position error := by
  rcases of_assess_eq_error h with ⟨error, hinput⟩ | ⟨error, hscope⟩ | ⟨error, hposition⟩ |
    ⟨-, _, -, _, hstopped, -⟩
  · exact .inl ⟨error, Failure.refused.inj hinput⟩
  · exact .inr (.inl ⟨error, Failure.refused.inj hscope⟩)
  · exact .inr (.inr ⟨error, Failure.refused.inj hposition⟩)
  · cases hstopped

/-- The occurrences of an assessment are those that the filters leave. -/
theorem of_assess_eq_ok {assessment : Assessment}
    (h : assess basis checker old new constraint = .ok assessment) :
    checkTexts old new = .ok () ∧ ∃ within, basis.scopes.resolve constraint = .ok within ∧
      findOccurrences basis.source basis.scopes basis.contextLines old within =
        .ok assessment.occurrences := by
  obtain ⟨htexts, within, hwithin, occurrences, hfound, _, -, rfl⟩ := assess_eq_ok_iff.mp h
  exact ⟨htexts, within, hwithin, hfound⟩

end ExactEdit
