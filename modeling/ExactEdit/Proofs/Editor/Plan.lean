import ExactEdit.Editor.Basic
import ExactEdit.Proofs.Assessment
import ExactEdit.Proofs.Scope.Lookup

/-! # Plans

A plan is made from an assessment: its place is that of the first occurrence, and if the request is
to be unique there is no other. Deciding refuses, but never stops, so a plan is stopped exactly
where its assessment is.

## Main results

* `Editor.find_eq_ok_iff` — what a search finds
* `Editor.exists_plan_eq_stopped_iff` — planning stops exactly at an overhang
* `Editor.of_plan_eq_ok` — the place of a plan is that of the first occurrence
* `Editor.isFirst_of_plan_eq_ok` — without filters it is the first place of the old text
* `Editor.sliceable_of_plan_eq_ok` — a plan can be carried out
* `Editor.of_plan_eq_ambiguousOccurrence` — where the suggestions of a refusal come from
-/

namespace ExactEdit.Editor

open Text Result

variable {editor : Editor} {request : Request} {plan : Plan} {assessment : Assessment}
variable {chars : List Char}

/-- What a search finds is what the filters leave of the occurrences of its text. -/
theorem find_eq_ok_iff {search : String} {constraint : Constraint}
    {occurrences : List Occurrence} :
    editor.find search constraint = .ok occurrences ↔
      search.isEmpty = false ∧ ∃ within, editor.scopes.resolve constraint = .ok within ∧
        findOccurrences editor.source editor.scopes editor.settings.contextLines search within =
          .ok occurrences := by
  rw [find]
  cases search.isEmpty with
  | true => simp
  | false => simp [bind_eq_ok_iff, mapError_eq_ok_iff, resolveOrRefuse_eq_ok_iff]

theorem of_decide_eq_ok (h : editor.decide request assessment = .ok plan) :
    ∃ target, assessment.occurrences.head? = some target ∧ plan.range = target.range ∧
      (request.constraint.requireUnique = true → assessment.occurrences = [target]) := by
  simp only [decide] at h
  split at h
  · cases h
  · split at h
    · cases h
    · next target rest hoccurrences =>
      split at h
      · cases h
      · next hunique =>
        -- The hazard of a new text is looked at last.
        split at h
        · cases h
        · obtain rfl := Except.ok.inj h
          refine ⟨target, by rw [hoccurrences]; rfl, rfl, fun hrequired => ?_⟩
          rw [Assessment.isUnique, Assessment.occurrenceCount, hoccurrences, hrequired] at hunique
          simpa [hoccurrences] using hunique

/-- A request is refused for several occurrences with the suggestions made for them. -/
theorem of_decide_eq_ambiguousOccurrence {search : String} {count : Nat} {lines : List Nat}
    {list : List Suggestion} (h : editor.decide request assessment =
      .error (.ambiguousOccurrence search count lines list)) :
    1 < assessment.occurrences.length ∧ assessment.suggestions = list := by
  simp only [decide] at h
  split at h
  · cases h
  · split at h
    · cases h
    · next target rest hoccurrences =>
      split at h
      · next hseveral =>
        obtain ⟨-, -, -, rfl⟩ := Refusal.ambiguousOccurrence.inj (Except.error.inj h)
        refine ⟨?_, rfl⟩
        -- There is an occurrence, but not just one.
        rw [Bool.and_eq_true, Assessment.isUnique, Assessment.occurrenceCount, hoccurrences,
          Bool.not_eq_true', beq_eq_false_iff_ne] at hseveral
        have := hseveral.1
        rw [hoccurrences]
        rw [List.length_cons] at this ⊢
        omega
      · split at h
        · cases h
        · cases h

/-- Planning stops where assessing does. -/
theorem plan_eq_stopped_iff {fault : Fault} :
    editor.plan request = .error (.stopped fault) ↔
      editor.assessRequest request = .error (.stopped fault) := by
  constructor
  · intro h
    rcases bind_eq_error_iff.mp h with hassess | ⟨_, -, hdecide⟩
    · exact hassess
    · obtain ⟨_, -, hrefused⟩ := mapError_eq_error_iff.mp hdecide
      cases hrefused
  · intro h
    exact bind_eq_error_iff.mpr (.inl h)

/-- Planning stops exactly at an overhang, if the lines that a search shows have numbers. -/
theorem exists_plan_eq_stopped_iff (hsource : editor.source = Source.ofChars chars)
    (hword : editor.source.lineCount + editor.settings.contextLines < UInt64.size) :
    (∃ fault, editor.plan request = .error (.stopped fault)) ↔
      editor.basis.HasOverhang request.oldText request.newText request.constraint :=
  (exists_congr fun _ => plan_eq_stopped_iff).trans (exists_assess_eq_stopped_iff hsource hword)

/-- The place of a plan is that of the first occurrence, the only one if that is asked for. -/
theorem of_plan_eq_ok (h : editor.plan request = .ok plan) :
    ∃ within occurrences target, editor.scopes.resolve request.constraint = .ok within ∧
      findOccurrences editor.source editor.scopes editor.settings.contextLines request.oldText
        within = .ok occurrences ∧
      occurrences.head? = some target ∧ plan.range = target.range ∧
      (request.constraint.requireUnique = true → occurrences = [target]) := by
  obtain ⟨assessment, hassess, hdecide⟩ := bind_eq_ok_iff.mp h
  obtain ⟨-, within, hwithin, hfound⟩ := of_assess_eq_ok hassess
  obtain ⟨target, hfirst, hrange, hunique⟩ := of_decide_eq_ok (mapError_eq_ok_iff.mp hdecide)
  exact ⟨within, assessment.occurrences, target, hwithin, hfound, hfirst, hrange, hunique⟩

/-- A request that is refused for several occurrences was assessed, and suggestions were made for
its occurrences. -/
theorem of_plan_eq_ambiguousOccurrence {search : String} {count : Nat} {lines : List Nat}
    {list : List Suggestion} (h : editor.plan request =
      .error (.refused (.ambiguousOccurrence search count lines list))) :
    checkTexts request.oldText request.newText = .ok () ∧ ∃ within occurrences,
      findOccurrences editor.source editor.scopes editor.settings.contextLines request.oldText
        within = .ok occurrences ∧
      suggestions editor.basis request.oldText request.newText occurrences = .ok list := by
  rcases bind_eq_error_iff.mp h with hassess | ⟨assessment, hassess, hdecide⟩
  · -- Nothing is refused for several occurrences before it is assessed.
    rcases of_assess_eq_refused hassess with ⟨_, hother⟩ | ⟨_, hother⟩ | ⟨_, hother⟩
    · cases hother
    · cases hother
    · cases hother
  · obtain ⟨refusal, hdecide, hsame⟩ := mapError_eq_error_iff.mp hdecide
    obtain rfl := Failure.refused.inj hsame
    obtain ⟨hseveral, hlist⟩ := of_decide_eq_ambiguousOccurrence hdecide
    obtain ⟨htexts, within, -, occurrences, hfound, suggested, hsuggested, rfl⟩ :=
      assess_eq_ok_iff.mp hassess
    rw [if_pos hseveral] at hsuggested
    exact ⟨htexts, within, occurrences, hfound, hsuggested.trans (congrArg _ hlist)⟩

/-- A plan is for an old text that can be searched for. -/
theorem oldText_ne_nil_of_plan_eq_ok (hsource : editor.source = Source.ofChars chars)
    (h : editor.plan request = .ok plan) : request.oldText.toList ≠ [] := by
  obtain ⟨_, _, _, -, hfound, hfirst, -, -⟩ := of_plan_eq_ok h
  rw [hsource] at hfound
  exact ne_nil_of_mem_matchOffsets
    (start_mem_matchOffsets_of_mem_findOccurrences hfound (List.mem_of_head? hfirst))

/-- The old text stands at the place of a plan. -/
theorem standsAt_of_plan_eq_ok (hsource : editor.source = Source.ofChars chars)
    (h : editor.plan request = .ok plan) :
    StandsAt request.oldText.toList plan.range.start chars ∧
      plan.range.stop = plan.range.start + width request.oldText.toList := by
  obtain ⟨_, _, _, -, hfound, hfirst, hrange, -⟩ := of_plan_eq_ok h
  rw [hsource] at hfound
  obtain ⟨_, _, hat⟩ := isAt_of_mem_findOccurrences hfound (List.mem_of_head? hfirst)
  rw [hrange]
  exact ⟨hat.standsAt, hat.stop_eq⟩

/-- Without filters a request is planned at the first place of its old text. -/
theorem isFirst_of_plan_eq_ok (hsource : editor.source = Source.ofChars chars)
    (hfree : request.constraint.filters = []) (h : editor.plan request = .ok plan) :
    IsFirst request.oldText.toList plan.range.start chars := by
  obtain ⟨within, occurrences, target, hwithin, hfound, hfirst, hrange, -⟩ := of_plan_eq_ok h
  rw [ScopeTable.resolve_of_filters_eq_nil hfree] at hwithin
  obtain rfl := Except.ok.inj hwithin
  rw [hsource] at hfound
  rw [hrange]
  exact isFirst_of_findOccurrences hfound hfirst

/-- A plan can be carried out: its place can be cut out of the text. -/
theorem sliceable_of_plan_eq_ok (hsource : editor.source = Source.ofChars chars)
    (h : editor.plan request = .ok plan) : Sliceable plan.range chars := by
  obtain ⟨hstands, hstop⟩ := standsAt_of_plan_eq_ok hsource h
  rw [show plan.range = ⟨plan.range.start, plan.range.start + width request.oldText.toList⟩ by
    rw [← hstop]]
  exact hstands.sliceable

end ExactEdit.Editor
