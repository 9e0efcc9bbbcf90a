import ExactEdit.Proofs.Editor.Plan

/-! # What speaks against a request

Seven things may speak against a request. They are looked for one after the other, in different
parts of the program: in the texts, in the filters, in the occurrences and in what the checks say.
Each is stated here on its own, without the others and without the order. A request is then refused
for the first that applies to it, and planned exactly if none does.

## Main definitions

* `Editor.places` — the occurrences of a request, as places in the text
* `Objection`, `Objection.inOrder` — what may speak against a request, and in which order
* `Objection.Applies` — when it does
* `Objection.IsFirst` — it does, and nothing that is looked for earlier
* `Objection.Raises` — the refusal that it leads to

## Main results

* `Editor.plan_eq_of_isFirst` — the first objection refuses the request
* `Editor.exists_plan_of_unopposed` — a request without objections is planned
-/

namespace ExactEdit

open Text Result

/-- What may speak against a request. -/
inductive Objection where
  /-- There is nothing to search for. -/
  | emptySearch
  /-- The new text is the old one. -/
  | noOp
  /-- The filters select nothing. -/
  | unresolved
  /-- The filters select several scopes. -/
  | ambiguousContext
  /-- The old text does not occur. -/
  | textNotFound
  /-- The old text occurs several times. -/
  | ambiguousOccurrence
  /-- The new text is unbalanced, or changes the indentation. -/
  | hazard
  deriving DecidableEq, Repr

/-- The places of the old text of a request on the lines of the scopes selected: those that a reader
takes who goes on behind each. -/
def Editor.places (editor : Editor) (request : Request) (within : Option (List Nat)) : List Nat :=
  (matchOffsets request.oldText.toList editor.source.chars).filter
    (allowsMatch editor.scopes within request.oldText.toList editor.source.chars)

namespace Objection

/-- The order in which the objections are looked for. -/
def inOrder : List Objection :=
  [emptySearch, noOp, unresolved, ambiguousContext, textNotFound, ambiguousOccurrence, hazard]

/-- When an objection speaks against a request. -/
def Applies (editor : Editor) (request : Request) : Objection → Prop
  | emptySearch => request.oldText = ""
  | noOp => request.oldText = request.newText
  | unresolved => ∃ error, editor.scopes.resolve request.constraint = .error error
  | ambiguousContext => request.constraint.requireUnique = true ∧
      ∃ ids, editor.scopes.resolve request.constraint = .ok (some ids) ∧ 1 < ids.length
  | textNotFound => ∃ within, editor.scopes.resolve request.constraint = .ok within ∧
      editor.places request within = []
  | ambiguousOccurrence => request.constraint.requireUnique = true ∧
      ∃ within, editor.scopes.resolve request.constraint = .ok within ∧
        1 < (editor.places request within).length
  | hazard => balanceWarnings request.newText ≠ [] ∨
      indentationIssues request.oldText request.newText ≠ [] ∧
        request.constraint.allowIndentationChanges = false

/-- The objections that are looked for before this one. -/
def earlier (objection : Objection) : List Objection := inOrder.takeWhile (· != objection)

/-- An objection applies, and none that is looked for earlier. -/
def IsFirst (editor : Editor) (request : Request) (objection : Objection) : Prop :=
  objection.Applies editor request ∧ ∀ other ∈ objection.earlier, ¬ other.Applies editor request

/-- The refusal that an objection leads to, with what it tells. -/
inductive Raises (editor : Editor) (request : Request) : Objection → Refusal → Prop
  | emptySearch : Raises editor request .emptySearch (.input .emptySearch)
  | noOp : Raises editor request .noOp (.input .noOp)
  | unresolved {error : ScopeError}
      (resolves : editor.scopes.resolve request.constraint = .error error) :
      Raises editor request .unresolved (.scope error)
  | ambiguousContext {kind : ScopeKind} {name : String} {ids : List Nat}
      {suggestions : List Suggestion}
      (filter : request.constraint.filters.head? = some (kind, name))
      (resolves : editor.scopes.resolve request.constraint = .ok (some ids)) :
      Raises editor request .ambiguousContext
        (.ambiguousContext kind name
          (ids.filterMap fun id => (editor.scopes.get? id).map (·.startLine))
          (editor.places request (some ids)).length suggestions)
  | textNotFound :
      Raises editor request .textNotFound
        (.textNotFound request.oldText request.constraint.describe?)
  | ambiguousOccurrence {within : Option (List Nat)} {lines : List Nat}
      {suggestions : List Suggestion}
      (resolves : editor.scopes.resolve request.constraint = .ok within)
      (lines_eq : lines = (editor.places request within).map (lineAt editor.source.chars))
      (several : 2 ≤ lines.length) (sorted : lines.Pairwise (· ≤ ·)) :
      Raises editor request .ambiguousOccurrence
        (.ambiguousOccurrence request.oldText lines.length lines suggestions)
  | hazard {assessment : Assessment} :
      Raises editor request .hazard
        (.hazard (balanceWarnings request.newText
          ++ checkerWarnings editor.checker request.oldText request.newText
          ++ if request.constraint.allowIndentationChanges then []
            else indentationIssues request.oldText request.newText) assessment)

/-- Of the objections in a list, one is the first to apply, or none applies. -/
theorem exists_first_or (editor : Editor) (request : Request) (list : List Objection) :
    (∃ objection, objection.Applies editor request ∧
        ∀ other ∈ list.takeWhile (· != objection), ¬ other.Applies editor request) ∨
      ∀ objection ∈ list, ¬ objection.Applies editor request := by
  induction list with
  | nil => exact .inr fun _ hmem => absurd hmem List.not_mem_nil
  | cons head rest ih =>
    by_cases hhead : head.Applies editor request
    · exact .inl ⟨head, hhead, by simp⟩
    · -- The head is looked for before everything that applies further down.
      refine ih.imp ?_ fun hnone => List.forall_mem_cons.mpr ⟨hhead, hnone⟩
      rintro ⟨objection, happlies, hbefore⟩
      refine ⟨objection, happlies, fun other hother => ?_⟩
      rw [List.takeWhile_cons] at hother
      split at hother
      · rcases List.mem_cons.mp hother with rfl | hrest
        · exact hhead
        · exact hbefore other hrest
      · cases hother

/-- Some objection is the first to apply, or none applies. -/
theorem exists_isFirst_or (editor : Editor) (request : Request) :
    (∃ objection, IsFirst editor request objection) ∨
      ∀ objection, ¬ Applies editor request objection := by
  refine (exists_first_or editor request inOrder).imp id fun hnone objection => ?_
  exact hnone objection (by cases objection <;> decide)

end Objection

namespace Editor

variable {editor : Editor} {request : Request} {plan : Plan} {assessment : Assessment}
variable {within : Option (List Nat)} {objection : Objection} {target : Occurrence}
variable {rest : List Occurrence}

/-! ## Places and filters -/

/-- Places are listed in the order of the text. -/
theorem pairwise_places (editor : Editor) (request : Request) (within : Option (List Nat)) :
    (editor.places request within).Pairwise (· < ·) :=
  (pairwise_matchOffsets _ _).filter _

theorem standsAt_of_mem_places {place : Nat} (h : place ∈ editor.places request within) :
    StandsAt request.oldText.toList place editor.source.chars :=
  standsAt_of_mem_matchOffsets (List.mem_filter.mp h).1

/-- The lines of the places do not go back. -/
theorem pairwise_lines (editor : Editor) (request : Request) (within : Option (List Nat)) :
    ((editor.places request within).map (lineAt editor.source.chars)).Pairwise (· ≤ ·) := by
  refine List.pairwise_map.mpr ((pairwise_places editor request within).imp_of_mem ?_)
  intro p q hp hq hlt
  exact lineAt_le_lineAt (standsAt_of_mem_places hp) (standsAt_of_mem_places hq) (Nat.le_of_lt hlt)

/-! ## Deciding -/

/-- What is held against an edit in the end: what is said of its new text, and the changes of
indentation unless they are allowed. Nothing is, if the new text is balanced and there are none. -/
theorem hazards?_eq (assessment : Assessment) (constraint : Constraint) :
    hazards? assessment constraint =
      if assessment.syntaxValid = true ∧
          (assessment.indentationIssues = [] ∨ constraint.allowIndentationChanges = true) then none
      else some (assessment.syntaxWarnings ++
        if constraint.allowIndentationChanges then [] else assessment.indentationIssues) := by
  rw [hazards?]
  cases hvalid : assessment.syntaxValid <;> cases hallow : constraint.allowIndentationChanges <;>
    cases hissues : assessment.indentationIssues <;> simp

theorem decide_eq_ambiguousContext (editor : Editor) {kind : ScopeKind} {name : String}
    (hfilter : request.constraint.filters.head? = some (kind, name))
    (hmany : assessment.ambiguousContext = true)
    (hunique : request.constraint.requireUnique = true) :
    editor.decide request assessment = .error (.ambiguousContext kind name
      (editor.selectedLines request.constraint) assessment.occurrenceCount
      assessment.suggestions) := by
  simp only [decide, hfilter, hmany, hunique, Bool.and_self]

theorem decide_eq_textNotFound (editor : Editor)
    (hone : (assessment.ambiguousContext && request.constraint.requireUnique) = false)
    (hnone : assessment.occurrences = []) :
    editor.decide request assessment =
      .error (.textNotFound request.oldText request.constraint.describe?) := by
  rw [decide]
  simp only [hone, hnone]
  cases request.constraint.filters.head? <;> rfl

theorem decide_eq_ambiguousOccurrence (editor : Editor)
    (hone : (assessment.ambiguousContext && request.constraint.requireUnique) = false)
    (hseveral : 1 < assessment.occurrences.length)
    (hunique : request.constraint.requireUnique = true) :
    editor.decide request assessment = .error (.ambiguousOccurrence request.oldText
      assessment.occurrenceCount (assessment.occurrences.map (·.line))
      assessment.suggestions) := by
  have hmany : assessment.isUnique = false := by
    rw [Assessment.isUnique, Assessment.occurrenceCount, beq_eq_false_iff_ne]
    omega
  obtain ⟨target, rest, htarget⟩ :=
    List.exists_cons_of_length_pos (Nat.lt_of_succ_lt hseveral)
  rw [hunique, Bool.and_true] at hone
  rw [decide]
  simp only [hone, htarget, hmany, hunique]
  cases request.constraint.filters.head? <;> rfl

/-- With one place, or with several and a request that takes the first, only hazards are left. -/
theorem decide_eq_of_target (editor : Editor)
    (hone : (assessment.ambiguousContext && request.constraint.requireUnique) = false)
    (htarget : assessment.occurrences = target :: rest)
    (hunique : request.constraint.requireUnique = true → rest = []) :
    editor.decide request assessment =
      match hazards? assessment request.constraint with
      | some reasons => .error (.hazard reasons assessment)
      | none => .ok ⟨target.range, target.line, assessment, planWarnings assessment target⟩ := by
  have hone' : (!assessment.isUnique && request.constraint.requireUnique) = false := by
    cases hrequired : request.constraint.requireUnique with
    | false => exact Bool.and_false _
    | true =>
      rw [Assessment.isUnique, Assessment.occurrenceCount, htarget, hunique hrequired]
      rfl
  rw [decide]
  simp only [hone, htarget, hone']
  cases request.constraint.filters.head? <;> rfl

/-! ## Assessing -/

/-- What an assessment of a request holds, told by the text and by the request. -/
structure Assessed (editor : Editor) (request : Request) (within : Option (List Nat))
    (assessment : Assessment) : Prop where
  assessed : editor.assessRequest request = .ok assessment
  resolves : editor.scopes.resolve request.constraint = .ok within
  starts : assessment.occurrences.map (·.range.start) = editor.places request within
  lines : assessment.occurrences.map (·.line) =
    (editor.places request within).map (lineAt editor.source.chars)
  ambiguousContext : assessment.ambiguousContext = selectsMany within
  syntaxValid : assessment.syntaxValid = (balanceWarnings request.newText).isEmpty
  syntaxWarnings : assessment.syntaxWarnings = balanceWarnings request.newText ++
    checkerWarnings editor.checker request.oldText request.newText
  indentationIssues : assessment.indentationIssues =
    ExactEdit.indentationIssues request.oldText request.newText

theorem checkTexts_eq_ok_iff {old new : String} :
    checkTexts old new = .ok () ↔ old ≠ "" ∧ old ≠ new := by
  rw [checkTexts]
  split
  · next h => simp [String.isEmpty_iff.mp h]
  · next h =>
    split
    · next h' => simp [h']
    · next h' => simp [h', String.isEmpty_iff.not.mp h]

theorem plan_eq_of_checkTexts {error : InputError}
    (h : checkTexts request.oldText request.newText = .error error) :
    editor.plan request = .error (.refused (.input error)) := by
  rw [plan, assessRequest, assess, h]
  rfl

theorem plan_eq_of_resolve {error : ScopeError}
    (htexts : checkTexts request.oldText request.newText = .ok ())
    (h : editor.scopes.resolve request.constraint = .error error) :
    editor.plan request = .error (.refused (.scope error)) := by
  have hrefused : resolveOrRefuse editor.basis.scopes request.constraint = .error (.scope error) :=
    mapError_eq_error_iff.mpr ⟨error, h, rfl⟩
  rw [plan, assessRequest, assess, htexts, hrefused]
  rfl

theorem plan_eq_of_assessRequest (h : editor.assessRequest request = .ok assessment) :
    editor.plan request = (editor.decide request assessment).mapError .refused := by
  rw [plan, h]
  rfl

/-- If texts and filters mean something, a request is assessed, or stops. -/
theorem exists_assessed (hparsed : editor.source = Source.ofChars editor.source.chars)
    (hword : editor.source.lineCount + editor.settings.contextLines < UInt64.size)
    (hreturns : ∀ fault, editor.plan request ≠ .error (.stopped fault))
    (htexts : checkTexts request.oldText request.newText = .ok ())
    (hwithin : editor.scopes.resolve request.constraint = .ok within) :
    ∃ assessment, editor.Assessed request within assessment := by
  have hword' := hword
  rw [hparsed] at hword'
  obtain ⟨occurrences, hfound⟩ : ∃ occurrences, findOccurrences
      (Source.ofChars editor.source.chars) editor.scopes editor.settings.contextLines
      request.oldText within = .ok occurrences := exists_findOccurrences hword'
  have hstarts := starts_of_findOccurrences hfound
  have hlines := lines_of_findOccurrences hfound
  rw [← hparsed] at hfound
  -- If suggestions are asked for and stop, so does the plan.
  obtain ⟨suggested, hsuggested⟩ : ∃ suggested, (if 1 < occurrences.length then
      suggestions editor.basis request.oldText request.newText occurrences else .ok []) =
        .ok suggested := by
    split
    · next hseveral =>
      cases hsuggested : suggestions editor.basis request.oldText request.newText occurrences with
      | ok suggested => exact ⟨suggested, rfl⟩
      | error fault =>
        refine absurd (plan_eq_stopped_iff.mpr (assess_eq_stopped_iff.mpr ?_)) (hreturns fault)
        exact ⟨htexts, within, hwithin, .inr ⟨occurrences, hfound, hseveral, hsuggested⟩⟩
    · exact ⟨[], rfl⟩
  exact ⟨_, assess_eq_ok_iff.mpr
    ⟨htexts, within, hwithin, occurrences, hfound, suggested, hsuggested, rfl⟩,
    hwithin, hstarts, hlines, rfl, rfl, rfl, rfl⟩

namespace Assessed

variable (h : editor.Assessed request within assessment)
include h

theorem plan_eq : editor.plan request = (editor.decide request assessment).mapError .refused :=
  plan_eq_of_assessRequest h.assessed

theorem occurrenceCount_eq :
    assessment.occurrences.length = (editor.places request within).length := by
  rw [← h.starts, List.length_map]

/-- Unless they select several scopes for a request that is to be unique, the filters are no reason
to refuse it. -/
theorem context_eq_false (hone : ¬ Objection.ambiguousContext.Applies editor request) :
    (assessment.ambiguousContext && request.constraint.requireUnique) = false := by
  rw [h.ambiguousContext]
  cases hunique : request.constraint.requireUnique with
  | false => exact Bool.and_false _
  | true =>
    have hresolves := h.resolves
    cases within with
    | none => rfl
    | some ids =>
      have hfew : ¬ 1 < ids.length := fun hmany => hone ⟨hunique, ids, hresolves, hmany⟩
      simp [selectsMany, hfew]

/-- The first occurrence is there, and the only one if it is to be. -/
theorem exists_target (hfound : ¬ Objection.textNotFound.Applies editor request)
    (honce : ¬ Objection.ambiguousOccurrence.Applies editor request) :
    ∃ target rest, assessment.occurrences = target :: rest ∧
      (request.constraint.requireUnique = true → rest = []) := by
  have hcount := h.occurrenceCount_eq
  cases hoccurrences : assessment.occurrences with
  | nil =>
    rw [hoccurrences] at hcount
    exact absurd ⟨within, h.resolves, List.eq_nil_of_length_eq_zero hcount.symm⟩ hfound
  | cons target rest =>
    refine ⟨target, rest, rfl, fun hunique => ?_⟩
    rw [hoccurrences, List.length_cons] at hcount
    by_contra hmore
    have := List.length_pos_iff.mpr hmore
    exact honce ⟨hunique, within, h.resolves, by omega⟩

/-- Nothing is held against the new text in the end exactly if it is no hazard. -/
theorem clear_iff : (assessment.syntaxValid = true ∧ (assessment.indentationIssues = [] ∨
    request.constraint.allowIndentationChanges = true)) ↔
      ¬ Objection.hazard.Applies editor request := by
  rw [h.syntaxValid, h.indentationIssues, List.isEmpty_iff, Objection.Applies]
  cases request.constraint.allowIndentationChanges <;> simp [not_or]

/-! ### The refusal of an assessed request -/

theorem exists_refusal_of_ambiguousContext
    (happlies : Objection.ambiguousContext.Applies editor request) :
    ∃ refusal, Objection.ambiguousContext.Raises editor request refusal ∧
      editor.plan request = .error (.refused refusal) := by
  obtain ⟨hunique, ids, hids, hmany⟩ := happlies
  obtain rfl := Except.ok.inj (h.resolves.symm.trans hids)
  obtain ⟨⟨kind, name⟩, hfilter⟩ := ScopeTable.exists_filter_of_resolve_eq_some hids
  have hdecide := decide_eq_ambiguousContext editor hfilter
    (h.ambiguousContext.trans (by simpa [selectsMany] using hmany)) hunique
  rw [selectedLines, hids, Assessment.occurrenceCount, h.occurrenceCount_eq] at hdecide
  exact ⟨_, .ambiguousContext hfilter hids, by rw [h.plan_eq, hdecide]; rfl⟩

theorem exists_refusal_of_textNotFound
    (hone : ¬ Objection.ambiguousContext.Applies editor request)
    (happlies : Objection.textNotFound.Applies editor request) :
    ∃ refusal, Objection.textNotFound.Raises editor request refusal ∧
      editor.plan request = .error (.refused refusal) := by
  obtain ⟨within', hwithin, hnone⟩ := happlies
  obtain rfl := Except.ok.inj (h.resolves.symm.trans hwithin)
  have hcount := h.occurrenceCount_eq
  rw [hnone] at hcount
  have hdecide := decide_eq_textNotFound editor (h.context_eq_false hone)
    (List.eq_nil_of_length_eq_zero hcount)
  exact ⟨_, .textNotFound, by rw [h.plan_eq, hdecide]; rfl⟩

theorem exists_refusal_of_ambiguousOccurrence
    (hone : ¬ Objection.ambiguousContext.Applies editor request)
    (happlies : Objection.ambiguousOccurrence.Applies editor request) :
    ∃ refusal, Objection.ambiguousOccurrence.Raises editor request refusal ∧
      editor.plan request = .error (.refused refusal) := by
  obtain ⟨hunique, within', hwithin, hseveral⟩ := happlies
  obtain rfl := Except.ok.inj (h.resolves.symm.trans hwithin)
  have hdecide := decide_eq_ambiguousOccurrence editor (h.context_eq_false hone)
    (h.occurrenceCount_eq.symm ▸ hseveral) hunique
  rw [h.lines, Assessment.occurrenceCount, h.occurrenceCount_eq,
    ← List.length_map (lineAt editor.source.chars)] at hdecide
  exact ⟨_, .ambiguousOccurrence hwithin rfl (by rwa [List.length_map])
    (pairwise_lines editor request within), by rw [h.plan_eq, hdecide]; rfl⟩

theorem exists_refusal_of_hazard (hone : ¬ Objection.ambiguousContext.Applies editor request)
    (hfound : ¬ Objection.textNotFound.Applies editor request)
    (honce : ¬ Objection.ambiguousOccurrence.Applies editor request)
    (happlies : Objection.hazard.Applies editor request) :
    ∃ refusal, Objection.hazard.Raises editor request refusal ∧
      editor.plan request = .error (.refused refusal) := by
  obtain ⟨target, rest, htarget, hunique⟩ := h.exists_target hfound honce
  have hdecide := decide_eq_of_target editor (h.context_eq_false hone) htarget hunique
  rw [hazards?_eq, if_neg fun hclear => h.clear_iff.mp hclear happlies, h.syntaxWarnings,
    h.indentationIssues] at hdecide
  exact ⟨_, .hazard, by rw [h.plan_eq, hdecide]; rfl⟩

/-- Without an objection the request is planned. -/
theorem exists_plan (hone : ¬ Objection.ambiguousContext.Applies editor request)
    (hfound : ¬ Objection.textNotFound.Applies editor request)
    (honce : ¬ Objection.ambiguousOccurrence.Applies editor request)
    (hsafe : ¬ Objection.hazard.Applies editor request) :
    ∃ plan, editor.plan request = .ok plan := by
  obtain ⟨target, rest, htarget, hunique⟩ := h.exists_target hfound honce
  have hdecide := decide_eq_of_target editor (h.context_eq_false hone) htarget hunique
  rw [hazards?_eq, if_pos (h.clear_iff.mpr hsafe)] at hdecide
  exact ⟨_, by rw [h.plan_eq, hdecide]; rfl⟩

end Assessed

/-! ## Planning -/

section Planning

variable (hparsed : editor.source = Source.ofChars editor.source.chars)
variable (hword : editor.source.lineCount + editor.settings.contextLines < UInt64.size)
variable (hreturns : ∀ fault, editor.plan request ≠ .error (.stopped fault))
include hparsed hword hreturns

/-- Once texts and filters are found to mean something, a request is assessed. -/
theorem exists_assessed_of_not (hempty : ¬ Objection.emptySearch.Applies editor request)
    (hnoOp : ¬ Objection.noOp.Applies editor request)
    (hresolved : ¬ Objection.unresolved.Applies editor request) :
    ∃ within assessment, editor.Assessed request within assessment := by
  cases hwithin : editor.scopes.resolve request.constraint with
  | error error => exact absurd ⟨error, hwithin⟩ hresolved
  | ok within =>
    exact ⟨within, exists_assessed hparsed hword hreturns
      (checkTexts_eq_ok_iff.mpr ⟨hempty, hnoOp⟩) hwithin⟩

/-- A request is refused for the first objection that applies to it. -/
theorem plan_eq_of_isFirst (hfirst : objection.IsFirst editor request) :
    ∃ refusal, objection.Raises editor request refusal ∧
      editor.plan request = .error (.refused refusal) := by
  obtain ⟨happlies, hearlier⟩ := hfirst
  cases objection with
  | emptySearch =>
    have htexts : checkTexts request.oldText request.newText = .error .emptySearch :=
      if_pos (String.isEmpty_iff.mpr happlies)
    exact ⟨_, .emptySearch, plan_eq_of_checkTexts htexts⟩
  | noOp =>
    have hempty : ¬ request.oldText.isEmpty = true :=
      String.isEmpty_iff.not.mpr (hearlier .emptySearch (by decide))
    have htexts : checkTexts request.oldText request.newText = .error .noOp :=
      (if_neg hempty).trans (if_pos happlies)
    exact ⟨_, .noOp, plan_eq_of_checkTexts htexts⟩
  | unresolved =>
    obtain ⟨error, herror⟩ := happlies
    have htexts := checkTexts_eq_ok_iff.mpr
      ⟨hearlier .emptySearch (by decide), hearlier .noOp (by decide)⟩
    exact ⟨_, .unresolved herror, plan_eq_of_resolve htexts herror⟩
  | ambiguousContext =>
    obtain ⟨_, _, h⟩ := exists_assessed_of_not hparsed hword hreturns
      (hearlier .emptySearch (by decide)) (hearlier .noOp (by decide))
      (hearlier .unresolved (by decide))
    exact h.exists_refusal_of_ambiguousContext happlies
  | textNotFound =>
    obtain ⟨_, _, h⟩ := exists_assessed_of_not hparsed hword hreturns
      (hearlier .emptySearch (by decide)) (hearlier .noOp (by decide))
      (hearlier .unresolved (by decide))
    exact h.exists_refusal_of_textNotFound (hearlier .ambiguousContext (by decide)) happlies
  | ambiguousOccurrence =>
    obtain ⟨_, _, h⟩ := exists_assessed_of_not hparsed hword hreturns
      (hearlier .emptySearch (by decide)) (hearlier .noOp (by decide))
      (hearlier .unresolved (by decide))
    exact h.exists_refusal_of_ambiguousOccurrence (hearlier .ambiguousContext (by decide)) happlies
  | hazard =>
    obtain ⟨_, _, h⟩ := exists_assessed_of_not hparsed hword hreturns
      (hearlier .emptySearch (by decide)) (hearlier .noOp (by decide))
      (hearlier .unresolved (by decide))
    exact h.exists_refusal_of_hazard (hearlier .ambiguousContext (by decide))
      (hearlier .textNotFound (by decide)) (hearlier .ambiguousOccurrence (by decide)) happlies

/-- A request without objections is planned. -/
theorem exists_plan_of_unopposed
    (hnone : ∀ objection : Objection, ¬ objection.Applies editor request) :
    ∃ plan, editor.plan request = .ok plan := by
  obtain ⟨_, _, h⟩ := exists_assessed_of_not hparsed hword hreturns
    (hnone .emptySearch) (hnone .noOp) (hnone .unresolved)
  exact h.exists_plan (hnone .ambiguousContext) (hnone .textNotFound)
    (hnone .ambiguousOccurrence) (hnone .hazard)

end Planning

/-- A plan is for the first of the places that the filters leave. -/
theorem head?_places_of_plan_eq_ok (hparsed : editor.source = Source.ofChars editor.source.chars)
    (h : editor.plan request = .ok plan) :
    ∃ within, editor.scopes.resolve request.constraint = .ok within ∧
      (editor.places request within).head? = some plan.range.start := by
  obtain ⟨within, occurrences, target, hwithin, hfound, hfirst, hrange, -⟩ := of_plan_eq_ok h
  rw [hparsed] at hfound
  refine ⟨within, hwithin, ?_⟩
  rw [places, ← starts_of_findOccurrences hfound, List.head?_map, hfirst, hrange]
  rfl

end Editor

end ExactEdit
