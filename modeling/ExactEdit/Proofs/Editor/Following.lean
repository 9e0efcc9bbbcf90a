import ExactEdit.Proofs.Check.Balance
import ExactEdit.Proofs.Check.Indentation
import ExactEdit.Proofs.Editor.Making
import ExactEdit.Proofs.Editor.Objection

/-! # Following a suggestion

A request that is refused for several occurrences comes back with wider requests. Following one of
them is an edit like any other, and goes through all the checks again. That there is a single match
was seen to when the suggestion was made, so only the checks of the new text are left. They look at
more than before: a wider text takes in what is around the occurrence, and that may be unbalanced
where the new text alone was not, or put lines into other pairs. Then the suggestion is refused as a
hazard.

## Main results

* `Editor.eq_hazard_of_single` — a single match leaves nothing but hazards
* `Editor.exists_around_of_suggestion` — a wider request has the one that was refused in the middle
* `Editor.follow_suggestion_iff` — which wider requests can be followed
-/

namespace ExactEdit.Editor

open Text Result

variable {σ : Type} {storage : Storage (StateM σ)} {editor refused : Editor} {request : Request}
variable {refusal : Refusal} {state state' : σ} {old new : String} {chars : List Char}
variable {search : String} {count : Nat} {lines : List Nat} {list : List Suggestion}
variable {suggestion : Suggestion} {objection : Objection}

/-! ## A single match -/

theorem places_none (editor : Editor) (request : Request) :
    editor.places request none = matchOffsets request.oldText.toList editor.source.chars :=
  List.filter_eq_self.mpr fun _ _ => rfl

/-- If the old text has a single match and the new one is another, only a hazard speaks against a
request without filters. -/
theorem eq_hazard_of_single (hfree : request.constraint.filters = [])
    (hsingle : matchCount request.oldText.toList editor.source.chars = 1)
    (hne : request.oldText ≠ request.newText) (happlies : objection.Applies editor request) :
    objection = .hazard := by
  have hresolve : editor.scopes.resolve request.constraint = .ok none :=
    ScopeTable.resolve_of_filters_eq_nil hfree
  have hlength : (editor.places request none).length = 1 := by
    rw [places_none]
    exact hsingle
  cases objection with
  | emptySearch =>
    have hempty : request.oldText = "" := happlies
    rw [hempty] at hsingle
    cases hsingle
  | noOp => exact absurd happlies hne
  | unresolved =>
    obtain ⟨error, herror⟩ := happlies
    rw [hresolve] at herror
    cases herror
  | ambiguousContext =>
    obtain ⟨-, ids, hids, -⟩ := happlies
    rw [hresolve] at hids
    cases hids
  | textNotFound =>
    obtain ⟨within, hwithin, hnone⟩ := happlies
    obtain rfl := Except.ok.inj (hresolve.symm.trans hwithin)
    rw [hnone] at hlength
    cases hlength
  | ambiguousOccurrence =>
    obtain ⟨-, within, hwithin, hseveral⟩ := happlies
    obtain rfl := Except.ok.inj (hresolve.symm.trans hwithin)
    omega
  | hazard => rfl

/-- For a single match no suggestions are made, so the program does not stop. -/
theorem plan_ne_stopped_of_single (hsource : editor.source = Source.ofChars chars)
    (hword : editor.source.lineCount + editor.settings.contextLines < UInt64.size)
    (hfree : request.constraint.filters = [])
    (hsingle : matchCount request.oldText.toList chars = 1) (fault : Fault) :
    editor.plan request ≠ .error (.stopped fault) := by
  intro hstopped
  obtain ⟨-, within, hwithin, occurrences, hfound, hseveral, -⟩ :=
    (exists_plan_eq_stopped_iff hsource hword).mp ⟨fault, hstopped⟩
  obtain rfl := Except.ok.inj ((ScopeTable.resolve_of_filters_eq_nil hfree).symm.trans hwithin)
  have hsource' : editor.basis.source = Source.ofChars chars := hsource
  rw [hsource'] at hfound
  have hstarts := congrArg List.length (starts_of_findOccurrences_none hfound)
  rw [List.length_map] at hstarts
  rw [matchCount] at hsingle
  omega

/-- In memory, a request with a single match is made unless it is a hazard. -/
theorem edit_verdict_of_single (editor : Editor) (request : Request)
    (storage : Storage (StateM σ)) (state : σ)
    (hparsed : editor.IsParsed) (hpath : editor.path = none) (haccepts : editor.AcceptsAll)
    (hword : editor.source.lineCount + editor.settings.contextLines < UInt64.size)
    (hfree : request.constraint.filters = [])
    (hsingle : matchCount request.oldText.toList editor.source.chars = 1)
    (hne : request.oldText ≠ request.newText) :
    (Objection.hazard.Applies editor request ∧ ∃ refusal,
      Objection.hazard.Raises editor request refusal ∧ editor.edit storage request state =
        ((.error (.refused refusal), editor.inPhase .rejected), state)) ∨
    (¬ Objection.hazard.Applies editor request ∧ ∃ report edited,
      editor.edit storage request state = ((.ok report, edited), state)) := by
  have hreturns := plan_ne_stopped_of_single hparsed.source_eq hword hfree hsingle
  have hothers : ∀ {objection : Objection}, objection.Applies editor request →
      objection = .hazard := fun happlies => eq_hazard_of_single hfree hsingle hne happlies
  by_cases hhazard : Objection.hazard.Applies editor request
  · refine .inl ⟨hhazard, ?_⟩
    -- The hazards are looked for last, and nothing that is looked for earlier applies.
    have hfirst : Objection.hazard.IsFirst editor request := by
      refine ⟨hhazard, fun other hearlier happlies => ?_⟩
      obtain rfl := hothers happlies
      exact absurd hearlier (by decide)
    obtain ⟨refusal, hraises, hplan⟩ :=
      plan_eq_of_isFirst hparsed.source_eq hword hreturns hfirst
    exact ⟨refusal, hraises, edit_eq_of_plan_eq_refused hplan⟩
  · refine .inr ⟨hhazard, ?_⟩
    obtain ⟨plan, hplan⟩ := exists_plan_of_unopposed hparsed.source_eq hword hreturns
      fun objection happlies => hhazard (hothers happlies ▸ happlies)
    obtain ⟨report, edited, hedit, -⟩ :=
      exists_edit_of_plan_eq_ok storage state hpath haccepts hplan
    exact ⟨report, edited, hedit⟩

/-! ## Wider requests -/

/-- The request of a suggestion with a wider search text. -/
def widerRequest (suggestion : Suggestion) : Request :=
  ⟨suggestion.oldText, suggestion.newText, .default⟩

/-- Both texts of a wider request have those of the request that was refused in the middle, between
the same texts, and the wider old text has a single match. -/
theorem exists_around_of_suggestion (hsource : editor.source = Source.ofChars chars)
    (h : editor.plan request = .error (.refused (.ambiguousOccurrence search count lines list)))
    (hmem : suggestion ∈ list) (hstrategy : suggestion.strategy ≠ .scope) :
    suggestion.oldText ≠ suggestion.newText ∧ matchCount suggestion.oldText.toList chars = 1 ∧
      ∃ front back,
        suggestion.oldText.toList = front ++ (request.oldText.toList ++ back) ∧
        suggestion.newText.toList = front ++ (request.newText.toList ++ back) := by
  obtain ⟨htexts, within, occurrences, hfound, hsuggested⟩ := of_plan_eq_ambiguousOccurrence h
  obtain ⟨occurrence, hoccurrence, -, blockLines, hblock, hwiden⟩ :=
    exists_widen_of_mem_suggestions hsuggested hmem hstrategy
  rw [hsource] at hfound
  obtain ⟨before, after, hat⟩ := isAt_of_mem_findOccurrences hfound hoccurrence
  obtain ⟨front, back, hold, hnew, hcount, -⟩ :=
    SuggestionBasis.exists_of_widen_eq_some hsource hat
      (SuggestionBasis.bounds_of_mem_blocks hblock hat.line_pos).1 hwiden
  refine ⟨fun hsame => ?_, hcount, front, back, hold, hnew⟩
  -- Between the same texts, the same old and new text would have been in the first request.
  rw [hsame, hnew] at hold
  have hmiddle := List.append_cancel_right (List.append_cancel_left hold)
  exact (checkTexts_eq_ok_iff.mp htexts).2 (String.toList_injective hmiddle.symm)

/-- A wider request is a hazard exactly if what is around is unbalanced, or its lines change their
indentation. -/
theorem hazard_widerRequest_iff {front back : List Char}
    (hnew : suggestion.newText.toList = front ++ (new.toList ++ back))
    (hbalanced : balanceWarnings new = []) :
    Objection.hazard.Applies editor (widerRequest suggestion) ↔
      ¬ (Balanced (front ++ back) ∧
        indentationIssues suggestion.oldText suggestion.newText = []) := by
  have haround : balanceWarnings suggestion.newText = [] ↔ Balanced (front ++ back) := by
    rw [balanceWarnings_eq_nil_iff, hnew]
    exact (balanceWarnings_eq_nil_iff.mp hbalanced).insert_iff front back
  rw [← haround, not_and_or, Objection.Applies, widerRequest]
  exact or_congr_right (and_iff_left rfl)

/-- Of the wider requests that come with a refusal for several occurrences, those can be followed
whose surroundings are balanced and whose lines keep their indentation. All others are refused as
hazards. If the old and the new text are alike line by line, the balance decides alone. -/
theorem follow_suggestion_iff (storage : Storage (StateM σ)) (hreachable : editor.Reachable)
    (hpath : editor.path = none) (haccepts : editor.AcceptsAll)
    (hword : editor.source.lineCount + editor.settings.contextLines < UInt64.size)
    (hrefused : editor.edit storage ⟨old, new, .default⟩ state =
      ((.error (.refused (.ambiguousOccurrence search count lines list)), refused), state'))
    (hbalanced : balanceWarnings new = []) (hmem : suggestion ∈ list)
    (hstrategy : suggestion.strategy ≠ .scope) :
    ∃ front back, suggestion.oldText.toList = front ++ (old.toList ++ back) ∧
      suggestion.newText.toList = front ++ (new.toList ++ back) ∧
      ((∃ report edited, refused.edit storage (widerRequest suggestion) state' =
          ((.ok report, edited), state')) ↔
        Balanced (front ++ back) ∧
          indentationIssues suggestion.oldText suggestion.newText = []) ∧
      ((∃ report edited, refused.edit storage (widerRequest suggestion) state' =
          ((.ok report, edited), state')) ∨
        ∃ reasons assessment after, refused.edit storage (widerRequest suggestion) state' =
          ((.error (.refused (.hazard reasons assessment)), after), state')) ∧
      (LinesAlike old.toList new.toList →
        indentationIssues suggestion.oldText suggestion.newText = []) := by
  obtain ⟨hplan, rfl, rfl⟩ := of_edit_eq_refused hpath haccepts hrefused
  have hparsed := hreachable.isParsed
  obtain ⟨hne, hsingle, front, back, hold, hnew⟩ :=
    exists_around_of_suggestion hparsed.source_eq hplan hmem hstrategy
  -- Being refused changes the phase alone, which no check looks at.
  have hverdict := edit_verdict_of_single (editor.inPhase .rejected) (widerRequest suggestion)
    storage state' (hparsed.inPhase _) hpath haccepts hword rfl hsingle hne
  have hhazard :
      Objection.hazard.Applies (editor.inPhase .rejected) (widerRequest suggestion) ↔ _ :=
    hazard_widerRequest_iff hnew hbalanced
  refine ⟨front, back, hold, hnew, ?_, ?_, fun halike => ?_⟩
  · rcases hverdict with ⟨happlies, refusal, -, hedit⟩ | ⟨hsafe, hedit⟩
    · refine ⟨?_, fun hclear => absurd hclear (hhazard.mp happlies)⟩
      rintro ⟨report, edited, hedit'⟩
      rw [hedit] at hedit'
      cases hedit'
    · exact ⟨fun _ => not_not.mp fun hunclear => hsafe (hhazard.mpr hunclear), fun _ => hedit⟩
  · rcases hverdict with ⟨-, refusal, hraises, hedit⟩ | ⟨-, hedit⟩
    · cases hraises with
      | hazard => exact .inr ⟨_, _, _, hedit⟩
    · exact .inl hedit
  · refine LinesAlike.indentationIssues_eq_nil ?_
    rw [hold, hnew]
    exact halike.insert front back

/-! ### A suggestion that takes in a parenthesis

In the text below `x` stands on the lines 2 and 4. The lines 1 and 2 are suggested for the first of
them: they are unique, but line 1 opens a parenthesis that is closed on line 3. -/

/-- A call over three lines, and a line behind it. -/
def openCall : Editor := ofText "f(\n x\n)\nx".toList

/-- The suggestion for its line 2. -/
def openCallSuggestion : Suggestion :=
  ⟨.surrounding, "Include lines 1-2 so the match at line 2 is unique", "f(\n x", "f(\n z", 2, none⟩

theorem exists_openCall_refusal : ∃ count lines list,
    openCall.edit Disk.storage ⟨"x", "z", .default⟩ Disk.empty =
      ((.error (.refused (.ambiguousOccurrence "x" count lines list)), openCall.inPhase .rejected),
        Disk.empty) ∧ openCallSuggestion ∈ list := by
  have hassessed : (openCall.assessRequest ⟨"x", "z", .default⟩).toOption.map
      (fun assessment => (assessment.occurrences.length, assessment.ambiguousContext,
        assessment.suggestions)) = some (2, false, [openCallSuggestion]) := by
    decide +kernel
  obtain ⟨assessment, hassess, htold⟩ := toOption_map_eq_some_iff.mp hassessed
  obtain ⟨hcount, htold⟩ := Prod.mk.inj htold
  obtain ⟨hcontext, hsuggested⟩ := Prod.mk.inj htold
  have hplan := plan_eq_of_assessRequest hassess
  rw [decide_eq_ambiguousOccurrence openCall (by rw [hcontext]; rfl) (by omega) rfl] at hplan
  exact ⟨_, _, _, edit_eq_of_plan_eq_refused hplan, hsuggested ▸ List.mem_singleton_self _⟩

/-- The suggestion is refused, though the new text is balanced and keeps its indentation. -/
theorem openCall_suggestion_refused : openCall.Reachable ∧ openCall.path = none ∧
    openCall.AcceptsAll ∧ balanceWarnings "z" = [] ∧ indentationIssues "x" "z" = [] ∧
    ∃ count lines list,
      openCall.edit Disk.storage ⟨"x", "z", .default⟩ Disk.empty =
        ((.error (.refused (.ambiguousOccurrence "x" count lines list)),
          openCall.inPhase .rejected), Disk.empty) ∧
      openCallSuggestion ∈ list ∧ openCallSuggestion.strategy = .surrounding ∧
      ¬ ∃ report edited, (openCall.inPhase .rejected).edit Disk.storage
        (widerRequest openCallSuggestion) Disk.empty = ((.ok report, edited), Disk.empty) := by
  obtain ⟨count, lines, list, hedit, hmem⟩ := exists_openCall_refusal
  refine ⟨ofText_reachable _, rfl, ofText_acceptsAll _, by decide, by decide, count, lines, list,
    hedit, hmem, rfl, ?_⟩
  rintro ⟨report, edited, hfollowed⟩
  obtain ⟨plan, hplan, -⟩ := of_edit_eq_ok hfollowed
  have hunplanned : ((openCall.inPhase .rejected).plan
      (widerRequest openCallSuggestion)).toOption.isNone = true := by
    decide +kernel
  rw [hplan] at hunplanned
  cases hunplanned

/-- What is around its occurrence is not balanced. -/
theorem openCall_suggestion_unbalanced : openCall.Reachable ∧ openCall.path = none ∧
    openCall.AcceptsAll ∧
    openCall.source.lineCount + openCall.settings.contextLines < UInt64.size ∧
    balanceWarnings "z" = [] ∧ ∃ count lines list,
      openCall.edit Disk.storage ⟨"x", "z", .default⟩ Disk.empty =
        ((.error (.refused (.ambiguousOccurrence "x" count lines list)),
          openCall.inPhase .rejected), Disk.empty) ∧
      openCallSuggestion ∈ list ∧ openCallSuggestion.strategy ≠ .scope ∧
      ∃ front back, "f(\n x".toList = front ++ ("x".toList ++ back) ∧
        ((∃ report edited, (openCall.inPhase .rejected).edit Disk.storage
            (widerRequest openCallSuggestion) Disk.empty = ((.ok report, edited), Disk.empty)) ↔
          Balanced (front ++ back) ∧ indentationIssues "f(\n x" "f(\n z" = []) := by
  have hword : openCall.source.lineCount + openCall.settings.contextLines < UInt64.size := by
    decide +kernel
  obtain ⟨count, lines, list, hedit, hmem⟩ := exists_openCall_refusal
  have hwider : openCallSuggestion.strategy ≠ .scope := Strategy.noConfusion
  obtain ⟨front, back, hold, -, hiff, -, -⟩ := follow_suggestion_iff Disk.storage
    (ofText_reachable _) rfl (ofText_acceptsAll _) hword hedit (by decide) hmem hwider
  exact ⟨ofText_reachable _, rfl, ofText_acceptsAll _, hword, by decide, count, lines, list,
    hedit, hmem, hwider, front, back, hold, hiff⟩

end ExactEdit.Editor
