import ExactEdit.Proofs.Assessment
import ExactEdit.Proofs.Scope.Lookup

/-! # What the suggestion of a scope asks for

An occurrence that is not alone is suggested together with the scope around it. The suggestion
names this scope by its kind and name, without what the request had said about it. Whoever follows
it therefore gets the occurrence back, but not always fewer occurrences: a namesake of the scope
may lie outside the scopes of the request, and then brings its own occurrences along.

## Main definitions

* `Scope.restriction` — how the suggestion of a scope reads
* `Strays` — some scopes hold a match that a constraint does not allow

## Main results

* `exists_restriction_of_mem_suggestions`, `exists_scope_of_mem_suggestions` — what the suggestion
  of a scope consists of
* `subset_findOccurrences_iff` — when a search under filters finds no more than under others
* `scope_suggestion_narrows_iff` — when the suggestion of a scope narrows the request
-/

namespace ExactEdit

open Text Result

variable {chars : List Char} {basis : SuggestionBasis} {checker : Option SnippetChecker}
variable {old new : String} {constraint : Constraint} {assessment : Assessment}
variable {occurrence : Occurrence} {occurrences found : List Occurrence}
variable {suggestion : Suggestion} {list : List Suggestion} {within : Option (List Nat)}
variable {scopes : ScopeTable} {contextLines : Nat} {ids : List Nat}

/-! ## Suggestions of scopes -/

namespace SuggestionBasis

/-- Only the candidate that names a scope has the strategy to name one. -/
theorem scope_eq_some_of_mem_candidates {candidates : List Suggestion}
    (h : basis.candidates old new occurrences occurrence = .ok candidates)
    (hmem : suggestion ∈ candidates) (hstrategy : suggestion.strategy = .scope) :
    basis.scope old new occurrence occurrences = some suggestion := by
  rcases (mem_candidates_iff h).mp hmem with hsurrounding | hcomment | hscope
  · obtain ⟨_, -, hmap⟩ := bind_eq_ok_iff.mp hsurrounding
    obtain ⟨_, -, rfl⟩ := Option.map_eq_some_iff.mp (Except.ok.inj hmap)
    cases hstrategy
  · rw [SuggestionBasis.comment] at hcomment
    split at hcomment
    · cases hcomment
    · obtain ⟨_, -, hmap⟩ := bind_eq_ok_iff.mp hcomment
      obtain ⟨_, -, rfl⟩ := Option.map_eq_some_iff.mp (Except.ok.inj hmap)
      cases hstrategy
  · exact hscope

end SuggestionBasis

/-- How the suggestion of a scope reads. The number in it is that of the occurrences inside. -/
def Scope.restriction (scope : Scope) (inside : Nat) : String :=
  let plural := if inside = 1 then "" else "s"
  s!"Restrict the edit to {scope.describe} ({inside} occurrence{plural} inside)"

/-- The suggestion of a scope names the scope that an occurrence is in, and tells how many of the
occurrences are on its lines. -/
theorem exists_restriction_of_mem_suggestions
    (h : suggestions basis old new occurrences = .ok list) (hmem : suggestion ∈ list)
    (hstrategy : suggestion.strategy = .scope) :
    ∃ occurrence ∈ occurrences, ∃ id scope, occurrence.scope = some id ∧
      basis.scopes.get? id = some scope ∧ suggestion =
        { strategy := .scope
          description := scope.restriction
            (occurrences.countP fun other => scope.containsLines other.line other.endLine)
          oldText := old
          newText := new
          line := occurrence.line
          constraint := some (.ofScope scope.kind scope.name) } := by
  obtain ⟨occurrence, hoccurrence, candidates, hcandidates, hmem⟩ :=
    exists_of_mem_suggestions h hmem
  have hscope := SuggestionBasis.scope_eq_some_of_mem_candidates hcandidates hmem hstrategy
  simp only [SuggestionBasis.scope, Option.bind_eq_bind, Option.bind_eq_some_iff, Option.pure_def,
    Option.some.injEq] at hscope
  obtain ⟨id, hid, scope, hget, rfl⟩ := hscope
  exact ⟨occurrence, hoccurrence, id, scope, hid, hget, rfl⟩

/-- The suggestion of a scope is the request again, for the scope that an occurrence is in. -/
theorem exists_scope_of_mem_suggestions (h : suggestions basis old new occurrences = .ok list)
    (hmem : suggestion ∈ list) (hstrategy : suggestion.strategy = .scope) :
    ∃ occurrence ∈ occurrences, ∃ id scope, occurrence.scope = some id ∧
      basis.scopes.get? id = some scope ∧ suggestion.oldText = old ∧ suggestion.newText = new ∧
      suggestion.line = occurrence.line ∧
      suggestion.constraint = some (.ofScope scope.kind scope.name) := by
  obtain ⟨occurrence, hoccurrence, id, scope, hid, hget, rfl⟩ :=
    exists_restriction_of_mem_suggestions h hmem hstrategy
  exact ⟨occurrence, hoccurrence, id, scope, hid, hget, rfl, rfl, rfl, rfl⟩

/-! ## Searching under two constraints -/

/-- Some scopes hold a match that a constraint does not allow. -/
def Strays (scopes : ScopeTable) (within : Option (List Nat)) (ids : List Nat)
    (old chars : List Char) : Prop :=
  ∃ place ∈ matchOffsets old chars, allowsMatch scopes (some ids) old chars place = true ∧
    allowsMatch scopes within old chars place = false

/-- A search in some scopes finds nothing new exactly if these hold no stray match. -/
theorem subset_findOccurrences_iff
    (h : findOccurrences (Source.ofChars chars) scopes contextLines old within = .ok occurrences)
    (hnamed : findOccurrences (Source.ofChars chars) scopes contextLines old (some ids) =
      .ok found) :
    found ⊆ occurrences ↔ ¬ Strays scopes within ids old.toList chars := by
  constructor
  · rintro hsubset ⟨place, hmatch, hin, hout⟩
    have hplace : place ∈ found.map (·.range.start) := by
      rw [starts_of_findOccurrences hnamed]
      exact List.mem_filter.mpr ⟨hmatch, hin⟩
    obtain ⟨occurrence, hmem, rfl⟩ := List.mem_map.mp hplace
    -- It was found under the constraint too, so the constraint allows it.
    have hstart := List.mem_map_of_mem (f := (·.range.start)) (hsubset hmem)
    rw [starts_of_findOccurrences h] at hstart
    rw [(List.mem_filter.mp hstart).2] at hout
    cases hout
  · intro hstays occurrence hmem
    obtain ⟨_, _, hat⟩ := isAt_of_mem_findOccurrences hnamed hmem
    have hmatch := start_mem_matchOffsets_of_mem_findOccurrences hnamed hmem
    have hne := ne_nil_of_mem_matchOffsets hmatch
    refine mem_findOccurrences_of_mem h hnamed hmem ?_
    by_contra hout
    rw [← hat.allowsMatch_eq hne, Bool.not_eq_true] at hout
    refine hstays ⟨_, hmatch, ?_, hout⟩
    rw [hat.allowsMatch_eq hne]
    exact allowsLines_of_mem_findOccurrences hnamed hmem

/-- Scopes whose lines a constraint allows hold no stray match. -/
theorem not_strays_of_allowsLines {old : List Char}
    (h : ∀ id ∈ ids, ∀ scope, scopes.get? id = some scope →
      scopes.allowsLines within scope.startLine scope.endLine = true) :
    ¬ Strays scopes within ids old chars := by
  rintro ⟨place, -, hin, hout⟩
  obtain ⟨id, hid, scope, hscope, hlines⟩ := ScopeTable.allowsLines_some_iff.mp hin
  rw [Scope.containsLines, Bool.and_eq_true, decide_eq_true_iff, decide_eq_true_iff] at hlines
  have hallows := ScopeTable.allowsLines_of_le (h id hid scope hscope) hlines.1 hlines.2
  rw [allowsMatch, hallows] at hout
  cases hout

/-! ## Following the suggestion of a scope -/

/-- The suggestion of a scope asks for the same edit in the scopes that have its kind and name. A
search there finds an occurrence of the request on the line of the suggestion. It finds nothing
that the request did not have exactly if none of these scopes holds a stray match; so it does if
the request has no filters, or allows all lines of these scopes. Line numbers are words, so the
search has an answer if the lines of the text and of the context do not overflow one together. -/
theorem scope_suggestion_narrows_iff (hsource : basis.source = Source.ofChars chars)
    (h : assess basis checker old new constraint = .ok assessment)
    (hmem : suggestion ∈ assessment.suggestions) (hstrategy : suggestion.strategy = .scope) :
    ∃ kind name within, suggestion.constraint = some (.ofScope kind name) ∧
      suggestion.oldText = old ∧ suggestion.newText = new ∧
      basis.scopes.resolve constraint = .ok within ∧
      basis.scopes.resolve (.ofScope kind name) = .ok (some (basis.scopes.find kind name)) ∧
      (basis.source.lineCount + basis.contextLines < UInt64.size →
        ∃ found, findOccurrences basis.source basis.scopes basis.contextLines old
          (some (basis.scopes.find kind name)) = .ok found) ∧
      ∀ found, findOccurrences basis.source basis.scopes basis.contextLines old
          (some (basis.scopes.find kind name)) = .ok found →
        (∃ occurrence ∈ found, occurrence ∈ assessment.occurrences ∧
          occurrence.line = suggestion.line) ∧
        (found ⊆ assessment.occurrences ↔
          ¬ Strays basis.scopes within (basis.scopes.find kind name) old.toList chars) ∧
        (constraint.filters = [] → found ⊆ assessment.occurrences) ∧
        ((∀ id ∈ basis.scopes.find kind name, ∀ scope, basis.scopes.get? id = some scope →
            basis.scopes.allowsLines within scope.startLine scope.endLine = true) →
          found ⊆ assessment.occurrences) := by
  obtain ⟨-, within, hwithin, occurrences, hfound, suggested, hsuggested, rfl⟩ :=
    assess_eq_ok_iff.mp h
  split at hsuggested
  case isFalse =>
    obtain rfl := Except.ok.inj hsuggested
    cases hmem
  obtain ⟨occurrence, hoccurrence, id, scope, hid, hget, hold, hnew, hline, hconstraint⟩ :=
    exists_scope_of_mem_suggestions hsuggested hmem hstrategy
  refine ⟨scope.kind, scope.name, within, hconstraint, hold, hnew, hwithin,
    ScopeTable.resolve_ofScope hget, ?_, fun found hnamed => ?_⟩
  · intro hword
    rw [hsource] at hword ⊢
    exact exists_findOccurrences hword
  -- The occurrence is on the lines of the innermost scope around it, which is named.
  have hallows : basis.scopes.allowsLines (some (basis.scopes.find scope.kind scope.name))
      occurrence.line occurrence.endLine = true := by
    obtain ⟨start, -, hread⟩ := ((mem_findOccurrences_iff hfound).mp hoccurrence).1
    obtain ⟨around, haround, hlines⟩ :=
      ScopeTable.exists_scope_of_innermost? (hread.scope_eq.symm.trans hid)
    exact ScopeTable.allowsLines_some_iff.mpr
      ⟨id, ScopeTable.mem_find_of_get? hget, around, haround, hlines⟩
  have hsubset : found ⊆ occurrences ↔
      ¬ Strays basis.scopes within (basis.scopes.find scope.kind scope.name) old.toList chars := by
    rw [hsource] at hfound hnamed
    exact subset_findOccurrences_iff hfound hnamed
  refine ⟨⟨occurrence, mem_findOccurrences_of_mem hnamed hfound hoccurrence hallows, hoccurrence,
    hline.symm⟩, hsubset, ?_, ?_⟩
  · intro hfree
    rw [ScopeTable.resolve_of_filters_eq_nil hfree] at hwithin
    obtain rfl := Except.ok.inj hwithin
    exact hsubset.mpr (not_strays_of_allowsLines fun _ _ _ _ => rfl)
  · intro hinside
    exact hsubset.mpr (not_strays_of_allowsLines hinside)

/-! ### Two methods of one name

In the text below `x` stands twice in the method `m` of the class `A`, and once in the method `m` of
the class `B`. -/

/-- Two classes with a method `m` each. -/
def twoMethods : SuggestionBasis :=
  { source := Source.ofChars "class A:\n def m():\n  x\n  x\nclass B:\n def m():\n  x\n".toList
    scopes := ⟨[
      ⟨.classBody, "A", 1, 4, 1, 4, ⟨0, 26⟩, none⟩,
      ⟨.method, "m", 2, 4, 2, 4, ⟨10, 26⟩, some 0⟩,
      ⟨.classBody, "B", 5, 7, 1, 4, ⟨27, 49⟩, none⟩,
      ⟨.method, "m", 6, 7, 2, 4, ⟨37, 49⟩, some 2⟩]⟩
    language := some .python
    contextLines := defaultContextLines
    commentRadius := defaultCommentRadius }

/-- Whether an edit of `x` under a constraint has occurrences on these lines, and is told to search
in the method `m` for the first of them. -/
def suggestsMethod (constraint : Constraint) (lines : List Nat) : Bool :=
  match twoMethods.scopes.resolve constraint with
  | .error _ => false
  | .ok within =>
    match findOccurrences twoMethods.source twoMethods.scopes twoMethods.contextLines "x"
        within with
    | .error _ => false
    | .ok occurrences =>
      match occurrences.mapM (twoMethods.candidates "x" "z" occurrences) with
      | .error _ => false
      | .ok all => occurrences.map (·.line) == lines &&
        (Suggestion.distinct all.flatten).any fun suggestion =>
          suggestion.strategy == .scope && suggestion.line == 3 &&
            suggestion.constraint == some (.ofScope .method "m")

theorem exists_assess_twoMethods (constraint : Constraint) (lines : List Nat)
    (hseveral : 1 < lines.length)
    (hrun : suggestsMethod constraint lines = true) :
    ∃ assessment, assess twoMethods none "x" "z" constraint = .ok assessment ∧
      assessment.occurrences.map (·.line) = lines ∧ ∃ suggestion ∈ assessment.suggestions,
        suggestion.strategy = .scope ∧ suggestion.line = 3 ∧
          suggestion.constraint = some (.ofScope .method "m") := by
  rw [suggestsMethod] at hrun
  split at hrun
  · cases hrun
  next within hwithin =>
  split at hrun
  · cases hrun
  next occurrences hfound =>
  split at hrun
  · cases hrun
  next all hall =>
  rw [Bool.and_eq_true, beq_iff_eq] at hrun
  obtain ⟨rfl, hany⟩ := hrun
  obtain ⟨suggestion, hmem, htest⟩ := List.any_eq_true.mp hany
  obtain ⟨list, hlist, hsame⟩ := exists_suggestions_eq_ok hall
  rw [Bool.and_eq_true, Bool.and_eq_true, beq_iff_eq, beq_iff_eq, beq_iff_eq] at htest
  rw [List.length_map] at hseveral
  refine ⟨_, assess_eq_ok_iff.mpr ⟨by decide, within, hwithin, occurrences, hfound, list, ?_, rfl⟩,
    rfl, suggestion, (hsame suggestion).mpr hmem, htest.1.1, htest.1.2, htest.2⟩
  rw [if_pos hseveral]
  exact hlist

/-- In the class `A` there are two occurrences; the suggestion to search in `m` alone leads to the
third, in the class `B`. -/
theorem twoMethods_suggestion_strays : ∃ assessment,
    assess twoMethods none "x" "z" (.ofScope .classBody "A") = .ok assessment ∧
    assessment.occurrences.map (·.line) = [3, 4] ∧ ∃ suggestion ∈ assessment.suggestions,
      suggestion.strategy = .scope ∧ suggestion.constraint = some (.ofScope .method "m") ∧
      twoMethods.scopes.resolve (.ofScope .method "m") = .ok (some [1, 3]) ∧
      ∃ found, findOccurrences twoMethods.source twoMethods.scopes twoMethods.contextLines "x"
          (some [1, 3]) = .ok found ∧ found.map (·.line) = [3, 4, 7] ∧
        ¬ found ⊆ assessment.occurrences := by
  obtain ⟨assessment, hassess, hlines, suggestion, hmem, hstrategy, -, hconstraint⟩ :=
    exists_assess_twoMethods (.ofScope .classBody "A") [3, 4] (by decide) (by decide +kernel)
  have hfound : (findOccurrences twoMethods.source twoMethods.scopes twoMethods.contextLines "x"
      (some [1, 3])).toOption.map (·.map (·.line)) = some [3, 4, 7] := by
    decide +kernel
  obtain ⟨found, hfound, hthree⟩ := toOption_map_eq_some_iff.mp hfound
  refine ⟨assessment, hassess, hlines, suggestion, hmem, hstrategy, hconstraint, by decide +kernel,
    found, hfound, hthree, fun hsubset => ?_⟩
  -- Lines of what is found would be lines of the occurrences.
  have hline : 7 ∈ assessment.occurrences.map (·.line) := by
    refine List.map_subset _ hsubset ?_
    rw [hthree]
    decide
  rw [hlines] at hline
  exact absurd hline (by decide)

/-- Without a filter nothing strays, and following the suggestion narrows the request. -/
theorem twoMethods_suggestion_narrows : ∃ assessment,
    assess twoMethods none "x" "z" .default = .ok assessment ∧
    assessment.occurrences.map (·.line) = [3, 4, 7] ∧ ∃ suggestion ∈ assessment.suggestions,
      suggestion.strategy = .scope ∧ ∃ kind name found,
        suggestion.constraint = some (.ofScope kind name) ∧
        findOccurrences twoMethods.source twoMethods.scopes twoMethods.contextLines "x"
          (some (twoMethods.scopes.find kind name)) = .ok found ∧
        found ⊆ assessment.occurrences ∧ ∃ occurrence ∈ found, occurrence.line = 3 := by
  obtain ⟨assessment, hassess, hlines, suggestion, hmem, hstrategy, hline, -⟩ :=
    exists_assess_twoMethods .default [3, 4, 7] (by decide) (by decide +kernel)
  obtain ⟨kind, name, _, hconstraint, -, -, -, -, hanswer, hfollowed⟩ :=
    scope_suggestion_narrows_iff rfl hassess hmem hstrategy
  obtain ⟨found, hfound⟩ := hanswer (by decide +kernel)
  obtain ⟨⟨occurrence, hoccurrence, -, hat⟩, -, hfree, -⟩ := hfollowed found hfound
  exact ⟨assessment, hassess, hlines, suggestion, hmem, hstrategy, kind, name, found, hconstraint,
    hfound, hfree rfl, occurrence, hoccurrence, hat.trans hline⟩

end ExactEdit
