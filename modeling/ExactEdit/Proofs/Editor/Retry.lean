import Mathlib.Data.List.Nodup
import ExactEdit.Proofs.Editor.Verdict
import ExactEdit.Proofs.Occurrence.Exactness
import ExactEdit.Proofs.Suggestion.Narrowing

/-! # Trying again in a suggested scope

A request without filters may be told to search in the scope around one of its occurrences. The
suggestion tells how many of the occurrences are on the lines of that scope. A search in the scope
looks everything up anew: the scope by its kind and name, and the matches by their lines. If no
other scope has this kind and name, it finds what was counted, because filters only take
occurrences away.

## Main results

* `Scope.restriction_inj` — the number can be read off the suggestion
* `ScopeTable.resolve_ofScope_of_only` — naming a scope without namesakes selects it alone
* `findOccurrences_inside` — a search in one scope finds the occurrences on its lines
* `Editor.retry_finds_counted` — trying again finds what the suggestion counted
-/

namespace ExactEdit

open Result

/-! ## The number in a suggestion -/

theorem Scope.restriction_eq (scope : Scope) (inside : Nat) : scope.restriction inside =
    "Restrict the edit to " ++ scope.describe ++ " (" ++ toString inside ++ " occurrence" ++
      (if inside = 1 then "" else "s") ++ " inside)" := rfl

/-- In front of the number there is the same text for every number, behind it a space. -/
theorem Scope.exists_toList_restriction (scope : Scope) (inside : Nat) :
    ∃ rest, (scope.restriction inside).toList =
      ("Restrict the edit to " ++ scope.describe ++ " (").toList ++
        (Nat.toDigits 10 inside ++ ' ' :: rest) := by
  have hspace : " occurrence".toList = ' ' :: "occurrence".toList := by decide
  refine ⟨"occurrence".toList ++ ((if inside = 1 then "" else "s").toList ++ " inside)".toList), ?_⟩
  rw [restriction_eq, Nat.toString_eq_repr]
  simp only [String.toList_append, List.append_assoc, hspace, Nat.toList_repr, List.cons_append]

/-- A number is read up to the space behind it. -/
theorem takeWhile_toDigits (number : Nat) (rest : List Char) :
    (Nat.toDigits 10 number ++ ' ' :: rest).takeWhile Char.isDigit = Nat.toDigits 10 number := by
  have hdigits : ∀ c ∈ Nat.toDigits 10 number, c.isDigit = true :=
    fun _ hc => Nat.isDigit_of_mem_toDigits (by decide) (by decide) hc
  have hspace : ¬ Char.isDigit ' ' = true := by decide
  rw [List.takeWhile_append_of_pos hdigits, List.takeWhile_cons_of_neg hspace, List.append_nil]

/-- Suggestions of one scope that read alike tell the same number. -/
theorem Scope.restriction_inj {scope : Scope} {m n : Nat} :
    scope.restriction m = scope.restriction n ↔ m = n := by
  constructor
  · intro h
    obtain ⟨rest, hm⟩ := scope.exists_toList_restriction m
    obtain ⟨rest', hn⟩ := scope.exists_toList_restriction n
    have hchars := List.append_cancel_left (hm.symm.trans ((congrArg String.toList h).trans hn))
    have hdigits := congrArg (List.takeWhile Char.isDigit) hchars
    rw [takeWhile_toDigits, takeWhile_toDigits] at hdigits
    calc m = Nat.ofDigitChars 10 (Nat.toDigits 10 m) 0 := Nat.ofDigitChars_ten_toDigits.symm
      _ = Nat.ofDigitChars 10 (Nat.toDigits 10 n) 0 := by rw [hdigits]
      _ = n := Nat.ofDigitChars_ten_toDigits
  · intro h
    rw [h]

/-! ## Searching in one scope -/

namespace ScopeTable

variable {table : ScopeTable} {id : Nat} {scope : Scope}

/-- A scope without namesakes is found alone. -/
theorem find_of_only (hget : table.get? id = some scope)
    (honly : ∀ other namesake, table.get? other = some namesake → namesake.kind = scope.kind →
      namesake.name = scope.name → other = id) : table.find scope.kind scope.name = [id] := by
  have hnodup : (table.find scope.kind scope.name).Nodup :=
    (pairwise_idsWhere table _).imp Nat.ne_of_lt
  apply List.perm_singleton.mp
  apply (List.perm_ext_iff_of_nodup hnodup (List.nodup_singleton id)).mpr
  intro other
  rw [mem_find_iff, List.mem_singleton]
  constructor
  · rintro ⟨namesake, hother, hkind, hname⟩
    exact honly other namesake hother hkind hname
  · rintro rfl
    exact ⟨scope, hget, rfl, rfl⟩

/-- Naming a scope without namesakes selects it alone. -/
theorem resolve_ofScope_of_only (hget : table.get? id = some scope)
    (honly : ∀ other namesake, table.get? other = some namesake → namesake.kind = scope.kind →
      namesake.name = scope.name → other = id) :
    table.resolve (.ofScope scope.kind scope.name) = .ok (some [id]) := by
  rw [resolve_ofScope hget, find_of_only hget honly]

theorem allowsLines_singleton (hget : table.get? id = some scope) (first last : Nat) :
    table.allowsLines (some [id]) first last = scope.containsLines first last := by
  rw [allowsLines, List.any_cons, List.any_nil, Bool.or_false, containsLines, hget]

end ScopeTable

section Search

variable {source : Source} {scopes : ScopeTable} {contextLines id : Nat} {search : String}
variable {scope : Scope} {occurrence : Occurrence} {occurrences : List Occurrence}
variable {within : Option (List Nat)}

/-- A search in one scope finds the occurrences on its lines. -/
theorem findOccurrences_inside
    (h : findOccurrences source scopes contextLines search none = .ok occurrences)
    (hget : scopes.get? id = some scope) :
    findOccurrences source scopes contextLines search (some [id]) =
      .ok (occurrences.filter fun occurrence =>
        scope.containsLines occurrence.line occurrence.endLine) := by
  rw [findOccurrences_of_none (some [id]) h]
  simp only [ScopeTable.allowsLines_singleton hget]

/-- An occurrence is on the lines of the scope that it is said to be in. -/
theorem containsLines_of_mem_findOccurrences
    (h : findOccurrences source scopes contextLines search within = .ok occurrences)
    (hmem : occurrence ∈ occurrences) (hscope : occurrence.scope = some id)
    (hget : scopes.get? id = some scope) :
    scope.containsLines occurrence.line occurrence.endLine = true := by
  obtain ⟨start, -, hread⟩ := ((mem_findOccurrences_iff h).mp hmem).1
  obtain ⟨around, haround, hlines⟩ :=
    ScopeTable.exists_scope_of_innermost? (hread.scope_eq.symm.trans hscope)
  obtain rfl := Option.some.inj (hget.symm.trans haround)
  exact hlines

end Search

/-! ## Trying again -/

section Retry

variable {basis : SuggestionBasis} {checker : Option SnippetChecker} {old new : String}
variable {constraint : Constraint}

/-- A request whose filters select one scope with one occurrence in it is unique there, and needs no
suggestions. -/
theorem exists_assess_of_single {id : Nat} {occurrence : Occurrence}
    (htexts : checkTexts old new = .ok ())
    (hresolve : basis.scopes.resolve constraint = .ok (some [id]))
    (hfound : findOccurrences basis.source basis.scopes basis.contextLines old (some [id]) =
      .ok [occurrence]) :
    ∃ retried, assess basis checker old new constraint = .ok retried ∧
      retried.isUnique = true ∧ retried.ambiguousContext = false ∧
      retried.occurrences = [occurrence] :=
  ⟨_, assess_eq_ok_iff.mpr ⟨htexts, some [id], hresolve, [occurrence], hfound, [], rfl, rfl⟩, rfl,
    rfl, rfl⟩

end Retry

namespace Editor

variable {editor validated : Editor} {request : Request} {assessment : Assessment}
variable {suggestion : Suggestion}

/-- Validating leaves all but the phase alone. -/
theorem validate_eq_ok_iff : editor.validate request = (.ok assessment, validated) ↔
    editor.assessRequest request = .ok assessment ∧ validated = editor.inPhase .idle := by
  rw [validate, Prod.mk.injEq]
  refine and_congr_right fun h => ?_
  rw [h]
  exact eq_comm

/-- A request without filters that is told to search in a scope, and that is repeated in this scope,
finds as many occurrences as the suggestion says, if no other scope has its kind and name. One of
them is on the line of the suggestion. If the suggestion says that there is one, the repeated
request is unique there. -/
theorem retry_finds_counted (hfree : request.constraint.filters = [])
    (h : editor.validate request = (.ok assessment, validated))
    (hmem : suggestion ∈ assessment.suggestions) (hstrategy : suggestion.strategy = .scope) :
    ∃ id scope, editor.scopes.get? id = some scope ∧
      suggestion.constraint = some (.ofScope scope.kind scope.name) ∧
      ((∀ other namesake, editor.scopes.get? other = some namesake →
          namesake.kind = scope.kind → namesake.name = scope.name → other = id) →
        ∃ found, validated.find suggestion.oldText (.ofScope scope.kind scope.name) = .ok found ∧
          (∀ count, suggestion.description = scope.restriction count ↔ found.length = count) ∧
          (∃ occurrence ∈ found, occurrence.line = suggestion.line) ∧
          (found.length = 1 → ∃ retried occurrence,
            (validated.validate ⟨suggestion.oldText, suggestion.newText,
              .ofScope scope.kind scope.name⟩).1 = .ok retried ∧
            retried.isUnique = true ∧ retried.ambiguousContext = false ∧
            retried.occurrences = [occurrence] ∧ occurrence.line = suggestion.line)) := by
  obtain ⟨hassess, rfl⟩ := validate_eq_ok_iff.mp h
  obtain ⟨htexts, within, hwithin, occurrences, hfound, list, hlist, rfl⟩ :=
    assess_eq_ok_iff.mp hassess
  rw [ScopeTable.resolve_of_filters_eq_nil hfree] at hwithin
  obtain rfl := Except.ok.inj hwithin
  split at hlist
  case isFalse =>
    obtain rfl := Except.ok.inj hlist
    cases hmem
  obtain ⟨occurrence, hoccurrence, id, scope, hid, hget, rfl⟩ :=
    exists_restriction_of_mem_suggestions hlist hmem hstrategy
  refine ⟨id, scope, hget, rfl, ?_⟩
  intro honly
  have hne : request.oldText.isEmpty = false := by
    rw [String.isEmpty_eq_false_iff]
    exact (checkTexts_eq_ok_iff.mp htexts).1
  -- The search in the scope finds what the suggestion counted: the occurrences on its lines.
  have hresolve := ScopeTable.resolve_ofScope_of_only hget honly
  have hinside := findOccurrences_inside hfound hget
  have hhere : occurrence ∈ occurrences.filter fun other =>
      scope.containsLines other.line other.endLine :=
    List.mem_filter.mpr
      ⟨hoccurrence, containsLines_of_mem_findOccurrences hfound hoccurrence hid hget⟩
  refine ⟨_, ?_, ?_, ⟨occurrence, hhere, rfl⟩, ?_⟩
  · exact find_eq_ok_iff.mpr ⟨hne, some [id], hresolve, hinside⟩
  · intro count
    rw [Scope.restriction_inj, List.countP_eq_length_filter]
  · intro hone
    obtain ⟨single, hsingle⟩ := List.length_eq_one_iff.mp hone
    rw [hsingle] at hhere hinside
    obtain rfl := List.mem_singleton.mp hhere
    obtain ⟨retried, hretried, hunique, hunambiguous, honce⟩ :=
      exists_assess_of_single htexts hresolve hinside
    exact ⟨retried, occurrence, hretried, hunique, hunambiguous, honce, rfl⟩

/-! ### A suggestion that says one

In the text of `functionFirst`, `a` stands in a function and behind it. -/

/-- The only scope of the text. -/
def functionScope : Scope := ⟨.function, "f", 1, 2, 1, 4, ⟨0, 12⟩, none⟩

theorem functionFirst_scopes : functionFirst.scopes = ⟨[functionScope]⟩ := by
  decide +kernel

theorem get?_functionFirst {id : Nat} {scope : Scope}
    (h : functionFirst.scopes.get? id = some scope) : id = 0 ∧ scope = functionScope := by
  rw [functionFirst_scopes] at h
  obtain ⟨hlt, rfl⟩ := List.getElem?_eq_some_iff.mp h
  have hid : id = 0 := Nat.lt_one_iff.mp hlt
  subst hid
  exact ⟨rfl, rfl⟩

/-- An edit of `a` is told to search in the function, where it is said to occur once. -/
theorem exists_validate_functionFirst : ∃ assessment validated,
    functionFirst.validate ⟨"a", "b", .default⟩ = (.ok assessment, validated) ∧
    ∃ suggestion ∈ assessment.suggestions, suggestion.strategy = .scope ∧
      suggestion.line = 2 ∧ suggestion.description = functionScope.restriction 1 := by
  have hrun : (findOccurrences functionFirst.source functionFirst.scopes
      functionFirst.settings.contextLines "a" none).toOption.map (fun occurrences =>
        (occurrences.length,
          (occurrences.mapM (functionFirst.basis.candidates "a" "b" occurrences)).toOption.map
            fun all => (Suggestion.distinct all.flatten).any fun suggestion =>
              suggestion.strategy == .scope && suggestion.line == 2 &&
                suggestion.description == functionScope.restriction 1)) =
      some (2, some true) := by
    decide +kernel
  obtain ⟨occurrences, hfound, hpair⟩ := toOption_map_eq_some_iff.mp hrun
  obtain ⟨hlength, hgather⟩ := Prod.mk.inj hpair
  obtain ⟨all, hall, hany⟩ := toOption_map_eq_some_iff.mp hgather
  obtain ⟨list, hlist, hsame⟩ := exists_suggestions_eq_ok hall
  obtain ⟨suggestion, hmem, htest⟩ := List.any_eq_true.mp hany
  rw [Bool.and_eq_true, Bool.and_eq_true, beq_iff_eq, beq_iff_eq, beq_iff_eq] at htest
  have hsuggested : (if 1 < occurrences.length then
      suggestions functionFirst.basis "a" "b" occurrences else .ok []) = .ok list := by
    rw [if_pos (by omega)]
    exact hlist
  refine ⟨_, _, validate_eq_ok_iff.mpr ⟨assess_eq_ok_iff.mpr ⟨?_, none,
    ScopeTable.resolve_of_filters_eq_nil rfl, occurrences, hfound, list, hsuggested, rfl⟩, rfl⟩,
    suggestion, (hsame suggestion).mpr hmem, htest.1.1, htest.1.2, htest.2⟩
  exact checkTexts_eq_ok_iff.mpr ⟨by decide, by decide⟩

/-- In the function the request is unique, and on the line that the suggestion is for. -/
theorem functionFirst_retried : ∃ assessment validated suggestion found retried occurrence,
    functionFirst.validate ⟨"a", "b", .default⟩ = (.ok assessment, validated) ∧
    suggestion ∈ assessment.suggestions ∧ suggestion.strategy = .scope ∧
    suggestion.description = functionScope.restriction 1 ∧
    validated.find suggestion.oldText (.ofScope .function "f") = .ok found ∧ found.length = 1 ∧
    (validated.validate
      ⟨suggestion.oldText, suggestion.newText, .ofScope .function "f"⟩).1 = .ok retried ∧
    retried.isUnique = true ∧ retried.ambiguousContext = false ∧
    retried.occurrences = [occurrence] ∧ occurrence.line = 2 := by
  obtain ⟨assessment, validated, hvalidate, suggestion, hmem, hstrategy, hline, hdescription⟩ :=
    exists_validate_functionFirst
  obtain ⟨id, scope, hget, -, hretry⟩ := retry_finds_counted rfl hvalidate hmem hstrategy
  obtain ⟨rfl, rfl⟩ := get?_functionFirst hget
  have honly : ∀ other namesake, functionFirst.scopes.get? other = some namesake →
      namesake.kind = functionScope.kind → namesake.name = functionScope.name → other = 0 :=
    fun _ _ hother _ _ => (get?_functionFirst hother).1
  obtain ⟨found, hfind, hcount, -, hsingle⟩ := hretry honly
  have hone : found.length = 1 := (hcount 1).mp hdescription
  obtain ⟨retried, occurrence, hretried, hunique, hunambiguous, honce, hat⟩ := hsingle hone
  exact ⟨assessment, validated, suggestion, found, retried, occurrence, hvalidate, hmem, hstrategy,
    hdescription, hfind, hone, hretried, hunique, hunambiguous, honce, hat.trans hline⟩

end Editor

end ExactEdit
