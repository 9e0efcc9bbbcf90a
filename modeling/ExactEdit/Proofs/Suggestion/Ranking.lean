import Mathlib.Data.List.Induction
import Mathlib.Data.List.Nodup
import Mathlib.Order.Bounds.Basic
import ExactEdit.Proofs.Suggestion.Narrowing

/-! # The order of suggestions

Occurrences that share a scope, a comment or a line bring the same edit along several times. All
candidates are gathered, of those for one edit the one on the smallest line is kept, and what is
kept is sorted. What is asked for and on which line is therefore determined by the candidates as a
set, so that it does not matter in which order the occurrences come.

## Main definitions

* `Suggestion.key` — the edit that a suggestion asks for
* `Suggestion.Distils` — some suggestions are the first ones of all, every edit once
* `SuggestionBasis.gathered` — what the three strategies make of some occurrences

## Main results

* `Suggestion.Distils.addTo`, `Suggestion.distils_distinct` — adding one by one distils
* `Suggestion.Distils.perm` — what is distilled is determined by the set it comes from
* `suggestions_ranked` — suggestions are sorted, complete and free of duplicates
-/

namespace ExactEdit

open Result

variable {basis : SuggestionBasis} {old new : String} {occurrence : Occurrence}
variable {occurrences others : List Occurrence} {suggestion other : Suggestion}
variable {list kept kept' : List Suggestion} {all : Set Suggestion}

namespace Suggestion

/-! ## Every edit once -/

/-- The edit that a suggestion asks for. Its line and its description only tell where it comes
from. -/
def key (suggestion : Suggestion) : Strategy × String × String × Option Constraint :=
  (suggestion.strategy, suggestion.oldText, suggestion.newText, suggestion.constraint)

theorem sameRequest_iff : suggestion.sameRequest other = true ↔ suggestion.key = other.key := by
  simp only [sameRequest, key, Bool.and_eq_true, beq_iff_eq, Prod.mk.injEq, and_assoc]

/-- Some suggestions are drawn from all of them: every edit is there once, on the smallest of its
lines. -/
structure Distils (all : Set Suggestion) (kept : List Suggestion) : Prop where
  nodup : (kept.map key).Nodup
  mem : ∀ suggestion ∈ kept, suggestion ∈ all
  covers : ∀ suggestion ∈ all, ∃ first ∈ kept, first.key = suggestion.key ∧
    first.line ≤ suggestion.line

/-- Of two suggestions for one edit, what stays is for that edit and on the smaller line. -/
theorem earlier_spec (h : suggestion.key = other.key) :
    (if suggestion.line < other.line then suggestion else other).key = other.key ∧
      (if suggestion.line < other.line then suggestion else other).line ≤ suggestion.line ∧
      (if suggestion.line < other.line then suggestion else other).line ≤ other.line := by
  split
  · next hlt => exact ⟨h, le_rfl, hlt.le⟩
  · next hle => exact ⟨rfl, not_lt.mp hle, le_rfl⟩

/-- A suggestion for a new edit comes at the end; another one leaves the edits as they are. -/
theorem map_key_addTo : (suggestion.addTo kept).map key =
    if suggestion.key ∈ kept.map key then kept.map key else kept.map key ++ [suggestion.key] := by
  induction kept with
  | nil => rfl
  | cons head rest ih =>
    rw [addTo, List.map_cons]
    by_cases hsame : suggestion.sameRequest head = true
    · have hkey := sameRequest_iff.mp hsame
      rw [if_pos hsame, if_pos (List.mem_cons.mpr (.inl hkey)), List.map_cons, (earlier_spec hkey).1]
    · have hkey : suggestion.key ≠ head.key := fun h => hsame (sameRequest_iff.mpr h)
      rw [if_neg hsame, List.map_cons, ih]
      by_cases hrest : suggestion.key ∈ rest.map key
      · rw [if_pos hrest, if_pos (List.mem_cons_of_mem _ hrest)]
      · rw [if_neg hrest, if_neg (List.not_mem_cons_of_ne_of_not_mem hkey hrest), List.cons_append]

theorem nodup_addTo (h : (kept.map key).Nodup) : ((suggestion.addTo kept).map key).Nodup := by
  rw [map_key_addTo]
  split
  · exact h
  · next hnew =>
    rw [← List.concat_eq_append]
    exact h.concat hnew

/-- What is added or was there is there afterwards, or its edit is there on a smaller line. -/
theorem exists_first_of_addTo (h : other = suggestion ∨ other ∈ kept) :
    ∃ first ∈ suggestion.addTo kept, first.key = other.key ∧ first.line ≤ other.line := by
  induction kept with
  | nil =>
    obtain rfl := h.resolve_right List.not_mem_nil
    exact ⟨other, List.mem_singleton_self _, rfl, le_rfl⟩
  | cons head rest ih =>
    rw [addTo]
    by_cases hsame : suggestion.sameRequest head = true
    · -- The head stands for the edit of both, and the rest is as it was.
      have hkey := sameRequest_iff.mp hsame
      obtain ⟨hfirst, hadded, hhead⟩ := earlier_spec hkey
      rw [if_pos hsame]
      rcases h with rfl | hmem
      · exact ⟨_, List.mem_cons_self, hfirst.trans hkey.symm, hadded⟩
      · rcases List.mem_cons.mp hmem with rfl | hrest
        · exact ⟨_, List.mem_cons_self, hfirst, hhead⟩
        · exact ⟨other, List.mem_cons_of_mem _ hrest, rfl, le_rfl⟩
    · rw [if_neg hsame]
      by_cases hhead : other = head
      · exact ⟨head, List.mem_cons_self, by rw [hhead], by rw [hhead]⟩
      · obtain ⟨first, hfirst, hleast⟩ :=
          ih (h.imp_right fun hmem => (List.mem_cons.mp hmem).resolve_left hhead)
        exact ⟨first, List.mem_cons_of_mem _ hfirst, hleast⟩

/-- One more suggestion is distilled by adding it. -/
theorem Distils.addTo (h : Distils all kept) (suggestion : Suggestion) :
    Distils (insert suggestion all) (suggestion.addTo kept) where
  nodup := nodup_addTo h.nodup
  mem := by
    intro other hother
    rcases mem_of_mem_addTo hother with rfl | hkept
    · exact Set.mem_insert _ _
    · exact Set.mem_insert_of_mem _ (h.mem other hkept)
  covers := by
    intro other hother
    rcases Set.mem_insert_iff.mp hother with rfl | hall
    · exact exists_first_of_addTo (.inl rfl)
    · obtain ⟨before, hbefore, hkey, hline⟩ := h.covers other hall
      obtain ⟨first, hfirst, hsame, hleast⟩ := exists_first_of_addTo (.inr hbefore)
      exact ⟨first, hfirst, hsame.trans hkey, hleast.trans hline⟩

theorem distinct_concat (list : List Suggestion) (suggestion : Suggestion) :
    distinct (list ++ [suggestion]) = suggestion.addTo (distinct list) := by
  rw [distinct, List.foldl_append]
  rfl

/-- Adding one suggestion after the other distils them. -/
theorem distils_distinct (list : List Suggestion) :
    Distils {suggestion | suggestion ∈ list} (distinct list) := by
  -- The suggestions are added from the front on, so the induction takes the last one off.
  induction list using List.reverseRecOn with
  | nil =>
    exact ⟨List.nodup_nil, fun _ h => (List.not_mem_nil h).elim,
      fun _ h => (List.not_mem_nil h).elim⟩
  | append_singleton front last ih =>
    have hset : {suggestion | suggestion ∈ front ++ [last]} =
        insert last {suggestion | suggestion ∈ front} := by
      ext suggestion
      rw [Set.mem_ofPred_eq, List.mem_append, List.mem_singleton, or_comm]
      rfl
    rw [hset, distinct_concat]
    exact ih.addTo last

namespace Distils

variable (h : Distils all kept)
include h

theorem of_perm (hperm : kept'.Perm kept) : Distils all kept' where
  nodup := (hperm.map key).nodup_iff.mpr h.nodup
  mem := fun suggestion hmem => h.mem suggestion (hperm.mem_iff.mp hmem)
  covers := by
    intro suggestion hmem
    obtain ⟨first, hfirst, hleast⟩ := h.covers suggestion hmem
    exact ⟨first, hperm.mem_iff.mpr hfirst, hleast⟩

/-- No edit is lost, and none is made up. -/
theorem mem_map_key_iff {edit : Strategy × String × String × Option Constraint} :
    edit ∈ kept.map key ↔ ∃ candidate ∈ all, candidate.key = edit := by
  rw [List.mem_map]
  constructor
  · rintro ⟨suggestion, hmem, hkey⟩
    exact ⟨suggestion, h.mem suggestion hmem, hkey⟩
  · rintro ⟨candidate, hmem, rfl⟩
    obtain ⟨first, hfirst, hkey, -⟩ := h.covers candidate hmem
    exact ⟨first, hfirst, hkey⟩

theorem eq_of_key_eq (hmem : suggestion ∈ kept) (hother : other ∈ kept)
    (hkey : suggestion.key = other.key) : suggestion = other :=
  List.inj_on_of_nodup_map h.nodup hmem hother hkey

/-- What is kept is on the smallest line that its edit has. -/
theorem isLeast (hmem : suggestion ∈ kept) :
    IsLeast {line | ∃ candidate ∈ all, candidate.key = suggestion.key ∧ candidate.line = line}
      suggestion.line := by
  refine ⟨⟨suggestion, h.mem suggestion hmem, rfl, rfl⟩, ?_⟩
  rintro line ⟨candidate, hcandidate, hkey, rfl⟩
  obtain ⟨first, hfirst, hsame, hleast⟩ := h.covers candidate hcandidate
  obtain rfl := h.eq_of_key_eq hfirst hmem (hsame.trans hkey)
  exact hleast

/-- Which edits are kept, and on which lines, is said by all suggestions alone. -/
theorem mem_map_line_iff {edit : Strategy × String × String × Option Constraint} {line : Nat} :
    (edit, line) ∈ kept.map (fun suggestion => (suggestion.key, suggestion.line)) ↔
      IsLeast {line | ∃ candidate ∈ all, candidate.key = edit ∧ candidate.line = line} line := by
  rw [List.mem_map]
  constructor
  · rintro ⟨suggestion, hmem, hpair⟩
    obtain ⟨rfl, rfl⟩ := Prod.mk.inj hpair
    exact h.isLeast hmem
  · intro hleast
    -- Some candidate asks for the edit, so it is kept, and a set has only one least number.
    obtain ⟨candidate, hcandidate, hkey, -⟩ := hleast.1
    obtain ⟨first, hfirst, hsame, -⟩ := h.covers candidate hcandidate
    refine ⟨first, hfirst, ?_⟩
    have hfirstLeast := h.isLeast hfirst
    rw [hsame, hkey] at hfirstLeast
    rw [hsame, hkey, hfirstLeast.unique hleast]

/-- What is distilled from the same suggestions has the same edits on the same lines. -/
theorem perm (h' : Distils all kept') :
    (kept.map fun suggestion => (suggestion.key, suggestion.line)).Perm
      (kept'.map fun suggestion => (suggestion.key, suggestion.line)) := by
  have hnodup : ∀ {kept}, Distils all kept →
      (kept.map fun suggestion => (suggestion.key, suggestion.line)).Nodup := by
    intro kept hkept
    apply List.Nodup.of_map Prod.fst
    rw [List.map_map]
    exact hkept.nodup
  apply (List.perm_ext_iff_of_nodup (hnodup h) (hnodup h')).mpr
  rintro ⟨edit, line⟩
  rw [h.mem_map_line_iff, h'.mem_map_line_iff]

end Distils

/-! ## Sorting -/

theorem ranksBefore_iff : suggestion.ranksBefore other = true ↔
    other.strategy.confidence < suggestion.strategy.confidence ∨
      suggestion.strategy.confidence = other.strategy.confidence ∧
        suggestion.line ≤ other.line := by
  simp only [ranksBefore, Bool.or_eq_true, Bool.and_eq_true, decide_eq_true_iff, beq_iff_eq]

/-- Sorted suggestions go down in confidence, and for the same confidence down the lines. -/
theorem pairwise_mergeSort_ranksBefore (list : List Suggestion) :
    (list.mergeSort ranksBefore).Pairwise fun a b =>
      b.strategy.confidence < a.strategy.confidence ∨
        a.strategy.confidence = b.strategy.confidence ∧ a.line ≤ b.line := by
  refine (List.pairwise_mergeSort ?_ ?_ list).imp ranksBefore_iff.mp
  · intro a b c hab hbc
    rw [ranksBefore_iff] at *
    omega
  · intro a b
    rw [Bool.or_eq_true, ranksBefore_iff, ranksBefore_iff]
    omega

end Suggestion

/-! ## What is gathered -/

namespace SuggestionBasis

/-- What the three strategies make of some occurrences. -/
def gathered (basis : SuggestionBasis) (old new : String) (occurrences : List Occurrence) :
    Set Suggestion :=
  {candidate | ∃ occurrence ∈ occurrences,
    basis.surrounding old new occurrence = .ok (some candidate) ∨
    basis.comment old new occurrence = .ok (some candidate) ∨
    basis.scope old new occurrence occurrences = some candidate}

/-- The candidates of all occurrences are what is gathered. -/
theorem mem_flatten_iff {all : List (List Suggestion)}
    (h : occurrences.mapM (basis.candidates old new occurrences) = .ok all) :
    suggestion ∈ all.flatten ↔ suggestion ∈ basis.gathered old new occurrences := by
  rw [List.mem_flatten]
  constructor
  · rintro ⟨candidates, hcandidates, hmem⟩
    obtain ⟨occurrence, hoccurrence, hstep⟩ := exists_of_mapM_eq_ok h hcandidates
    exact ⟨occurrence, hoccurrence, (mem_candidates_iff hstep).mp hmem⟩
  · rintro ⟨occurrence, hoccurrence, hmem⟩
    obtain ⟨candidates, hcandidates, hstep⟩ := exists_mem_of_mapM_eq_ok h hoccurrence
    exact ⟨candidates, hcandidates, (mem_candidates_iff hstep).mpr hmem⟩

/-- A scope counts the occurrences inside, in whatever order they come. -/
theorem scope_perm (hperm : others.Perm occurrences) :
    basis.scope old new occurrence others = basis.scope old new occurrence occurrences := by
  simp only [scope, hperm.countP_eq]

theorem candidates_perm (hperm : others.Perm occurrences) :
    basis.candidates old new others = basis.candidates old new occurrences := by
  funext occurrence
  simp only [candidates, scope_perm hperm]

theorem gathered_perm (hperm : others.Perm occurrences) :
    basis.gathered old new others = basis.gathered old new occurrences := by
  ext candidate
  simp only [gathered, Set.mem_ofPred_eq, hperm.mem_iff, scope_perm hperm]

end SuggestionBasis

/-- Suggestions are distilled from what is gathered. -/
theorem distils_suggestions (h : suggestions basis old new occurrences = .ok list) :
    Suggestion.Distils (basis.gathered old new occurrences) list := by
  obtain ⟨all, hall, hlist⟩ := bind_eq_ok_iff.mp h
  obtain rfl := Except.ok.inj hlist
  have hgathered : basis.gathered old new occurrences = {candidate | candidate ∈ all.flatten} := by
    ext candidate
    exact (SuggestionBasis.mem_flatten_iff hall).symm
  rw [hgathered]
  exact (Suggestion.distils_distinct all.flatten).of_perm (List.mergeSort_perm _ _)

/-- Whether there are suggestions does not depend on the order of the occurrences. -/
theorem exists_suggestions_of_perm (h : suggestions basis old new occurrences = .ok list)
    (hperm : others.Perm occurrences) : ∃ list', suggestions basis old new others = .ok list' := by
  obtain ⟨all, hall, -⟩ := bind_eq_ok_iff.mp h
  have hgather : ∃ all', others.mapM (basis.candidates old new others) = .ok all' := by
    rw [SuggestionBasis.candidates_perm hperm]
    cases hothers : others.mapM (basis.candidates old new occurrences) with
    | ok all' => exact ⟨all', rfl⟩
    | error fault =>
      -- An occurrence that stops the one would stop the other.
      obtain ⟨occurrence, hmem, hstop⟩ := exists_mapM_eq_error_iff.mp ⟨fault, hothers⟩
      obtain ⟨_, hstops⟩ := exists_mapM_eq_error_iff.mpr ⟨occurrence, hperm.mem_iff.mp hmem, hstop⟩
      rw [hall] at hstops
      cases hstops
  obtain ⟨all', hall'⟩ := hgather
  exact ⟨_, bind_eq_ok_iff.mpr ⟨all', hall', rfl⟩⟩

/-- Suggestions go down in confidence and then down the lines. No two of them ask for the same
edit; together they ask for the edits that the strategies gather, each on the smallest line that a
candidate for it names. The same occurrences in another order lead to the same edits on the same
lines. -/
theorem suggestions_ranked (h : suggestions basis old new occurrences = .ok list) :
    (list.Pairwise fun a b => b.strategy.confidence < a.strategy.confidence ∨
      a.strategy.confidence = b.strategy.confidence ∧ a.line ≤ b.line) ∧
    (list.map Suggestion.key).Nodup ∧
    (∀ edit, edit ∈ list.map Suggestion.key ↔
      ∃ candidate ∈ basis.gathered old new occurrences, candidate.key = edit) ∧
    (∀ suggestion ∈ list, IsLeast {line | ∃ candidate ∈ basis.gathered old new occurrences,
      candidate.key = suggestion.key ∧ candidate.line = line} suggestion.line) ∧
    ∀ others : List Occurrence, others.Perm occurrences →
      ∃ list', suggestions basis old new others = .ok list' ∧
        (list'.map fun suggestion => (suggestion.key, suggestion.line)).Perm
          (list.map fun suggestion => (suggestion.key, suggestion.line)) := by
  have hdistils := distils_suggestions h
  refine ⟨?_, hdistils.nodup, fun edit => hdistils.mem_map_key_iff,
    fun suggestion hmem => hdistils.isLeast hmem, ?_⟩
  · obtain ⟨all, -, hlist⟩ := bind_eq_ok_iff.mp h
    obtain rfl := Except.ok.inj hlist
    exact Suggestion.pairwise_mergeSort_ranksBefore _
  · intro others hperm
    obtain ⟨list', hlist'⟩ := exists_suggestions_of_perm h hperm
    have hothers := distils_suggestions hlist'
    rw [SuggestionBasis.gathered_perm hperm] at hothers
    exact ⟨list', hlist', hothers.perm hdistils⟩

/-- In the text of two methods the three occurrences of `x` lie in methods of one name, so the
suggestion to search in such a method comes up three times. It is kept for the first line, also if
the occurrences are gone through backwards. -/
theorem twoMethods_suggestions_ranked : ∃ occurrences list,
    occurrences.map (·.line) = [3, 4, 7] ∧
    suggestions twoMethods "x" "z" occurrences = .ok list ∧
    (list.map Suggestion.key).Nodup ∧
    (∃ suggestion ∈ list, suggestion.constraint = some (.ofScope .method "m") ∧
      suggestion.line = 3) ∧
    ∃ list', suggestions twoMethods "x" "z" occurrences.reverse = .ok list' ∧
      ∃ suggestion ∈ list', suggestion.constraint = some (.ofScope .method "m") ∧
        suggestion.line = 3 := by
  obtain ⟨assessment, hassess, hlines, suggestion, hmem, -, hline, hconstraint⟩ :=
    exists_assess_twoMethods .default [3, 4, 7] (by decide) (by decide +kernel)
  obtain ⟨-, _, -, occurrences, -, list, hlist, rfl⟩ := assess_eq_ok_iff.mp hassess
  have hseveral : 1 < occurrences.length := by
    rw [← List.length_map (·.line), hlines]
    decide
  rw [if_pos hseveral] at hlist
  obtain ⟨-, hnodup, -, -, hperm⟩ := suggestions_ranked hlist
  obtain ⟨list', hlist', hsame⟩ := hperm occurrences.reverse occurrences.reverse_perm
  refine ⟨occurrences, list, hlines, hlist, hnodup, ⟨suggestion, hmem, hconstraint, hline⟩, list',
    hlist', ?_⟩
  -- The same edit is there backwards, on the same line.
  have hpair := hsame.mem_iff.mpr
    (List.mem_map_of_mem (f := fun suggestion => (suggestion.key, suggestion.line)) hmem)
  obtain ⟨found, hfound, hpair⟩ := List.mem_map.mp hpair
  obtain ⟨hkey, hat⟩ := Prod.mk.inj hpair
  exact ⟨found, hfound, (congrArg (·.2.2.2) hkey).trans hconstraint, hat.trans hline⟩

end ExactEdit
