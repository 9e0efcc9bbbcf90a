import ExactEdit.Proofs.Scope.Ancestor
import ExactEdit.Proofs.Scope.Lookup
import Mathlib.Data.List.Sort

/-! # What filters select

Filters are resolved by bytes: of the scopes with the kind and name of the first filter those stay
that, filter by filter, lie in the bytes of some scope with its kind and name. Where scopes lie in
each other and no two have the same bytes, a scope that holds the bytes of another is an ancestor of
it. So the filters select the scopes of the first filter that have an ancestor for every other one,
and if there are none, the filter is named at which the candidates ran out.

## Main definitions

* `ScopeTable.Matches` — a scope has the kind and name of a filter
* `ScopeTable.Selects` — it also has an ancestor for every other filter

## Main results

* `Laminar.encloses_iff` — a scope encloses another exactly if it is an ancestor
* `ScopeTable.narrow_eq_ok_iff`, `ScopeTable.narrow_eq_error_iff` — how narrowing ends
* `resolve_exact` — what resolving the filters of a constraint comes to
-/

namespace ExactEdit

open Relation

variable {table : ScopeTable} {source : Source} {sites : List Site} {constraint : Constraint}
variable {inner filter : ScopeKind × String} {outer filters : List (ScopeKind × String)}
variable {candidates ids : List Nat} {id : Nat} {error : ScopeError}

/-! ## Filters -/

namespace Constraint

/-- The filters are the names that a constraint gives. -/
theorem mem_filters_iff {kind : ScopeKind} {name : String} :
    (kind, name) ∈ constraint.filters ↔ constraint.nameFor kind = some name := by
  have hkind : kind ∈ ScopeKind.bySpecificity := List.mem_of_getElem? kind.getElem?_bySpecificity
  simp only [filters, List.mem_filterMap, Option.map_eq_some_iff]
  constructor
  · rintro ⟨_, -, _, hname, ⟨⟩⟩
    exact hname
  · intro hname
    exact ⟨kind, hkind, name, hname, rfl⟩

theorem filters_eq_nil_iff :
    constraint.filters = [] ↔ ∀ kind, constraint.nameFor kind = none := by
  rw [List.eq_nil_iff_forall_not_mem, Prod.forall]
  simp only [mem_filters_iff]
  exact forall_congr' fun kind => Option.eq_none_iff_forall_ne_some.symm

/-- They come in the order of their kinds, the narrowest first. -/
theorem map_fst_filters_sublist (constraint : Constraint) :
    (constraint.filters.map (·.1)).Sublist ScopeKind.bySpecificity := by
  rw [filters]
  generalize ScopeKind.bySpecificity = kinds
  induction kinds with
  | nil => exact .slnil
  | cons kind rest ih =>
    cases hname : constraint.nameFor kind with
    | none => simpa [List.filterMap_cons, hname] using ih.cons kind
    | some name => simpa [List.filterMap_cons, hname] using ih

end Constraint

namespace ScopeTable

/-- Whether a scope has the kind and the name of a filter. -/
def Matches (table : ScopeTable) (filter : ScopeKind × String) (id : Nat) : Prop :=
  ∃ scope, table.get? id = some scope ∧ scope.kind = filter.1 ∧ scope.name = filter.2

/-- Whether a scope matches a filter and has, for each other one, an ancestor that matches it. -/
def Selects (table : ScopeTable) (inner : ScopeKind × String)
    (outer : List (ScopeKind × String)) (id : Nat) : Prop :=
  table.Matches inner id ∧
    ∀ filter ∈ outer, ∃ other, table.Matches filter other ∧ TransGen table.IsParent other id

theorem isEmpty_find_iff :
    (table.find filter.1 filter.2).isEmpty = true ↔ ¬ ∃ id, table.Matches filter id := by
  rw [List.isEmpty_iff, List.eq_nil_iff_forall_not_mem, not_exists]
  exact forall_congr' fun id => not_congr mem_find_iff

/-- The first filter that no scope matches. -/
theorem unmatched?_eq_some_iff : table.unmatched? filters = some filter ↔
    ∃ front back, filters = front ++ filter :: back ∧
      (∀ earlier ∈ front, ∃ id, table.Matches earlier id) ∧ ¬ ∃ id, table.Matches filter id := by
  rw [unmatched?, List.find?_eq_some_iff_append]
  simp only [Bool.not_eq_true', ← Bool.not_eq_true, isEmpty_find_iff, not_not]
  constructor
  · rintro ⟨hnone, front, back, hfilters, hfront⟩
    exact ⟨front, back, hfilters, hfront, hnone⟩
  · rintro ⟨front, back, hfilters, hfront, hnone⟩
    exact ⟨hnone, front, back, hfilters, hfront⟩

theorem unmatched?_eq_none_iff :
    table.unmatched? filters = none ↔ ∀ filter ∈ filters, ∃ id, table.Matches filter id := by
  rw [unmatched?, List.find?_eq_none]
  exact forall₂_congr fun filter _ => by rw [isEmpty_find_iff, not_not]

/-! ## Narrowing -/

/-- Whether a scope with the kind and name of a filter encloses a scope. -/
def isInside (table : ScopeTable) (filter : ScopeKind × String) (id : Nat) : Bool :=
  (table.find filter.1 filter.2).any fun outer => table.encloses outer id

/-- The candidates that are inside for every filter. -/
def kept (table : ScopeTable) (filters : List (ScopeKind × String)) (candidates : List Nat) :
    List Nat :=
  candidates.filter fun id => filters.all fun filter => table.isInside filter id

@[simp] theorem kept_nil (candidates : List Nat) : table.kept [] candidates = candidates := by
  simp [kept]

theorem kept_cons (candidates : List Nat) : table.kept (filter :: filters) candidates =
    table.kept filters (candidates.filter (table.isInside filter)) := by
  rw [kept, kept, List.filter_filter]
  refine List.filter_congr fun id _ => ?_
  rw [List.all_cons, Bool.and_comm]

theorem narrow_cons (candidates : List Nat) :
    table.narrow inner candidates (filter :: filters) =
      if (candidates.filter (table.isInside filter)).isEmpty then
        .error (.mismatch inner.1 inner.2 filter.1 filter.2)
      else table.narrow inner (candidates.filter (table.isInside filter)) filters :=
  rfl

/-- Narrowing keeps what is inside for every filter, if anything is. -/
theorem narrow_eq_ok_iff (hne : candidates ≠ []) :
    table.narrow inner candidates filters = .ok ids ↔
      ids = table.kept filters candidates ∧ ids ≠ [] := by
  induction filters generalizing candidates with
  | nil =>
    rw [kept_nil, narrow, Except.ok.injEq]
    constructor
    · rintro rfl
      exact ⟨rfl, hne⟩
    · rintro ⟨rfl, -⟩
      rfl
  | cons filter filters ih =>
    rw [narrow_cons, kept_cons]
    by_cases hempty : candidates.filter (table.isInside filter) = []
    · rw [hempty]
      simp [kept]
    · rw [if_neg (by rwa [List.isEmpty_iff])]
      exact ih hempty

/-- Narrowing fails at the first filter for which nothing stays. -/
theorem narrow_eq_error_iff (hne : candidates ≠ []) :
    table.narrow inner candidates filters = .error error ↔
      ∃ front filter back, filters = front ++ filter :: back ∧
        error = .mismatch inner.1 inner.2 filter.1 filter.2 ∧
        table.kept front candidates ≠ [] ∧ table.kept (front ++ [filter]) candidates = [] := by
  induction filters generalizing candidates with
  | nil => simp [narrow]
  | cons first filters ih =>
    rw [narrow_cons]
    by_cases hempty : candidates.filter (table.isInside first) = []
    · rw [if_pos (by rwa [List.isEmpty_iff])]
      constructor
      · intro herror
        refine ⟨[], first, filters, rfl, (Except.error.inj herror).symm, by rwa [kept_nil], ?_⟩
        rw [List.nil_append, kept_cons, hempty]
        rfl
      · rintro ⟨front, filter, back, hfilters, rfl, hkept, -⟩
        cases front with
        | nil =>
          obtain ⟨rfl, -⟩ := List.cons.inj hfilters
          rfl
        | cons earlier front =>
          -- Nothing is left behind the first filter already.
          obtain ⟨rfl, -⟩ := List.cons.inj hfilters
          rw [kept_cons, hempty] at hkept
          exact absurd rfl hkept
    · rw [if_neg (by rwa [List.isEmpty_iff]), ih hempty]
      constructor
      · rintro ⟨front, filter, back, rfl, herror, hkept, hnone⟩
        refine ⟨first :: front, filter, back, rfl, herror, ?_, ?_⟩
        · rwa [kept_cons]
        · rwa [List.cons_append, kept_cons]
      · rintro ⟨front, filter, back, hfilters, herror, hkept, hnone⟩
        cases front with
        | nil =>
          obtain ⟨rfl, -⟩ := List.cons.inj hfilters
          rw [List.nil_append, kept_cons, kept_nil] at hnone
          exact absurd hnone hempty
        | cons earlier front =>
          obtain ⟨rfl, rfl⟩ := List.cons.inj hfilters
          rw [kept_cons] at hkept
          rw [List.cons_append, kept_cons] at hnone
          exact ⟨front, filter, back, rfl, herror, hkept, hnone⟩

theorem encloses_eq_true_iff {inner outer : Nat} : table.encloses outer inner = true ↔
    outer ≠ inner ∧ ∃ scope around, table.get? inner = some scope ∧
      table.get? outer = some around ∧ around.containsBytes scope.range = true := by
  rw [encloses]
  cases table.get? outer with
  | none => simp
  | some around =>
    cases table.get? inner with
    | none => simp
    | some scope => simp

/-! ## Resolving -/

theorem resolve_eq_ok_none_iff : table.resolve constraint = .ok none ↔ constraint.filters = [] :=
  ⟨fun hnone => by_contra fun hfilters => resolve_ne_none_of_filters hfilters hnone,
    resolve_of_filters_eq_nil⟩

theorem resolve_of_matched (hfilters : constraint.filters = inner :: outer)
    (hmatched : ∀ filter ∈ inner :: outer, ∃ id, table.Matches filter id) :
    table.resolve constraint =
      (table.narrow inner (table.find inner.1 inner.2) outer).map some := by
  rw [resolve, hfilters]
  simp only [unmatched?_eq_none_iff.mpr hmatched]

theorem find_ne_nil (h : ∃ id, table.Matches filter id) : table.find filter.1 filter.2 ≠ [] := by
  intro hnil
  exact isEmpty_find_iff.mp (List.isEmpty_iff.mpr hnil) h

/-- It is said of a filter that nothing has its kind and name exactly if it is the first such. -/
theorem resolve_eq_notFound_iff :
    table.resolve constraint = .error (.notFound filter.1 filter.2) ↔
      table.unmatched? constraint.filters = some filter := by
  cases hfilters : constraint.filters with
  | nil =>
    rw [resolve_of_filters_eq_nil hfilters]
    constructor
    · intro hresult
      cases hresult
    · intro hfirst
      cases hfirst
  | cons inner outer =>
    cases hunmatched : table.unmatched? (inner :: outer) with
    | some first =>
      rw [resolve, hfilters]
      simp only [hunmatched, Except.error.injEq, ScopeError.notFound.injEq, Option.some.injEq,
        Prod.ext_iff]
    | none =>
      have hmatched := unmatched?_eq_none_iff.mp hunmatched
      have hne := find_ne_nil (hmatched inner List.mem_cons_self)
      rw [resolve_of_matched hfilters hmatched, Result.map_eq_error_iff, narrow_eq_error_iff hne]
      constructor
      · -- Narrowing has another complaint.
        rintro ⟨_, _, _, -, hmismatch, -⟩
        cases hmismatch
      · intro hfirst
        cases hfirst

/-- Where no two scopes have the same bytes, the bytes tell the scope. -/
theorem id_eq_of_range_eq {first second : Nat} {scope scope' : Scope}
    (hdistinct : table.scopes.Pairwise (·.range ≠ ·.range))
    (hfirst : table.get? first = some scope) (hsecond : table.get? second = some scope')
    (hrange : scope.range = scope'.range) : first = second := by
  obtain ⟨hlt, rfl⟩ := List.getElem?_eq_some_iff.mp hfirst
  obtain ⟨hlt', rfl⟩ := List.getElem?_eq_some_iff.mp hsecond
  rw [List.pairwise_iff_getElem] at hdistinct
  rcases Nat.lt_trichotomy first second with hbefore | heq | hbehind
  · exact absurd hrange (hdistinct first second hlt hlt' hbefore)
  · exact heq
  · exact absurd hrange.symm (hdistinct second first hlt' hlt hbehind)

theorem kept_find_pairwise (table : ScopeTable) (inner : ScopeKind × String)
    (outer : List (ScopeKind × String)) :
    (table.kept outer (table.find inner.1 inner.2)).Pairwise (· < ·) :=
  (table.pairwise_idsWhere _).filter _

end ScopeTable

/-! ## Selection -/

namespace Laminar

variable (h : Laminar table source sites)
  (hfull : ∀ scope ∈ table.scopes, scope.range.start < scope.range.stop)
  (hdistinct : table.scopes.Pairwise (·.range ≠ ·.range))
include h hfull hdistinct

/-- A scope encloses another exactly if it is an ancestor. -/
theorem encloses_iff {inner outer : Nat} :
    table.encloses outer inner = true ↔ TransGen table.IsParent outer inner := by
  rw [ScopeTable.encloses_eq_true_iff]
  constructor
  · rintro ⟨hne, scope, around, hscope, haround, hcontains⟩
    obtain ⟨site, hsite, rfl⟩ := h.exists_site hscope
    obtain ⟨other, hother, rfl⟩ := h.exists_site haround
    have hmem : site ∈ sites := List.mem_of_getElem? hsite
    have hotherMem : other ∈ sites := List.mem_of_getElem? hother
    have hbytes : other.label.range.contains site.label.range = true := hcontains
    have hsiteFull : site.label.range.start < site.label.range.stop :=
      hfull _ (List.mem_of_getElem? hscope)
    rw [h.transGen_isParent_iff hother hsite]
    refine ⟨?_, fun hpath => hne (index_unique h.sorted hother hsite hpath)⟩
    rcases h.comparable other hotherMem site hmem site.label.range.start
      (ByteRange.holds_start hbytes hsiteFull)
      (ByteRange.holds_start (ByteRange.contains_refl _) hsiteFull) with hbegins | hbegins
    · exact hbegins
    · -- If it were inside, both would have the same bytes.
      have hrange := ByteRange.contains_antisymm hbytes
        (h.contains site hmem other hotherMem hbegins)
      exact absurd (ScopeTable.id_eq_of_range_eq hdistinct haround hscope hrange) hne
  · intro hancestor
    -- Whatever has an ancestor has a parent, and so it is a scope.
    obtain ⟨scope, hscope⟩ : ∃ scope, table.get? inner = some scope := by
      cases hancestor with
      | single hparent => exact ⟨_, hparent.choose_spec.1⟩
      | tail _ hparent => exact ⟨_, hparent.choose_spec.1⟩
    obtain ⟨site, hsite, -⟩ := h.exists_site hscope
    obtain ⟨other, hother, habove⟩ := h.isAbove_of_ancestor hsite hancestor
    refine ⟨?_, _, _, h.get?_of_site hsite, h.get?_of_site hother, ?_⟩
    · rintro rfl
      obtain rfl := Option.some.inj (hsite.symm.trans hother)
      exact habove.2 rfl
    · exact h.contains other (List.mem_of_getElem? hother) site (List.mem_of_getElem? hsite)
        habove.1

theorem isInside_iff : table.isInside filter id = true ↔
    ∃ other, table.Matches filter other ∧ TransGen table.IsParent other id := by
  rw [ScopeTable.isInside, List.any_eq_true]
  refine exists_congr fun other => ?_
  rw [ScopeTable.mem_find_iff, h.encloses_iff hfull hdistinct]
  rfl

/-- Of the scopes of the first filter those are kept that the filters select. -/
theorem mem_kept_iff : id ∈ table.kept outer (table.find inner.1 inner.2) ↔
    table.Selects inner outer id := by
  rw [ScopeTable.kept, List.mem_filter, ScopeTable.mem_find_iff, List.all_eq_true]
  simp only [h.isInside_iff hfull hdistinct]
  rfl

theorem kept_ne_nil_iff : table.kept outer (table.find inner.1 inner.2) ≠ [] ↔
    ∃ id, table.Selects inner outer id := by
  rw [ne_eq, List.eq_nil_iff_forall_not_mem, not_forall_not]
  exact exists_congr fun id => h.mem_kept_iff hfull hdistinct

variable (hmatched : ∀ filter ∈ inner :: outer, ∃ id, table.Matches filter id)
  (hfilters : constraint.filters = inner :: outer)
include hmatched hfilters

/-- The filters name the first one at which nothing is selected any more. -/
theorem resolve_eq_error_iff : table.resolve constraint = .error error ↔
    ∃ front filter back, outer = front ++ filter :: back ∧
      error = .mismatch inner.1 inner.2 filter.1 filter.2 ∧
      (∃ id, table.Selects inner front id) ∧
      ¬ ∃ id, table.Selects inner (front ++ [filter]) id := by
  have hne := ScopeTable.find_ne_nil (hmatched inner List.mem_cons_self)
  rw [ScopeTable.resolve_of_matched hfilters hmatched, Result.map_eq_error_iff,
    ScopeTable.narrow_eq_error_iff hne]
  simp only [← h.kept_ne_nil_iff hfull hdistinct, not_not]

/-- They select all scopes that have an ancestor for each, in order. -/
theorem resolve_eq_ok_some_iff : table.resolve constraint = .ok (some ids) ↔
    ids ≠ [] ∧ ids.Pairwise (· < ·) ∧ ∀ id, id ∈ ids ↔ table.Selects inner outer id := by
  have hne := ScopeTable.find_ne_nil (hmatched inner List.mem_cons_self)
  have hsome : table.resolve constraint = .ok (some ids) ↔
      table.narrow inner (table.find inner.1 inner.2) outer = .ok ids := by
    rw [ScopeTable.resolve_of_matched hfilters hmatched, Result.map_eq_ok_iff]
    simp
  rw [hsome, ScopeTable.narrow_eq_ok_iff hne]
  constructor
  · rintro ⟨rfl, hkept⟩
    exact ⟨hkept, table.kept_find_pairwise inner outer, fun id => h.mem_kept_iff hfull hdistinct⟩
  · -- An ordered list is given by its members.
    rintro ⟨hids, hsorted, hmem⟩
    refine ⟨hsorted.eq_of_mem_iff (table.kept_find_pairwise inner outer) ?_, hids⟩
    intro id
    rw [hmem, h.mem_kept_iff hfull hdistinct]

/-- They fail exactly if nothing is selected. -/
theorem exists_resolve_error_iff : (∃ error, table.resolve constraint = .error error) ↔
    ¬ ∃ id, table.Selects inner outer id := by
  have hok : ∀ ids, table.resolve constraint = .ok (some ids) ↔
      ids ≠ [] ∧ ids.Pairwise (· < ·) ∧ ∀ id, id ∈ ids ↔ table.Selects inner outer id :=
    fun ids => h.resolve_eq_ok_some_iff hfull hdistinct hmatched hfilters
  constructor
  · rintro ⟨error, herror⟩ ⟨id, hid⟩
    -- Something is selected, so there is a result and no error.
    have hkept : table.resolve constraint =
        .ok (some (table.kept outer (table.find inner.1 inner.2))) :=
      (hok _).mpr ⟨(h.kept_ne_nil_iff hfull hdistinct).mpr ⟨id, hid⟩,
        table.kept_find_pairwise inner outer, fun id => h.mem_kept_iff hfull hdistinct⟩
    rw [herror] at hkept
    cases hkept
  · intro hnone
    cases hresult : table.resolve constraint with
    | error error => exact ⟨error, rfl⟩
    | ok selected =>
      cases selected with
      | none =>
        rw [ScopeTable.resolve_eq_ok_none_iff, hfilters] at hresult
        cases hresult
      | some ids =>
        obtain ⟨hids, -, hmem⟩ := (hok ids).mp hresult
        obtain ⟨id, hid⟩ := List.exists_mem_of_ne_nil ids hids
        exact absurd ⟨id, (hmem id).mp hid⟩ hnone

end Laminar

/-- The filters of a constraint are the names that it gives, by kind. In the table of a tree with
nested nodes and separate siblings, whose scopes have bytes and no two of them the same, they are
resolved exactly. Without filters there is no selection. A filter that no scope matches is named,
the first one if there are several. Otherwise the scopes of the first filter are selected that have
for each other filter an ancestor that matches it; if there is none, the filter is named at which
the candidates run out. -/
theorem resolve_exact (language : Language) (text : String) (tree : ParseTree) (table : ScopeTable)
    (constraint : Constraint) (htable : table = tree.scopeTable language text)
    (hnested : tree.Nested) (hapart : tree.SiblingsApart)
    (hfull : ∀ scope ∈ table.scopes, scope.range.start < scope.range.stop)
    (hdistinct : table.scopes.Pairwise (·.range ≠ ·.range)) :
    (constraint.filters.map (·.1)).Sublist
      [.method, .function, .interface, .classBody, .nameSpace] ∧
    (∀ kind name, (kind, name) ∈ constraint.filters ↔ constraint.nameFor kind = some name) ∧
    (table.resolve constraint = .ok none ↔ ∀ kind, constraint.nameFor kind = none) ∧
    (∀ filter, table.resolve constraint = .error (.notFound filter.1 filter.2) ↔
      ∃ front back, constraint.filters = front ++ filter :: back ∧
        (∀ earlier ∈ front, ∃ id, table.Matches earlier id) ∧ ¬ ∃ id, table.Matches filter id) ∧
    ∀ inner outer, constraint.filters = inner :: outer →
      (∀ filter ∈ inner :: outer, ∃ id, table.Matches filter id) →
      ((∃ error, table.resolve constraint = .error error) ↔
        ¬ ∃ id, table.Selects inner outer id) ∧
      (∀ error, table.resolve constraint = .error error ↔
        ∃ front filter back, outer = front ++ filter :: back ∧
          error = .mismatch inner.1 inner.2 filter.1 filter.2 ∧
          (∃ id, table.Selects inner front id) ∧
          ¬ ∃ id, table.Selects inner (front ++ [filter]) id) ∧
      ∀ ids, table.resolve constraint = .ok (some ids) ↔
        ids ≠ [] ∧ ids.Pairwise (· < ·) ∧ ∀ id, id ∈ ids ↔ table.Selects inner outer id := by
  subst htable
  have h := laminar_scopeTable language text hnested hapart
  refine ⟨constraint.map_fst_filters_sublist, fun kind name => Constraint.mem_filters_iff, ?_,
    fun filter => ?_, fun inner outer hfilters hmatched => ⟨?_, fun error => ?_, fun ids => ?_⟩⟩
  · rw [ScopeTable.resolve_eq_ok_none_iff, Constraint.filters_eq_nil_iff]
  · rw [ScopeTable.resolve_eq_notFound_iff, ScopeTable.unmatched?_eq_some_iff]
  · exact h.exists_resolve_error_iff hfull hdistinct hmatched hfilters
  · exact h.resolve_eq_error_iff hfull hdistinct hmatched hfilters
  · exact h.resolve_eq_ok_some_iff hfull hdistinct hmatched hfilters

/-- Of the two methods `f` the one in the second class is selected. -/
theorem twinTree_resolve : twinTree.Nested ∧ twinTree.SiblingsApart ∧
    (∀ scope ∈ (twinTree.scopeTable .python twinText).scopes,
      scope.range.start < scope.range.stop) ∧
    (twinTree.scopeTable .python twinText).scopes.Pairwise (·.range ≠ ·.range) ∧
    (twinTree.scopeTable .python twinText).resolve
      ⟨none, some "B", some "f", none, none, true, false⟩ = .ok (some [3]) ∧
    (twinTree.scopeTable .python twinText).Selects (.method, "f") [(.classBody, "B")] 3 := by
  have hfull : ∀ scope ∈ (twinTree.scopeTable .python twinText).scopes,
      scope.range.start < scope.range.stop := by decide +kernel
  have hdistinct : (twinTree.scopeTable .python twinText).scopes.Pairwise
      (·.range ≠ ·.range) := by decide +kernel
  have hresolve : (twinTree.scopeTable .python twinText).resolve
      ⟨none, some "B", some "f", none, none, true, false⟩ = .ok (some [3]) := by decide +kernel
  have hmethod : 3 ∈ (twinTree.scopeTable .python twinText).find .method "f" := by decide +kernel
  have hclass : 2 ∈ (twinTree.scopeTable .python twinText).find .classBody "B" := by decide +kernel
  obtain ⟨-, -, -, -, hselection⟩ := resolve_exact .python twinText twinTree _
    ⟨none, some "B", some "f", none, none, true, false⟩ rfl twinTree_nested twinTree_siblingsApart
    hfull hdistinct
  obtain ⟨-, -, hok⟩ := hselection (.method, "f") [(.classBody, "B")] rfl <| by
    rw [List.forall_mem_cons, List.forall_mem_singleton]
    exact ⟨⟨3, ScopeTable.mem_find_iff.mp hmethod⟩, 2, ScopeTable.mem_find_iff.mp hclass⟩
  obtain ⟨-, -, hmem⟩ := (hok [3]).mp hresolve
  exact ⟨twinTree_nested, twinTree_siblingsApart, hfull, hdistinct, hresolve,
    (hmem 3).mp (List.mem_singleton.mpr rfl)⟩

example : (twinTree.scopeTable .python twinText).resolve
    ⟨none, some "A", some "g", none, none, true, false⟩ = .error (.notFound .method "g") := by
  decide +kernel

end ExactEdit
