import ExactEdit.Proofs.Scope.Ancestor
import ExactEdit.Proofs.Syntax.Subtree

/-! # What a function is inside of

Whether a function is a method is told by the parse tree: by the nearest node above it that is a
definition, whatever stands in between. A scope table has no such nodes, but it has scopes with
parents. Here the two are put side by side. As long as every definition has a name and so a scope,
the nearest definition above a node is the first scope on the way up from it that is no namespace.

## Main definitions

* `ScopeTable.Meets` — the first scope on the way up that is no namespace
* `ScopeTable.InType`, `ScopeTable.InClass` — a scope is inside a class or an interface
* `SortsFunctions` — a rule that tells methods by the nearest definition above
* `ParseTree.HasTitles` — the definitions of a tree have names

## Main results

* `nearestKind?_eq_some_iff` — the nearest definition above a node has the scope that is met
* `inType_iff` — a scope is inside a class or an interface if the nearest definition is of that kind
-/

namespace ExactEdit

open ParseTree Declaration

variable {table : ScopeTable} {source : Source} {sites : List Site} {site : Site} {scope : Scope}
variable {rule : List Node → ParseTree → Option Declaration} {tree found : ParseTree}
variable {above : List Node} {label : Node} {path : List Nat} {step id owner : Nat}
variable {chars : List Char} {declared : Declaration} {titles : List (String × FieldName)}
variable {owners types : List String} {kind : String} {field : FieldName}

/-! ## The way up -/

namespace ScopeTable

/-- The scope that is met first on the way up from a number, namespaces being passed. -/
inductive Meets (table : ScopeTable) : Option Nat → Nat → Prop
  | here {id : Nat} {scope : Scope} (found : table.get? id = some scope)
      (kind : scope.kind ≠ .nameSpace) : Meets table (some id) id
  | pass {id owner : Nat} {scope : Scope} (found : table.get? id = some scope)
      (kind : scope.kind = .nameSpace) (up : Meets table scope.parent owner) :
      Meets table (some id) owner

/-- Whether the first scope around a scope that is no namespace is a class or an interface. -/
def InType (table : ScopeTable) (scope : Scope) : Prop :=
  ∃ owner outer, table.Meets scope.parent owner ∧ table.get? owner = some outer ∧
    (outer.kind = .classBody ∨ outer.kind = .interface)

/-- Whether the parent of a scope is a class. -/
def InClass (table : ScopeTable) (scope : Scope) : Prop :=
  ∃ parent outer, scope.parent = some parent ∧ table.get? parent = some outer ∧
    outer.kind = .classBody

theorem not_meets_none : ¬ table.Meets none owner := nofun

theorem meets_iff_of_ne (hscope : table.get? id = some scope) (hkind : scope.kind ≠ .nameSpace) :
    table.Meets (some id) owner ↔ owner = id := by
  constructor
  · intro h
    cases h with
    | here _ _ => rfl
    | pass hfound hnamespace _ =>
      obtain rfl := Option.some.inj (hscope.symm.trans hfound)
      exact absurd hnamespace hkind
  · rintro rfl
    exact .here hscope hkind

theorem meets_iff_of_nameSpace (hscope : table.get? id = some scope)
    (hkind : scope.kind = .nameSpace) :
    table.Meets (some id) owner ↔ table.Meets scope.parent owner := by
  constructor
  · intro h
    cases h with
    | here hfound hother =>
      obtain rfl := Option.some.inj (hscope.symm.trans hfound)
      exact absurd hkind hother
    | pass hfound _ hup =>
      obtain rfl := Option.some.inj (hscope.symm.trans hfound)
      exact hup
  · exact .pass hscope hkind

/-- Without namespaces the parent is met, and without interfaces it can only be a class. -/
theorem inType_iff_inClass
    (htable : ∀ id scope, table.get? id = some scope →
      scope.kind ≠ .nameSpace ∧ scope.kind ≠ .interface) :
    table.InType scope ↔ table.InClass scope := by
  constructor
  · rintro ⟨owner, outer, hmeets, houter, hkind⟩
    have hclass : outer.kind = .classBody := hkind.resolve_right (htable owner outer houter).2
    cases hparent : scope.parent with
    | none =>
      rw [hparent] at hmeets
      exact absurd hmeets not_meets_none
    | some parent =>
      rw [hparent] at hmeets
      refine ⟨parent, outer, hparent, ?_, hclass⟩
      cases hmeets with
      | here hfound _ => exact houter
      | pass hfound hnamespace _ => exact absurd hnamespace (htable parent _ hfound).1
  · rintro ⟨parent, outer, hparent, houter, hkind⟩
    refine ⟨parent, outer, ?_, houter, .inl hkind⟩
    rw [hparent]
    exact .here houter (htable parent outer houter).1

end ScopeTable

/-! ## One step further down -/

/-- A site is the nearest one to its children. -/
theorem nearest?_concat_of_site (hsorted : sites.Pairwise (·.path < ·.path))
    (hsite : sites[id]? = some site) : nearest? sites (site.path ++ [step]) = some id := by
  refine (nearest?_eq_some_iff hsorted).mpr ⟨site, hsite, ?_, ?_⟩
  · exact isAbove_concat_iff.mpr List.prefix_rfl
  · intro other _ habove
    exact isAbove_concat_iff.mp habove

/-- Another node has the nearest site in common with its children. -/
theorem nearest?_concat_of_forall_ne (hpath : ∀ site ∈ sites, site.path ≠ path) :
    nearest? sites (path ++ [step]) = nearest? sites path := by
  induction sites with
  | nil => rfl
  | cons site rest ih =>
    rw [List.forall_mem_cons] at hpath
    have habove : IsAbove site.path (path ++ [step]) ↔ IsAbove site.path path :=
      isAbove_concat_iff.trans ⟨fun hbegins => ⟨hbegins, hpath.1⟩, And.left⟩
    simp only [nearest?, ih hpath.2, habove]

theorem nearestKind?_cons :
    nearestKind? owners (label :: above) =
      if label.kind ∈ owners then some label.kind else nearestKind? owners above := by
  rw [nearestKind?, List.find?_cons, List.contains_eq_mem]
  by_cases hkind : label.kind ∈ owners
  · simp [hkind]
  · simp [hkind, nearestKind?]

/-! ## Rules that sort functions -/

/-- Whether the nearest node above of a kind in `titles` is one of `types`. -/
def NearestIsType (titles : List (String × FieldName)) (types : List String) (above : List Node) :
    Prop :=
  ∃ type ∈ types, nearestKind? (titles.map (·.1)) above = some type

/-- A rule that declares every node of the kinds in `titles` that has a text under its field, and
otherwise only namespaces. Of these kinds `kind` is that of functions, and `types` are those of
classes and interfaces. A function is called a method if the nearest node above it of all these
kinds is one of `types`. -/
structure SortsFunctions (chars : List Char) (rule : List Node → ParseTree → Option Declaration)
    (titles : List (String × FieldName)) (types : List String) (kind : String) : Prop where
  kind_mem : kind ∈ titles.map (·.1)
  types_mem : ∀ type ∈ types, type ∈ titles.map (·.1)
  kind_notMem : kind ∉ types
  declares : ∀ {above found}, ∀ title ∈ titles, found.label.kind = title.1 →
    fieldText? chars found title.2 ≠ none → ∃ declared, rule above found = some declared
  sorts : ∀ {above found declared}, rule above found = some declared →
    (found.label.kind = kind ∧ (declared.kind = .method ∧ NearestIsType titles types above ∨
      declared.kind = .function ∧ ¬ NearestIsType titles types above)) ∨
    (found.label.kind ∈ types ∧ (declared.kind = .classBody ∨ declared.kind = .interface)) ∨
    (found.label.kind ∉ titles.map (·.1) ∧ declared.kind = .nameSpace)

namespace SortsFunctions

variable (h : SortsFunctions chars rule titles types kind) (hrule : rule above found = some declared)
include h hrule

theorem nameSpace_iff : declared.kind = .nameSpace ↔ found.label.kind ∉ titles.map (·.1) := by
  have hkind := h.kind_mem
  have htypes := h.types_mem
  rcases h.sorts hrule with ⟨hfound, hdeclared⟩ | ⟨hfound, hdeclared⟩ | ⟨hfound, hdeclared⟩
  · grind
  · grind
  · grind

theorem type_iff :
    declared.kind = .classBody ∨ declared.kind = .interface ↔ found.label.kind ∈ types := by
  have hkind := h.kind_notMem
  have htypes := h.types_mem
  rcases h.sorts hrule with ⟨hfound, hdeclared⟩ | ⟨hfound, hdeclared⟩ | ⟨hfound, hdeclared⟩
  · grind
  · grind
  · grind

theorem method_iff :
    declared.kind = .method ↔ found.label.kind = kind ∧ NearestIsType titles types above := by
  have hkind := h.kind_notMem
  have hmem := h.kind_mem
  rcases h.sorts hrule with ⟨hfound, hdeclared⟩ | ⟨hfound, hdeclared⟩ | ⟨hfound, hdeclared⟩
  · grind
  · grind
  · grind

theorem function_iff :
    declared.kind = .function ↔ found.label.kind = kind ∧ ¬ NearestIsType titles types above := by
  have hkind := h.kind_notMem
  have hmem := h.kind_mem
  rcases h.sorts hrule with ⟨hfound, hdeclared⟩ | ⟨hfound, hdeclared⟩ | ⟨hfound, hdeclared⟩
  · grind
  · grind
  · grind

end SortsFunctions

/-- Whether every node of a tree that has a kind in `titles` is named, and has a text under the
field for its kind. -/
def ParseTree.HasTitles (chars : List Char) (titles : List (String × FieldName))
    (tree : ParseTree) : Prop :=
  ∀ found, tree.Holds found → ∀ title ∈ titles, found.label.kind = title.1 →
    found.label.isNamed = true ∧ fieldText? chars found title.2 ≠ none

instance : Decidable (tree.HasTitles chars titles) :=
  inferInstanceAs (Decidable (∀ found, tree.Holds found → _))

/-- Every node of a kind in `titles` is declared. -/
theorem SortsFunctions.exists_declared (h : SortsFunctions chars rule titles types kind)
    (htitles : tree.HasTitles chars titles) (hfollow : tree.follow? path [] = some (above, found))
    {title : String × FieldName} (htitle : title ∈ titles) (hkind : found.label.kind = title.1) :
    ∃ declared, (⟨path, found.label, declared⟩ : Site) ∈ tree.sites rule [] := by
  have hholds : tree.Holds found := (holds_iff_exists_follow? []).mpr ⟨path, above, hfollow⟩
  obtain ⟨hnamed, htext⟩ := htitles found hholds title htitle hkind
  obtain ⟨declared, hdeclared⟩ : ∃ declared, rule above found = some declared :=
    h.declares title htitle hkind htext
  exact ⟨declared, (mem_sites_iff tree [] _).mpr ⟨above, found, hfollow, rfl, hnamed, hdeclared⟩⟩

/-! ## The table of a tree -/

section Table

variable (htable : table.scopes = (tree.sites rule []).map fun site =>
  site.scope source (nearest? (tree.sites rule []) site.path))
include htable

/-- Under the same number as a site a table has its scope, inside the nearest site above. -/
theorem get?_of_scopes_eq (hsite : (tree.sites rule [])[id]? = some site) :
    table.get? id = some (site.scope source (nearest? (tree.sites rule []) site.path)) := by
  rw [ScopeTable.get?, htable, List.getElem?_map, hsite]
  rfl

theorem exists_site_of_scopes_eq (hscope : table.get? id = some scope) :
    ∃ site, (tree.sites rule [])[id]? = some site ∧
      scope = site.scope source (nearest? (tree.sites rule []) site.path) := by
  rw [ScopeTable.get?, htable, List.getElem?_map, Option.map_eq_some_iff] at hscope
  obtain ⟨site, hsite, rfl⟩ := hscope
  exact ⟨site, hsite, rfl⟩

/-- The nearest node above of the kinds that decide is the one whose scope is met first on the way
up. The induction is on the path: one step further down, the node above is either passed by both, or
met by both. -/
theorem nearestKind?_eq_some_iff (hsorts : SortsFunctions chars rule titles types kind)
    (htitles : tree.HasTitles chars titles) (hfollow : tree.follow? path [] = some (above, found)) :
    nearestKind? (titles.map (·.1)) above = some type ↔ ∃ owner site,
      table.Meets (nearest? (tree.sites rule []) path) owner ∧
      (tree.sites rule [])[owner]? = some site ∧ site.label.kind = type := by
  have hsorted : (tree.sites rule []).Pairwise (·.path < ·.path) := pairwise_sites tree []
  induction path using List.reverseRecOn generalizing above found with
  | nil =>
    obtain ⟨rfl, -⟩ := Prod.mk.inj (Option.some.inj hfollow)
    have hnone : nearest? (tree.sites rule []) [] = none :=
      nearest?_eq_none_iff.mpr fun site _ => not_isAbove_nil
    simp [nearestKind?, hnone, ScopeTable.not_meets_none]
  | append_singleton path step ih =>
    obtain ⟨aboveParent, parent, hparent, -, rfl⟩ := exists_of_follow?_concat hfollow
    rw [nearestKind?_cons]
    by_cases hsite : ∃ site ∈ tree.sites rule [], site.path = path
    · obtain ⟨site, hmem, rfl⟩ := hsite
      obtain ⟨id, hid⟩ := List.getElem?_of_mem hmem
      have hscope := get?_of_scopes_eq htable hid
      obtain ⟨aboveSite, found', hfollow', hlabel, -, hrule⟩ := (mem_sites_iff tree [] site).mp hmem
      obtain ⟨rfl, rfl⟩ := Prod.mk.inj (Option.some.inj (hparent.symm.trans hfollow'))
      have hnamespace : site.declared.kind = .nameSpace ↔ parent.label.kind ∉ titles.map (·.1) :=
        hsorts.nameSpace_iff hrule
      rw [nearest?_concat_of_site hsorted hid]
      by_cases hkind : parent.label.kind ∈ titles.map (·.1)
      · have hother : site.declared.kind ≠ .nameSpace := fun h => hnamespace.mp h hkind
        rw [if_pos hkind, Option.some_inj]
        simp only [ScopeTable.meets_iff_of_ne hscope hother]
        constructor
        · intro htype
          exact ⟨id, site, rfl, hid, by rw [← hlabel, htype]⟩
        · rintro ⟨_, other, rfl, hother, rfl⟩
          obtain rfl := Option.some.inj (hid.symm.trans hother)
          rw [hlabel]
      · rw [if_neg hkind]
        refine (ih hparent).trans ?_
        simp only [ScopeTable.meets_iff_of_nameSpace hscope (hnamespace.mpr hkind)]
        rfl
    · -- A node that decides would be a site.
      have hkind : parent.label.kind ∉ titles.map (·.1) := by
        intro hkind
        obtain ⟨title, htitle, heq⟩ := List.mem_map.mp hkind
        obtain ⟨declared, hmem⟩ := hsorts.exists_declared htitles hparent htitle heq.symm
        exact hsite ⟨_, hmem, rfl⟩
      rw [if_neg hkind, nearest?_concat_of_forall_ne fun site hmem hpath => hsite ⟨site, hmem, hpath⟩]
      exact ih hparent

/-- A scope is inside a class or an interface if the nearest node above that decides is of such a
kind. -/
theorem inType_iff (hsorts : SortsFunctions chars rule titles types kind)
    (htitles : tree.HasTitles chars titles) (hfollow : tree.follow? path [] = some (above, found))
    (hparent : scope.parent = nearest? (tree.sites rule []) path) :
    table.InType scope ↔ NearestIsType titles types above := by
  simp only [ScopeTable.InType, NearestIsType, hparent,
    nearestKind?_eq_some_iff htable hsorts htitles hfollow]
  constructor
  · rintro ⟨owner, outer, hmeets, houter, hkind⟩
    obtain ⟨site, hsite, rfl⟩ := exists_site_of_scopes_eq htable houter
    obtain ⟨aboveSite, found', -, hlabel, -, hrule⟩ :=
      (mem_sites_iff tree [] site).mp (List.mem_of_getElem? hsite)
    refine ⟨site.label.kind, ?_, owner, site, hmeets, hsite, rfl⟩
    rw [← hlabel]
    exact (hsorts.type_iff hrule).mp hkind
  · rintro ⟨type, htype, owner, site, hmeets, hsite, rfl⟩
    obtain ⟨aboveSite, found', -, hlabel, -, hrule⟩ :=
      (mem_sites_iff tree [] site).mp (List.mem_of_getElem? hsite)
    refine ⟨owner, _, hmeets, get?_of_scopes_eq htable hsite, ?_⟩
    rw [← hlabel] at htype
    exact (hsorts.type_iff hrule).mpr htype

end Table

end ExactEdit
