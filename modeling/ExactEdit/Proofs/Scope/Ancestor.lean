import ExactEdit.Proofs.Scope.Nesting
import ExactEdit.Proofs.Text.Together
import Mathlib.Logic.Relation

/-! # Ancestors of a scope

The links from scopes to their parents lead up to all scopes around a scope. In a tree whose nodes
lie inside each other and whose siblings have no byte in common, the bytes say the same: two scopes
with a common byte lie in the order of their paths, so that one of them is an ancestor of the other.

## Main definitions

* `ScopeTable.IsParent` — the link from a scope to its parent
* `ParseTree.SiblingsApart` — no byte is in two children of a node
* `Laminar` — a table with the sites that it stands for, lying in each other
* `ParseTree.scopeTable` — the scope table of a text

## Main results

* `laminar_scopeTable` — the table of a tree with nested nodes and separate siblings is laminar
* `Laminar.transGen_isParent_iff` — ancestors are the sites above
* `Laminar.reflTransGen_isParent_iff` — a scope and its ancestors are those at the prefixes of its
  path
-/

namespace ExactEdit

open ParseTree Relation

variable {table : ScopeTable} {source : Source} {sites : List Site} {site other : Site}
variable {scope : Scope} {range outer inner : ByteRange} {id byte : Nat}

/-- Whether a scope is the parent of another. -/
def ScopeTable.IsParent (table : ScopeTable) (parent id : Nat) : Prop :=
  ∃ scope, table.get? id = some scope ∧ scope.parent = some parent

/-! ## Separate siblings -/

/-- Whether a byte is one of a range. -/
def ByteRange.Holds (range : ByteRange) (byte : Nat) : Prop :=
  range.start ≤ byte ∧ byte < range.stop

theorem ByteRange.Holds.of_contains (h : outer.contains inner = true) (hbyte : inner.Holds byte) :
    outer.Holds byte := by
  rw [contains_iff] at h
  exact ⟨Nat.le_trans h.1 hbyte.1, Nat.lt_of_lt_of_le hbyte.2 h.2⟩

/-- Whatever holds a range with bytes holds its first byte. -/
theorem ByteRange.holds_start (h : outer.contains range = true) (hfull : range.start < range.stop) :
    outer.Holds range.start :=
  .of_contains h ⟨Nat.le_refl _, hfull⟩

namespace ParseTree

variable {tree found found' : ParseTree} {above above' aboveFound aboveFound' : List Node}
variable {path path' : List Nat}

/-- No byte is in two children of a node, at any node of a tree. -/
inductive SiblingsApart : ParseTree → Prop
  | node (label : Node) (children : List ParseTree)
      (apart : children.Pairwise fun first second =>
        ∀ byte, first.label.range.Holds byte → ¬ second.label.range.Holds byte)
      (below : ∀ child ∈ children, SiblingsApart child) : SiblingsApart (.node label children)

/-- Children one behind the other have no byte in common. -/
theorem SiblingsApart.of_apart {label : Node} {children : List ParseTree}
    (hapart : children.Pairwise fun first second => first.label.range.Apart second.label.range)
    (hbelow : ∀ child ∈ children, child.SiblingsApart) :
    SiblingsApart (.node label children) := by
  refine .node _ _ (hapart.imp ?_) hbelow
  rintro first second (hbefore | hbehind) byte ⟨hstart, hstop⟩ ⟨hstart', hstop'⟩
  · omega
  · omega

theorem SiblingsApart.of_mem_children (h : tree.SiblingsApart) (hmem : found ∈ tree.children) :
    found.SiblingsApart := by
  obtain ⟨label, children, -, hbelow⟩ := h
  exact hbelow found hmem

/-- Two children with a common byte are one. -/
theorem SiblingsApart.step_eq {first second : Nat} (h : tree.SiblingsApart)
    (hfirst : tree.children[first]? = some found) (hsecond : tree.children[second]? = some found')
    (hbyte : found.label.range.Holds byte) (hbyte' : found'.label.range.Holds byte) :
    first = second := by
  obtain ⟨label, children, hapart, -⟩ := h
  obtain ⟨hlt, rfl⟩ := List.getElem?_eq_some_iff.mp hfirst
  obtain ⟨hlt', rfl⟩ := List.getElem?_eq_some_iff.mp hsecond
  rw [List.pairwise_iff_getElem] at hapart
  rcases Nat.lt_trichotomy first second with hbefore | heq | hbehind
  · exact absurd hbyte' (hapart first second hlt hlt' hbefore byte hbyte)
  · exact heq
  · exact absurd hbyte (hapart second first hlt' hlt hbehind byte hbyte')

/-- Of two nodes with a common byte one is above the other, or they are one. -/
theorem SiblingsApart.prefix_or_prefix (h : tree.SiblingsApart) (hnested : tree.Nested)
    (hfound : tree.follow? path above = some (aboveFound, found))
    (hfound' : tree.follow? path' above' = some (aboveFound', found'))
    (hbyte : found.label.range.Holds byte) (hbyte' : found'.label.range.Holds byte) :
    path <+: path' ∨ path' <+: path := by
  induction path generalizing path' above above' tree with
  | nil => exact .inl List.nil_prefix
  | cons step path ih =>
    cases path' with
    | nil => exact .inr List.nil_prefix
    | cons step' path' =>
      rw [follow?] at hfound hfound'
      split at hfound
      · next child hchild =>
        split at hfound'
        · next child' hchild' =>
          -- A child holds the bytes of what is below it, so both paths begin with one step.
          obtain ⟨label, children, hinside, hbelow⟩ := hnested
          have hmem : child ∈ children := List.mem_of_getElem? hchild
          have hmem' : child' ∈ children := List.mem_of_getElem? hchild'
          have hchildByte : child.label.range.Holds byte :=
            .of_contains ((hbelow child hmem).contains_follow? hfound).1 hbyte
          have hchildByte' : child'.label.range.Holds byte :=
            .of_contains ((hbelow child' hmem').contains_follow? hfound').1 hbyte'
          obtain rfl := h.step_eq hchild hchild' hchildByte hchildByte'
          obtain rfl := Option.some.inj (hchild.symm.trans hchild')
          rw [List.cons_prefix_cons, List.cons_prefix_cons]
          exact (ih (h.of_mem_children hmem) (hbelow child hmem) hfound hfound').imp
            (fun hbegins => ⟨rfl, hbegins⟩) fun hbegins => ⟨rfl, hbegins⟩
        · cases hfound'
      · cases hfound

end ParseTree

/-! ## Laminar tables -/

/-- A table of scopes for some sites in the order of their paths. Sites hold the bytes of those
below them, and any two with a common byte lie one below the other. -/
structure Laminar (table : ScopeTable) (source : Source) (sites : List Site) : Prop where
  sorted : sites.Pairwise (·.path < ·.path)
  scopes_eq : table.scopes = sites.map fun site => site.scope source (nearest? sites site.path)
  contains : ∀ other ∈ sites, ∀ site ∈ sites, other.path <+: site.path →
    other.label.range.contains site.label.range = true
  comparable : ∀ other ∈ sites, ∀ site ∈ sites, ∀ byte, other.label.range.Holds byte →
    site.label.range.Holds byte → other.path <+: site.path ∨ site.path <+: other.path

/-- The scope table of a text, from its parse tree. -/
def ParseTree.scopeTable (language : Language) (text : String) (tree : ParseTree) : ScopeTable :=
  ScopeTable.ofTree (SyntaxTree.ofParse language (Source.ofString text) tree)

/-- The table of a tree with nested nodes and separate siblings is laminar. -/
theorem laminar_scopeTable (language : Language) (text : String) {tree : ParseTree}
    (hnested : tree.Nested) (hapart : tree.SiblingsApart) :
    Laminar (tree.scopeTable language text) (Source.ofChars text.toList)
      (tree.sites (declaration? language text.toList) []) := by
  refine ⟨pairwise_sites tree [], scopes_ofParse language (Source.ofString text) tree, ?_, ?_⟩
  · intro other hother site hsite hbegins
    rw [mem_sites_iff] at hother hsite
    exact hother.contains hnested hsite hbegins
  · intro other hother site hsite byte hbyte hbyte'
    -- Sites stand for nodes at the ends of their paths.
    obtain ⟨_, found, hfollow, hlabel, -⟩ := (mem_sites_iff tree [] other).mp hother
    obtain ⟨_, found', hfollow', hlabel', -⟩ := (mem_sites_iff tree [] site).mp hsite
    rw [← hlabel] at hbyte
    rw [← hlabel'] at hbyte'
    exact hapart.prefix_or_prefix hnested hfollow hfollow' hbyte hbyte'

namespace Laminar

variable {inner outer : Nat} (h : Laminar table source sites)
include h

theorem get?_of_site (hsite : sites[id]? = some site) :
    table.get? id = some (site.scope source (nearest? sites site.path)) := by
  rw [ScopeTable.get?, h.scopes_eq, List.getElem?_map, hsite]
  rfl

theorem exists_site (hscope : table.get? id = some scope) :
    ∃ site, sites[id]? = some site ∧ scope = site.scope source (nearest? sites site.path) := by
  rw [ScopeTable.get?, h.scopes_eq, List.getElem?_map] at hscope
  obtain ⟨site, hsite, rfl⟩ := Option.map_eq_some_iff.mp hscope
  exact ⟨site, hsite, rfl⟩

/-- The parent is the nearest site above. -/
theorem isParent_iff (hsite : sites[inner]? = some site) :
    table.IsParent outer inner ↔ nearest? sites site.path = some outer := by
  rw [ScopeTable.IsParent, h.get?_of_site hsite]
  constructor
  · rintro ⟨_, ⟨⟩, hparent⟩
    exact hparent
  · intro hnearest
    exact ⟨_, rfl, hnearest⟩

/-- A parent stands for a site above. -/
theorem isAbove_of_isParent (hsite : sites[inner]? = some site)
    (hparent : table.IsParent outer inner) :
    ∃ other, sites[outer]? = some other ∧ IsAbove other.path site.path := by
  obtain ⟨other, hother, habove, -⟩ := exists_of_nearest? ((h.isParent_iff hsite).mp hparent)
  exact ⟨other, hother, habove⟩

/-- An ancestor stands for a site above. -/
theorem isAbove_of_ancestor (hsite : sites[inner]? = some site)
    (hancestor : TransGen table.IsParent outer inner) :
    ∃ other, sites[outer]? = some other ∧ IsAbove other.path site.path := by
  induction hancestor generalizing site with
  | single hparent => exact h.isAbove_of_isParent hsite hparent
  | tail _ hparent ih =>
    obtain ⟨middle, hmiddle, habove⟩ := h.isAbove_of_isParent hsite hparent
    obtain ⟨other, hother, habove'⟩ := ih hmiddle
    exact ⟨other, hother, habove'.1.trans habove.1,
      fun hpath => lt_irrefl _ (hpath ▸ lt_trans habove'.lt habove.lt)⟩

/-- Every site above a site is reached from it. From a scope the link to its parent leads to the
nearest of them, and the others are above that one. -/
theorem ancestor_of_isAbove (hother : sites[outer]? = some other) :
    ∀ site, sites[inner]? = some site → IsAbove other.path site.path →
      TransGen table.IsParent outer inner := by
  induction inner using Nat.strong_induction_on with
  | _ inner ih =>
    intro site hsite habove
    have hmem : other ∈ sites := List.mem_of_getElem? hother
    cases hnearest : nearest? sites site.path with
    | none => exact absurd habove (nearest?_eq_none_iff.mp hnearest other hmem)
    | some parent =>
      have hparent := (h.isParent_iff hsite).mpr hnearest
      have hlt := lt_of_nearest? h.sorted hsite hnearest
      obtain ⟨middle, hmiddle, -, hothers⟩ := (nearest?_eq_some_iff h.sorted).mp hnearest
      -- A site above is the nearest one itself, or above that, which has a smaller number.
      by_cases hpath : other.path = middle.path
      · obtain rfl := index_unique h.sorted hother hmiddle hpath
        exact .single hparent
      · exact .tail (ih parent hlt middle hmiddle ⟨hothers other hmem habove, hpath⟩) hparent

/-- Ancestors are the sites above. -/
theorem transGen_isParent_iff (hother : sites[outer]? = some other)
    (hsite : sites[inner]? = some site) :
    TransGen table.IsParent outer inner ↔ IsAbove other.path site.path := by
  constructor
  · intro hancestor
    obtain ⟨found, hfound, habove⟩ := h.isAbove_of_ancestor hsite hancestor
    obtain rfl := Option.some.inj (hother.symm.trans hfound)
    exact habove
  · exact h.ancestor_of_isAbove hother site hsite

/-- A scope and its ancestors are the sites at the prefixes of its path. -/
theorem reflTransGen_isParent_iff (hsite : sites[inner]? = some site) :
    ReflTransGen table.IsParent outer inner ↔
      ∃ other, sites[outer]? = some other ∧ other.path <+: site.path := by
  rw [reflTransGen_iff_eq_or_transGen]
  constructor
  · rintro (rfl | hancestor)
    · exact ⟨site, hsite, List.prefix_rfl⟩
    · obtain ⟨other, hother, habove⟩ := h.isAbove_of_ancestor hsite hancestor
      exact ⟨other, hother, habove.1⟩
  · rintro ⟨other, hother, hbegins⟩
    by_cases hpath : other.path = site.path
    · exact .inl (index_unique h.sorted hsite hother hpath.symm)
    · exact .inr (h.ancestor_of_isAbove hother site hsite ⟨hbegins, hpath⟩)

end Laminar

/-! ### Two classes

Both classes of the text below have a method `f`. -/

/-- Two classes with a method each, in Python. -/
def twinText : String :=
  "class A:\n    def f():\n        pass\nclass B:\n    def f():\n        pass\n"

/-- A tree of that text. -/
def twinTree : ParseTree :=
  let name (start : Nat) :=
    ParseTree.node ⟨"identifier", true, false, false, false, ⟨start, start + 1⟩, some .name⟩ []
  let method (start stop : Nat) :=
    ParseTree.node ⟨"function_definition", true, false, false, false, ⟨start, stop⟩, none⟩
      [name (start + 4)]
  let body (start stop : Nat) :=
    ParseTree.node ⟨"block", true, false, false, false, ⟨start, stop⟩, some .body⟩
      [method start stop]
  let classNode (start stop : Nat) :=
    ParseTree.node ⟨"class_definition", true, false, false, false, ⟨start, stop⟩, none⟩
      [name (start + 6), body (start + 13) stop]
  .node ⟨"module", true, false, false, false, ⟨0, 70⟩, none⟩ [classNode 0 34, classNode 35 69]

theorem twinTree_nested : twinTree.Nested := by
  have hleaf : ∀ label, (ParseTree.node label []).Nested := fun label => .node label [] nofun nofun
  refine .node _ _ (by decide) ?_
  simp only [List.forall_mem_cons]
  refine ⟨?_, ?_, nofun⟩ <;>
  · refine .node _ _ (by decide) ?_
    simp only [List.forall_mem_cons]
    refine ⟨hleaf _, .node _ _ (by decide) ?_, nofun⟩
    simp only [List.forall_mem_cons]
    refine ⟨.node _ _ (by decide) ?_, nofun⟩
    simp only [List.forall_mem_cons]
    exact ⟨hleaf _, nofun⟩

theorem twinTree_siblingsApart : twinTree.SiblingsApart := by
  have hleaf : ∀ label, (ParseTree.node label []).SiblingsApart :=
    fun label => .node label [] .nil nofun
  refine .of_apart (by decide) ?_
  simp only [List.forall_mem_cons]
  refine ⟨?_, ?_, nofun⟩ <;>
  · refine .of_apart (by decide) ?_
    simp only [List.forall_mem_cons]
    refine ⟨hleaf _, .of_apart (by decide) ?_, nofun⟩
    simp only [List.forall_mem_cons]
    refine ⟨.of_apart (by decide) ?_, nofun⟩
    simp only [List.forall_mem_cons]
    exact ⟨hleaf _, nofun⟩

example : (twinTree.scopeTable .python twinText).scopes.map
    (fun scope => (scope.kind, scope.name, scope.startLine, scope.endLine, scope.parent)) =
      [(.classBody, "A", 1, 3, none), (.method, "f", 2, 3, some 0),
        (.classBody, "B", 4, 6, none), (.method, "f", 5, 6, some 2)] := by
  decide +kernel

end ExactEdit
