import ExactEdit.Proofs.Scope.Table
import ExactEdit.Proofs.Source.Row

/-! # Nested scopes

In a tree whose nodes lie inside each other, the scopes of a table do so too, by their bytes and by
their lines. For lines this is not a matter of course. A scope that ends at the start of a row stops
on the row before, and one that ends on the same row further right does not, so the end of a scope
is told in another way than that of the scopes inside it. What both have in common is that they stop
on the row of their last byte.

## Main definitions

* `ParseTree.Nested` — every node of a tree holds the bytes of its children
* `Mirrors` — a scope of a table stands for a site of a tree

## Main results

* `Site.endLine_scope` — a scope stops on the line of its last byte
* `namesUp_eq` — the names up from a scope are those of the sites above, and its own
* `scopes_mirror_tree` — the table of a tree stands for the sites of the tree, in order
-/

namespace ExactEdit

open ParseTree

variable {chars : List Char} {source : Source} {site other : Site} {sites : List Site}
variable {rule : List Node → ParseTree → Option Declaration} {above aboveFound : List Node}
variable {tree found : ParseTree} {path : List Nat} {table : ScopeTable} {id steps : Nat}
variable {parent : Option Nat}

/-! ## Bytes -/

theorem ByteRange.contains_iff {outer inner : ByteRange} :
    outer.contains inner = true ↔ outer.start ≤ inner.start ∧ inner.stop ≤ outer.stop := by
  rw [contains, Bool.and_eq_true, decide_eq_true_eq, decide_eq_true_eq]

theorem ByteRange.contains_refl (range : ByteRange) : range.contains range = true :=
  contains_iff.mpr ⟨Nat.le_refl _, Nat.le_refl _⟩

theorem ByteRange.contains_trans {outer middle inner : ByteRange} (h : outer.contains middle = true)
    (h' : middle.contains inner = true) : outer.contains inner = true := by
  rw [contains_iff] at h h' ⊢
  exact ⟨Nat.le_trans h.1 h'.1, Nat.le_trans h'.2 h.2⟩

theorem ByteRange.contains_antisymm {first second : ByteRange}
    (h : first.contains second = true) (h' : second.contains first = true) : first = second := by
  rw [contains_iff] at h h'
  exact congrArg₂ ByteRange.mk (Nat.le_antisymm h.1 h'.1) (Nat.le_antisymm h'.2 h.2)

namespace ParseTree

/-- Every node of a tree holds the bytes of its children. -/
inductive Nested : ParseTree → Prop
  | node (label : Node) (children : List ParseTree)
      (inside : ∀ child ∈ children, label.range.contains child.label.range = true)
      (nested : ∀ child ∈ children, Nested child) : Nested (.node label children)

/-- A node holds the bytes of all nodes below it. -/
theorem Nested.contains_follow? (h : tree.Nested)
    (hfollow : tree.follow? path above = some (aboveFound, found)) :
    tree.label.range.contains found.label.range = true ∧ found.Nested := by
  induction path generalizing above tree with
  | nil =>
    obtain ⟨-, rfl⟩ := Prod.mk.inj (Option.some.inj hfollow)
    exact ⟨ByteRange.contains_refl _, h⟩
  | cons step path ih =>
    rw [follow?] at hfollow
    split at hfollow
    · rename_i child hchild
      obtain ⟨label, children, hinside, hnested⟩ := h
      have hmem : child ∈ children := List.mem_of_getElem? hchild
      obtain ⟨hcontains, hfound⟩ := ih (hnested child hmem) hfollow
      exact ⟨ByteRange.contains_trans (hinside child hmem) hcontains, hfound⟩
    · cases hfollow

end ParseTree

/-- A site holds the bytes of the sites below it. -/
theorem Site.IsIn.contains (h : tree.Nested) (hother : other.IsIn rule [] tree)
    (hsite : site.IsIn rule [] tree) (hbegins : other.path <+: site.path) :
    other.label.range.contains site.label.range = true := by
  obtain ⟨aboveOther, outer, houter, houterLabel, -⟩ := hother
  obtain ⟨aboveSite, inner, hinner, hinnerLabel, -⟩ := hsite
  obtain ⟨back, hback⟩ := hbegins
  rw [← hback, follow?_append, houter, Option.bind_some] at hinner
  rw [← houterLabel, ← hinnerLabel]
  exact ((h.contains_follow? houter).2.contains_follow? hinner).1

/-! ## Lines -/

theorem Site.startLine_scope (site : Site) (parent : Option Nat) :
    (site.scope (Source.ofChars chars) parent).startLine =
      ((LineIndex.ofChars chars).pointOf site.label.range.start).row + 1 := rfl

/-- A scope stops on the line of its last byte. -/
theorem Site.endLine_scope (hfull : site.label.range.start < site.label.range.stop)
    (parent : Option Nat) :
    (site.scope (Source.ofChars chars) parent).endLine =
      ((LineIndex.ofChars chars).pointOf (site.label.range.stop - 1)).row + 1 := by
  obtain ⟨last, hlast⟩ := Nat.exists_eq_succ_of_ne_zero (Nat.ne_zero_of_lt hfull)
  have hstart : site.label.range.start ≤ last := by omega
  have hmono := LineIndex.row_pointOf_mono chars hstart
  have hrow := LineIndex.row_pointOf_succ chars last
  simp only [scope, Scope.ofNode, Scope.lineEnd, hlast, Nat.succ_eq_add_one, Nat.add_sub_cancel,
    Source.ofChars]
  -- Column zero is on a later row than the start, so only the column decides.
  by_cases hcolumn : ((LineIndex.ofChars chars).pointOf (last + 1)).column = 0
  · rw [if_pos hcolumn] at hrow
    rw [if_pos ⟨hcolumn, by omega⟩]
    omega
  · rw [if_neg hcolumn] at hrow
    rw [if_neg fun h => hcolumn h.1]
    omega

/-- The lines of what is in the bytes of a site are lines of its scope. -/
theorem Site.containsLines_of_contains {range : ByteRange} (hrange : range.start < range.stop)
    (hcontains : site.label.range.contains range = true) (parent : Option Nat) :
    (site.scope (Source.ofChars chars) parent).containsLines
      (((LineIndex.ofChars chars).pointOf range.start).row + 1)
      (((LineIndex.ofChars chars).pointOf (range.stop - 1)).row + 1) = true := by
  rw [ByteRange.contains_iff] at hcontains
  rw [Scope.containsLines, Bool.and_eq_true, decide_eq_true_eq, decide_eq_true_eq,
    startLine_scope, endLine_scope (by omega)]
  exact ⟨Nat.succ_le_succ (LineIndex.row_pointOf_mono chars hcontains.1),
    Nat.succ_le_succ (LineIndex.row_pointOf_mono chars (by omega))⟩

/-- A site that holds the bytes of another is on the lines of that one too. -/
theorem Site.containsLines_scope (hsite : site.label.range.start < site.label.range.stop)
    (hcontains : other.label.range.contains site.label.range = true)
    (parent parent' : Option Nat) :
    (other.scope (Source.ofChars chars) parent).containsLines
      (site.scope (Source.ofChars chars) parent').startLine
      (site.scope (Source.ofChars chars) parent').endLine = true := by
  rw [startLine_scope, endLine_scope hsite]
  exact containsLines_of_contains hsite hcontains parent

/-! ## Names -/

section Names

variable (hsorted : sites.Pairwise (·.path < ·.path))
  (htable : table.scopes = sites.map fun site => site.scope source (nearest? sites site.path))
include hsorted

/-- A site above another stands in front of it. -/
theorem lt_of_nearest? (hsite : sites[id]? = some site) {outer : Nat}
    (hnearest : nearest? sites site.path = some outer) : outer < id := by
  rw [nearest?_eq] at hnearest
  exact nearestAbove?_lt (List.pairwise_map.mpr hsorted)
    (getElem?_map_path_eq_some_iff.mpr ⟨site, hsite, rfl⟩) hnearest

include htable

/-- The names up from a scope are those of the sites above, and its own. A step is taken for each
of them and no number comes twice, so any number of steps larger than that of the scope will do. -/
theorem namesUp_eq (id : Nat) : ∀ site, sites[id]? = some site → ∀ steps names, id < steps →
    table.namesUp steps (some id) names =
      (sites.filter (·.path <+: site.path)).map (·.declared.name) ++ names := by
  induction id using Nat.strong_induction_on with
  | _ id ih =>
    intro site hsite steps names hsteps
    obtain ⟨steps, rfl⟩ := Nat.exists_eq_succ_of_ne_zero (Nat.ne_zero_of_lt hsteps)
    have hmem : site ∈ sites := List.mem_of_getElem? hsite
    have hscope : table.get? id = some (site.scope source (nearest? sites site.path)) := by
      rw [ScopeTable.get?, htable, List.getElem?_map, hsite]
      rfl
    rw [ScopeTable.namesUp, hscope]
    cases hnearest : nearest? sites site.path with
    | none =>
      rw [filter_prefix_of_nearest?_eq_none hsorted hmem hnearest]
      cases steps with
      | zero => rfl
      | succ steps => rfl
    | some outer =>
      obtain ⟨other, hother, -⟩ := exists_of_nearest? hnearest
      have hlt := lt_of_nearest? hsorted hsite hnearest
      rw [filter_prefix_of_nearest? hsorted hmem hnearest hother, List.map_append,
        List.append_assoc]
      exact ih outer hlt other hother steps (site.declared.name :: names) (by omega)

end Names

/-! ## The table of a tree -/

/-- The scope with number `id` of a table stands for a site among all sites of a tree: it has the
kind, the name and the bytes of the site, the nearest site above is its parent, its qualified name
is made of the names of all sites above and its own, and it is inside its parent. Parents have
smaller numbers, so the way up ends, and more steps than there are scopes in front of it lead no
further. -/
structure Mirrors (table : ScopeTable) (sites : List Site) (id : Nat) (site : Site)
    (scope : Scope) : Prop where
  kind_eq : scope.kind = site.declared.kind
  name_eq : scope.name = site.declared.name
  range_eq : scope.range = site.label.range
  parent_eq_some_iff : ∀ parent, scope.parent = some parent ↔
    ∃ outer, sites[parent]? = some outer ∧ IsAbove outer.path site.path ∧
      ∀ other ∈ sites, IsAbove other.path site.path → other.path <+: outer.path
  parent_eq_none_iff : scope.parent = none ↔ ∀ other ∈ sites, ¬ IsAbove other.path site.path
  parent_lt : ∀ parent, scope.parent = some parent → parent < id
  namesUp_eq : ∀ steps, id < steps → table.namesUp steps (some id) [] =
    (sites.filter (·.path <+: site.path)).map (·.declared.name)
  qualifiedName_eq : table.qualifiedName id =
    String.intercalate "::" ((sites.filter (·.path <+: site.path)).map (·.declared.name))
  startLine_le_endLine : scope.startLine ≤ scope.endLine
  inside : ∀ parent outer, scope.parent = some parent → table.get? parent = some outer →
    outer.containsBytes scope.range = true ∧
      outer.containsLines scope.startLine scope.endLine = true

/-- A scope that has the nearest site above as its parent stands for its site. -/
theorem mirrors_of_sites (hsorted : sites.Pairwise (·.path < ·.path))
    (htable : table.scopes = sites.map fun site =>
      site.scope (Source.ofChars chars) (nearest? sites site.path))
    (hfull : ∀ site ∈ sites, site.label.range.start < site.label.range.stop)
    (hcontains : ∀ other ∈ sites, ∀ site ∈ sites, other.path <+: site.path →
      other.label.range.contains site.label.range = true)
    (hsite : sites[id]? = some site) :
    Mirrors table sites id site
      (site.scope (Source.ofChars chars) (nearest? sites site.path)) := by
  have hmem : site ∈ sites := List.mem_of_getElem? hsite
  have hnames : ∀ steps, id < steps → table.namesUp steps (some id) [] =
      (sites.filter (·.path <+: site.path)).map (·.declared.name) := by
    intro steps hsteps
    rw [namesUp_eq hsorted htable id site hsite steps [] hsteps, List.append_nil]
  have hsize : id < table.size := by
    rw [ScopeTable.size, htable, List.length_map]
    exact (List.getElem?_eq_some_iff.mp hsite).1
  refine ⟨rfl, rfl, rfl, fun parent => nearest?_eq_some_iff hsorted, nearest?_eq_none_iff,
    fun parent hparent => lt_of_nearest? hsorted hsite hparent, hnames, ?_, Nat.le_max_right _ _,
    ?_⟩
  · rw [ScopeTable.qualifiedName, hnames _ hsize]
  · intro parent outer hparent houter
    obtain ⟨other, hother, habove, -⟩ := (nearest?_eq_some_iff hsorted).mp hparent
    have hotherMem : other ∈ sites := List.mem_of_getElem? hother
    have hbytes := hcontains other hotherMem site hmem habove.1
    rw [ScopeTable.get?, htable, List.getElem?_map, hother] at houter
    obtain rfl := Option.some.inj houter
    exact ⟨hbytes, Site.containsLines_scope (hfull site hmem) hbytes _ _⟩

/-- The scope table of a tree stands for the sites of the tree, in the order of their paths: there
is a scope for each of them, and no other. -/
theorem scopes_mirror_tree (language : Language) (text : String) (tree : ParseTree)
    (hnested : tree.Nested)
    (hfull : ∀ site : Site, site.IsIn (declaration? language text.toList) [] tree →
      site.label.range.start < site.label.range.stop) :
    ∃ sites : List Site, sites.Pairwise (·.path < ·.path) ∧
      (∀ site, site ∈ sites ↔ site.IsIn (declaration? language text.toList) [] tree) ∧
      (ScopeTable.ofTree (SyntaxTree.ofParse language (Source.ofString text) tree)).size =
        sites.length ∧
      ∀ id site, sites[id]? = some site → ∃ scope,
        (ScopeTable.ofTree (SyntaxTree.ofParse language (Source.ofString text) tree)).get? id =
          some scope ∧
        Mirrors (ScopeTable.ofTree (SyntaxTree.ofParse language (Source.ofString text) tree))
          sites id site scope := by
  have htable := scopes_ofParse language (Source.ofString text) tree
  have hmem : ∀ site, site ∈ tree.sites (declaration? language text.toList) [] ↔
      site.IsIn (declaration? language text.toList) [] tree := mem_sites_iff tree []
  have hsorted : (tree.sites (declaration? language text.toList) []).Pairwise
      (·.path < ·.path) := pairwise_sites tree []
  refine ⟨tree.sites (declaration? language text.toList) [], hsorted, hmem, ?_, ?_⟩
  · rw [ScopeTable.size, htable, List.length_map]
    rfl
  · intro id site hsite
    refine ⟨_, ?_, mirrors_of_sites hsorted htable (fun other hother => ?_) ?_ hsite⟩
    · rw [ScopeTable.get?, htable]
      exact (List.getElem?_map ..).trans (congrArg (Option.map _) hsite)
    · exact hfull other ((hmem other).mp hother)
    · intro other hother site hsite hbegins
      exact ((hmem other).mp hother).contains hnested ((hmem site).mp hsite) hbegins

/-- A class with a method, in Python. -/
def methodText : String := "class A:\n    def f():\n        pass\n"

/-- A tree of that text. The class ends at the start of a row and the method in front of it, and the
word in front of the name of the class has no name itself. -/
def methodTree : ParseTree :=
  let leaf (kind : String) (isNamed : Bool) (range : ByteRange) (field : Option FieldName) :=
    ParseTree.node ⟨kind, isNamed, false, false, false, range, field⟩ []
  let method := .node ⟨"function_definition", true, false, false, false, ⟨13, 34⟩, none⟩
    [leaf "identifier" true ⟨17, 18⟩ (some .name)]
  let block := .node ⟨"block", true, false, false, false, ⟨13, 34⟩, some .body⟩ [method]
  let classNode := .node ⟨"class_definition", true, false, false, false, ⟨0, 35⟩, none⟩
    [leaf "class" false ⟨0, 5⟩ none, leaf "identifier" true ⟨6, 7⟩ (some .name), block]
  .node ⟨"module", true, false, false, false, ⟨0, 35⟩, none⟩ [classNode]

/-- The scopes of that tree. -/
def methodTable : ScopeTable :=
  ScopeTable.ofTree (SyntaxTree.ofParse .python (Source.ofString methodText) methodTree)

/-- The class and the method in it are all the nodes with scopes, and the two scopes stand for
them. -/
theorem methodTree_mirrored : methodTree.Nested ∧
    (∀ site : Site, site.IsIn (declaration? .python methodText.toList) [] methodTree →
      site.label.range.start < site.label.range.stop) ∧
    ∃ sites : List Site, sites.Pairwise (·.path < ·.path) ∧
      (∀ site, site ∈ sites ↔
        site.IsIn (declaration? .python methodText.toList) [] methodTree) ∧
      methodTable.size = sites.length ∧ sites.length = 2 ∧
      ∀ id site, sites[id]? = some site → ∃ scope,
        methodTable.get? id = some scope ∧ Mirrors methodTable sites id site scope := by
  have hleaf : ∀ label, (ParseTree.node label []).Nested := fun label => .node label [] nofun nofun
  have hnested : methodTree.Nested := by
    refine .node _ _ (by decide) ?_
    simp only [List.forall_mem_cons]
    refine ⟨.node _ _ (by decide) ?_, nofun⟩
    simp only [List.forall_mem_cons]
    refine ⟨hleaf _, hleaf _, .node _ _ (by decide) ?_, nofun⟩
    simp only [List.forall_mem_cons]
    refine ⟨.node _ _ (by decide) ?_, nofun⟩
    simp only [List.forall_mem_cons]
    exact ⟨hleaf _, nofun⟩
  have hsites : ∀ site ∈ methodTree.sites (declaration? .python methodText.toList) [],
      site.label.range.start < site.label.range.stop := by
    decide +kernel
  have hfull : ∀ site : Site,
      site.IsIn (declaration? .python methodText.toList) [] methodTree →
      site.label.range.start < site.label.range.stop :=
    fun site hsite => hsites site ((mem_sites_iff _ _ _).mpr hsite)
  obtain ⟨sites, hsorted, hmem, hsize, hmirrors⟩ :=
    scopes_mirror_tree .python methodText methodTree hnested hfull
  have hcount : methodTable.size = 2 := by decide +kernel
  exact ⟨hnested, hfull, sites, hsorted, hmem, hsize, hsize.symm.trans hcount, hmirrors⟩

example : methodTable.scopes.map
    (fun scope => (scope.kind, scope.name, scope.startLine, scope.endLine, scope.parent)) =
      [(.classBody, "A", 1, 3, none), (.method, "f", 2, 3, some 0)] := by
  decide +kernel

end ExactEdit
