import ExactEdit.Proofs.Syntax.Listing
import ExactEdit.Proofs.Syntax.Walk
import Mathlib.Data.List.Forall2

/-! # A flattened tree keeps its shape

A syntax tree is a list of nodes in which a node is known by its number. The loop over a cursor ends
with the list that the recursion over the tree makes, and this list is a tree again: its numbers lead
from each node but the first to one in front of it, and back. Which node that is, the parse tree
tells.

## Main definitions

* `SyntaxTree.Rooted` — the numbers of parents and children make a list of nodes a tree
* `SyntaxTree.Flattens` — a list of nodes has the named nodes of a tree, and what is above what

## Main results

* `SyntaxTree.Rooted.existsUnique_hasChild`, `SyntaxTree.Rooted.reachable` — every node but the root
  is the child of one other, and there is a way to it from the root
* `SyntaxTree.walk_flattens` — the loop over a cursor ends, with the tree flattened
-/

namespace ExactEdit.SyntaxTree

open ParseTree Relation

variable {source : Source} {rule : List Node → ParseTree → Option Declaration}
variable {tree : ParseTree} {parent : Option Nat}

/-! ## Lists with a root -/

/-- Whether a node has another among its children. -/
def HasChild (nodes : List SyntaxNode) (outer inner : Nat) : Prop :=
  ∃ node, nodes[outer]? = some node ∧ inner ∈ node.children

/-- Whether the numbers in a list of nodes make it a tree: the first node is its root, all others
hang at an earlier one, and the children of a node are, in order, those that hang at it. -/
structure Rooted (nodes : List SyntaxNode) : Prop where
  parent_eq_none_iff : ∀ {number : Nat} {node : SyntaxNode}, nodes[number]? = some node →
    (node.parent = none ↔ number = 0)
  parent_lt : ∀ {number outer : Nat} {node : SyntaxNode}, nodes[number]? = some node →
    node.parent = some outer → outer < number
  children_sorted : ∀ node ∈ nodes, node.children.Pairwise (· < ·)
  mem_children_iff : ∀ {number : Nat} {node : SyntaxNode}, nodes[number]? = some node →
    ∀ inner : Nat, (inner ∈ node.children ↔
      ∃ below, nodes[inner]? = some below ∧ below.parent = some number)

variable {nodes : List SyntaxNode} {number outer inner : Nat} {node : SyntaxNode}

namespace Rooted

theorem hasChild_iff (h : Rooted nodes) :
    HasChild nodes outer inner ↔
      ∃ below, nodes[inner]? = some below ∧ below.parent = some outer := by
  constructor
  · rintro ⟨node, hnode, hinner⟩
    exact (h.mem_children_iff hnode inner).mp hinner
  · rintro ⟨below, hbelow, hparent⟩
    have hlt : outer < nodes.length :=
      lt_trans (h.parent_lt hbelow hparent) (List.getElem?_eq_some_iff.mp hbelow).1
    refine ⟨nodes[outer], List.getElem?_eq_getElem hlt, ?_⟩
    exact (h.mem_children_iff (List.getElem?_eq_getElem hlt) inner).mpr ⟨below, hbelow, hparent⟩

/-- Every node but the root hangs at one. -/
theorem exists_parent (h : Rooted nodes) (hnode : nodes[number]? = some node) (hne : number ≠ 0) :
    ∃ outer, node.parent = some outer :=
  Option.ne_none_iff_exists'.mp fun hnone => hne ((h.parent_eq_none_iff hnode).mp hnone)

/-- Every node but the root is the child of one. -/
theorem existsUnique_hasChild (h : Rooted nodes) (hlt : number < nodes.length) (hne : number ≠ 0) :
    ∃! outer, HasChild nodes outer number := by
  have hnode : nodes[number]? = some nodes[number] := List.getElem?_eq_getElem hlt
  obtain ⟨outer, hparent⟩ := h.exists_parent hnode hne
  refine ⟨outer, h.hasChild_iff.mpr ⟨_, hnode, hparent⟩, fun other hother => ?_⟩
  obtain ⟨below, hbelow, hparent'⟩ := h.hasChild_iff.mp hother
  obtain rfl := Option.some.inj (hnode.symm.trans hbelow)
  exact Option.some.inj (hparent'.symm.trans hparent)

/-- Going to children leads from the root to every node. -/
theorem reachable (h : Rooted nodes) (number : Nat) (hlt : number < nodes.length) :
    ReflTransGen (HasChild nodes) 0 number := by
  -- The way goes to the parent first, which has a smaller number.
  induction number using Nat.strong_induction_on with
  | _ number ih =>
    by_cases hzero : number = 0
    · rw [hzero]
    · have hnode : nodes[number]? = some nodes[number] := List.getElem?_eq_getElem hlt
      obtain ⟨outer, hparent⟩ := h.exists_parent hnode hzero
      have hearlier : outer < number := h.parent_lt hnode hparent
      refine (ih outer hearlier (lt_trans hearlier hlt)).tail ?_
      exact h.hasChild_iff.mpr ⟨_, hnode, hparent⟩

end Rooted

/-! ## The shape of the tree -/

/-- Whether a list of nodes has the named nodes of a tree, which are at the given places, in the
order of a reader, and each hangs at the nearest one above it. -/
structure Flattens (source : Source) (rule : List Node → ParseTree → Option Declaration)
    (tree : ParseTree) (nodes : List SyntaxNode) (named : List Place) : Prop where
  sorted : named.Pairwise (·.path < ·.path)
  mem_iff : ∀ place, place ∈ named ↔ place.IsIn [] tree ∧ place.tree.label.isNamed = true
  shows : List.Forall₂ (Shows source rule) nodes named
  parent_eq_some_iff : ∀ {number : Nat} {node : SyntaxNode} {place : Place},
    nodes[number]? = some node → named[number]? = some place → ∀ parent : Nat,
      (node.parent = some parent ↔ ∃ outer, named[parent]? = some outer ∧
        IsAbove outer.path place.path ∧
          ∀ other ∈ named, IsAbove other.path place.path → other.path <+: outer.path)

variable {named : List Place} {place : Place} {tops : List Nat}

section Hung

variable (hbare : nodes.map SyntaxNode.bare = hungAt source rule none 0 named)
include hbare

theorem length_eq_of_hungAt : nodes.length = named.length := by
  have hlength := congrArg List.length hbare
  rwa [List.length_map, length_hungAt] at hlength

/-- Every node is listed as what stands at its place, and hangs at the nearest one above. -/
theorem bare_eq_of_hungAt (hnode : nodes[number]? = some node)
    (hplace : named[number]? = some place) :
    node.bare = listed source rule (nearestAbove? (named.map (·.path)) place.path) place.above
      place.tree := by
  have hget : (nodes.map SyntaxNode.bare)[number]? = some node.bare := by
    rw [List.getElem?_map, hnode, Option.map_some]
  rw [hbare, hungAt, hung, List.getElem?_map, hplace, Option.map_some, Option.some_inj] at hget
  rw [← hget, parentAmong?]
  simp

theorem exists_place_of_hungAt (hnode : nodes[number]? = some node) :
    ∃ place, named[number]? = some place := by
  have hlt : number < named.length := by
    rw [← length_eq_of_hungAt hbare]
    exact (List.getElem?_eq_some_iff.mp hnode).1
  exact ⟨named[number], List.getElem?_eq_getElem hlt⟩

theorem parent_eq_of_hungAt (hnode : nodes[number]? = some node)
    (hplace : named[number]? = some place) :
    node.parent = nearestAbove? (named.map (·.path)) place.path :=
  congrArg (·.parent) (bare_eq_of_hungAt hbare hnode hplace)

/-- What is hung at the places of the named nodes of a tree flattens the tree. -/
theorem flattens_of_hungAt (hsorted : named.Pairwise (·.path < ·.path))
    (hmem : ∀ place, place ∈ named ↔ place.IsIn [] tree ∧ place.tree.label.isNamed = true) :
    Flattens source rule tree nodes named where
  sorted := hsorted
  mem_iff := hmem
  shows := by
    refine List.forall₂_iff_get.mpr ⟨length_eq_of_hungAt hbare, fun number hnode hplace => ?_⟩
    exact .of_bare (bare_eq_of_hungAt hbare (List.getElem?_eq_getElem hnode)
      (List.getElem?_eq_getElem hplace))
  parent_eq_some_iff := by
    intro number node place hnode hplace parent
    rw [parent_eq_of_hungAt hbare hnode hplace, nearestAbove?_map_eq_some_iff hsorted]

/-- With the root among the places, the list has it as its root. -/
theorem rooted_of_hungAt (hsorted : named.Pairwise (·.path < ·.path))
    (hroot : (named.map (·.path))[0]? = some [])
    (hlinked : Listing.Linked ⟨nodes, tops⟩ none 0) : Rooted nodes := by
  -- Paths tell of the parents, and the listing of the children.
  have hpath : ∀ {number : Nat} {node : SyntaxNode}, nodes[number]? = some node →
      ∃ path, (named.map (·.path))[number]? = some path ∧
        node.parent = nearestAbove? (named.map (·.path)) path := by
    intro number node hnode
    obtain ⟨place, hplace⟩ := exists_place_of_hungAt hbare hnode
    refine ⟨place.path, ?_, parent_eq_of_hungAt hbare hnode hplace⟩
    rw [List.getElem?_map, hplace, Option.map_some]
  have hpaths : (named.map (·.path)).Pairwise (· < ·) := List.pairwise_map.mpr hsorted
  have hchildren : ∀ {number : Nat} {node : SyntaxNode}, nodes[number]? = some node →
      node.children = hangingAt (some number) 0 nodes := by
    intro number node hnode
    rw [hlinked.children_eq number node hnode, Nat.zero_add]
  constructor
  · intro number node hnode
    obtain ⟨path, hget, hparent⟩ := hpath hnode
    rw [hparent, nearestAbove?_eq_none_iff_eq_zero hpaths hroot hget]
  · intro number outer node hnode houter
    obtain ⟨path, hget, hparent⟩ := hpath hnode
    exact nearestAbove?_lt hpaths hget (hparent.symm.trans houter)
  · intro node hmem
    obtain ⟨number, hnode⟩ := List.getElem?_of_mem hmem
    rw [hchildren hnode]
    exact List.pairwise_findIdxs
  · intro number node hnode inner
    rw [hchildren hnode, mem_hangingAt_iff]

end Hung

/-- For every tree with a named root the loop over a cursor ends, with the nodes of the syntax tree:
they are the named nodes in the order of a reader, each hangs at the nearest one above it, and the
numbers of parents and children make a tree of them, in which every node can be reached. -/
theorem walk_flattens (language : Language) (source : Source) (tree : ParseTree)
    (hnamed : tree.label.isNamed = true) :
    let rule := declaration? language source.chars
    ∃ walk, Walk.Reaches source rule (Walk.start tree) walk ∧ walk.next? source rule = none ∧
      walk.nodes = (ofParse language source tree).nodes ∧
      (∃ named, Flattens source rule tree walk.nodes named) ∧ Rooted walk.nodes ∧
      (∀ number, number < walk.nodes.length → number ≠ 0 →
        ∃! outer, HasChild walk.nodes outer number) ∧
      ∀ number, number < walk.nodes.length → ReflTransGen (HasChild walk.nodes) 0 number := by
  intro rule
  obtain ⟨walk, hreaches, hend, hnodes⟩ := Walk.reaches_end source rule tree
  have hbare : (listTree source rule 0 none [] tree).nodes.map SyntaxNode.bare =
      hungAt source rule none 0 (namedPlaces [] tree) := listTree_bare tree [] none 0
  have hroot : ((namedPlaces [] tree).map (·.path))[0]? = some [] := by
    obtain ⟨label, children⟩ := tree
    rw [namedPlaces_of_named (show label.isNamed = true from hnamed)]
    rfl
  have hrooted : Rooted walk.nodes := by
    rw [hnodes]
    exact rooted_of_hungAt hbare (pairwise_namedPlaces tree []) hroot
      (linked_listTree tree [] none 0 nofun)
  refine ⟨walk, hreaches, hend, hnodes, ⟨namedPlaces [] tree, ?_⟩, hrooted,
    fun number => hrooted.existsUnique_hasChild, hrooted.reachable⟩
  rw [hnodes]
  exact flattens_of_hungAt hbare (pairwise_namedPlaces tree []) fun _ => mem_namedPlaces_iff

/-- A call with an argument, and a comment behind it. -/
def callText : String := "f(x) # y"

/-- A tree of that text. What is around the argument has no name, and behind the last bracket in it
the loop goes up two levels to the comment. -/
def callTree : ParseTree :=
  let leaf (kind : String) (isNamed : Bool) (range : ByteRange) :=
    ParseTree.node ⟨kind, isNamed, false, false, false, range, none⟩ []
  let arguments := .node ⟨"arguments", false, false, false, false, ⟨1, 4⟩, none⟩
    [leaf "(" false ⟨1, 2⟩, leaf "identifier" true ⟨2, 3⟩, leaf ")" false ⟨3, 4⟩]
  let call := .node ⟨"call", true, false, false, false, ⟨0, 4⟩, none⟩
    [leaf "identifier" true ⟨0, 1⟩, arguments]
  .node ⟨"module", true, false, false, false, ⟨0, 8⟩, none⟩ [call, leaf "comment" true ⟨5, 8⟩]

/-- The argument hangs at the call, and the comment at the root. -/
theorem callTree_flattened : callTree.label.isNamed = true ∧
    ∃ walk, Walk.Reaches (Source.ofString callText) (declaration? .python callText.toList)
        (Walk.start callTree) walk ∧
      walk.next? (Source.ofString callText) (declaration? .python callText.toList) = none ∧
      Rooted walk.nodes ∧
      walk.nodes.map (fun node => (node.kind, node.parent, node.children)) =
        [("module", none, [1, 4]), ("call", some 0, [2, 3]), ("identifier", some 1, []),
          ("identifier", some 1, []), ("comment", some 0, [])] := by
  have hnamed : callTree.label.isNamed = true := rfl
  obtain ⟨walk, hreaches, hend, hnodes, -, hrooted, -⟩ :=
    walk_flattens .python (Source.ofString callText) callTree hnamed
  refine ⟨hnamed, walk, hreaches, hend, hrooted, ?_⟩
  rw [hnodes]
  decide +kernel

end ExactEdit.SyntaxTree
