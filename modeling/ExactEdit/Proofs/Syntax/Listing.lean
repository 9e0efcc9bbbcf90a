import ExactEdit.Proofs.Syntax.Nearest
import ExactEdit.Syntax.Cursor

/-! # What a listing keeps of its tree

All that is left of the shape of a parse tree in a listing are the numbers of parents and children.
These are put beside the paths of the named nodes: the listing has the named nodes in the order of
their paths, each hangs at the nearest one above, and the children of a node are all those that hang
at it.

## Main definitions

* `ParseTree.namedPlaces` — the places of the named nodes of a tree
* `SyntaxTree.Shows` — a node shows what stands at a place
* `SyntaxTree.Listing.Linked` — in a listing the children are those that hang at a node

## Main results

* `SyntaxTree.listTree_bare` — a tree lists its named nodes, each at the nearest one above
* `SyntaxTree.exists_place_of_mem_listTree` — every listed node shows a place of the tree
* `SyntaxTree.linked_listTree` — the listing of a tree is linked
-/

namespace ExactEdit

variable {source : Source} {rule : List Node → ParseTree → Option Declaration}
variable {above : List Node} {label : Node} {tree : ParseTree} {forest : List ParseTree}
variable {step first : Nat} {parent : Option Nat}

namespace ParseTree

/-- The places of the named nodes of a tree. -/
def namedPlaces (above : List Node) (tree : ParseTree) : List Place :=
  (places above tree).filter (·.tree.label.isNamed)

/-- The places of the named nodes below a node, from one of its children on. -/
def namedBelow (above : List Node) (step : Nat) (forest : List ParseTree) : List Place :=
  (placesBelow above step forest).filter (·.tree.label.isNamed)

theorem namedPlaces_of_named {children : List ParseTree} (h : label.isNamed = true) :
    namedPlaces above (.node label children) =
      ⟨[], above, .node label children⟩ :: namedBelow (label :: above) 0 children :=
  List.filter_cons_of_pos h

theorem namedPlaces_of_not_named {children : List ParseTree} (h : label.isNamed = false) :
    namedPlaces above (.node label children) = namedBelow (label :: above) 0 children :=
  List.filter_cons_of_neg (by simp [ParseTree.label, h])

theorem namedBelow_cons (tree : ParseTree) (rest : List ParseTree) :
    namedBelow above step (tree :: rest) =
      (namedPlaces above tree).map (Place.under step) ++ namedBelow above (step + 1) rest := by
  rw [namedBelow, placesBelow, List.filter_append, List.filter_map]
  rfl

theorem beginFrom_namedBelow :
    BeginFrom step ((namedBelow above step forest).map (·.path)) :=
  List.forall_mem_map.mpr fun _ hplace =>
    exists_path_of_mem_placesBelow (List.mem_of_mem_filter hplace)

theorem mem_namedPlaces_iff {place : Place} :
    place ∈ namedPlaces above tree ↔
      place.IsIn above tree ∧ place.tree.label.isNamed = true := by
  rw [namedPlaces, List.mem_filter, mem_places_iff]

theorem pairwise_namedPlaces (tree : ParseTree) (above : List Node) :
    (namedPlaces above tree).Pairwise (·.path < ·.path) :=
  (pairwise_places tree above).filter _

end ParseTree

/-- A node as it was listed, before its children were entered. -/
def SyntaxNode.bare (node : SyntaxNode) : SyntaxNode := { node with children := [] }

namespace SyntaxTree

open ParseTree

/-! ## Named nodes and their parents -/

/-- Whether a node shows what stands at a place. -/
structure Shows (source : Source) (rule : List Node → ParseTree → Option Declaration)
    (node : SyntaxNode) (place : Place) : Prop where
  kind_eq : node.kind = place.tree.label.kind
  declared_eq : node.declared = rule place.above place.tree
  range_eq : node.range = place.tree.label.range
  start_eq : node.start = source.index.pointOf place.tree.label.range.start
  stop_eq : node.stop = source.index.pointOf place.tree.label.range.stop

theorem Shows.of_bare {node : SyntaxNode} {place : Place}
    (h : node.bare = listed source rule parent place.above place.tree) :
    Shows source rule node place where
  kind_eq := congrArg SyntaxNode.kind h
  declared_eq := congrArg SyntaxNode.declared h
  range_eq := congrArg SyntaxNode.range h
  start_eq := congrArg SyntaxNode.start h
  stop_eq := congrArg SyntaxNode.stop h

/-- The nodes at some places, each hung at the nearest one above it. -/
def hungAt (source : Source) (rule : List Node → ParseTree → Option Declaration)
    (parent : Option Nat) (first : Nat) (named : List Place) : List SyntaxNode :=
  hung (·.path) (fun place parent => listed source rule parent place.above place.tree) parent first
    named

theorem length_hungAt (named : List Place) :
    (hungAt source rule parent first named).length = named.length := by
  rw [hungAt, hung, List.length_map]

theorem listForest_bare
    (h : ∀ tree ∈ forest, ∀ first, (listTree source rule first parent above tree).nodes.map
      SyntaxNode.bare = hungAt source rule parent first (namedPlaces above tree)) :
    (listForest source rule first parent above forest).nodes.map SyntaxNode.bare =
      hungAt source rule parent first (namedBelow above step forest) := by
  induction forest generalizing first step with
  | nil => rfl
  | cons tree rest ih =>
    rw [List.forall_mem_cons] at h
    -- The rest is numbered behind the nodes of the first tree, of which there are as many as places.
    have hsize : (listTree source rule first parent above tree).nodes.length =
        (namedPlaces above tree).length := by
      have hlength := congrArg List.length (h.1 first)
      rwa [List.length_map, length_hungAt] at hlength
    rw [listForest, List.map_append, h.1, ih h.2, namedBelow_cons, hungAt, hungAt, hungAt,
      hung_append (Place.under step) (fun _ => rfl) (fun _ _ => rfl) beginFrom_namedBelow, hsize]

/-- A tree lists its named nodes in the order of their paths, each hung at the nearest one above
it. -/
theorem listTree_bare (tree : ParseTree) : ∀ (above : List Node) (parent : Option Nat)
    (first : Nat), (listTree source rule first parent above tree).nodes.map SyntaxNode.bare =
      hungAt source rule parent first (namedPlaces above tree) := by
  induction tree using ParseTree.induction with
  | node label children ih =>
    intro above parent first
    -- Parent and number are left open: only a node with a name is the parent of those below it.
    have hbelow : ∀ (parent : Option Nat) (first : Nat),
        (listForest source rule first parent (label :: above) children).nodes.map
          SyntaxNode.bare =
            hungAt source rule parent first (namedBelow (label :: above) 0 children) :=
      fun parent first =>
        listForest_bare fun child hchild => ih child hchild (label :: above) parent
    rw [listTree]
    cases hnamed : label.isNamed with
    | false =>
      rw [namedPlaces_of_not_named hnamed]
      exact hbelow parent first
    | true =>
      have hne : ∀ place ∈ namedBelow (label :: above) 0 children, place.path ≠ [] := by
        intro place hplace
        obtain ⟨step, path, hpath, -⟩ := beginFrom_namedBelow _ (List.mem_map_of_mem hplace)
        simp [hpath]
      rw [namedPlaces_of_named hnamed, hungAt, hung_root rfl hne]
      exact congrArg _ (hbelow (some first) (first + 1))

/-- Every listed node shows what stands at the place of a named node. -/
theorem exists_place_of_mem_listTree {node : SyntaxNode}
    (h : node ∈ (listTree source rule first parent above tree).nodes) :
    ∃ place ∈ namedPlaces above tree, Shows source rule node place := by
  have hbare := List.mem_map_of_mem (f := SyntaxNode.bare) h
  rw [listTree_bare, hungAt, hung, List.mem_map] at hbare
  obtain ⟨place, hplace, hlisted⟩ := hbare
  exact ⟨place, hplace, .of_bare hlisted.symm⟩

/-! ## Children -/

/-- The numbers of the nodes that hang at a parent, where the first node has the number `first`. -/
def hangingAt (parent : Option Nat) (first : Nat) (nodes : List SyntaxNode) : List Nat :=
  nodes.findIdxs (fun node => decide (node.parent = parent)) first

theorem hangingAt_cons (node : SyntaxNode) (nodes : List SyntaxNode) :
    hangingAt parent first (node :: nodes) =
      if node.parent = parent then first :: hangingAt parent (first + 1) nodes
      else hangingAt parent (first + 1) nodes := by
  simp only [hangingAt, List.findIdxs_cons, decide_eq_true_eq]

theorem hangingAt_append (front back : List SyntaxNode) :
    hangingAt parent first (front ++ back) =
      hangingAt parent first front ++ hangingAt parent (first + front.length) back := by
  rw [hangingAt, List.findIdxs_append, Nat.add_comm, hangingAt, hangingAt]

theorem hangingAt_eq_nil_iff {nodes : List SyntaxNode} :
    hangingAt parent first nodes = [] ↔ ∀ node ∈ nodes, node.parent ≠ parent := by
  simp [hangingAt, List.findIdxs_eq_nil_iff]

theorem mem_hangingAt_iff {nodes : List SyntaxNode} {number : Nat} :
    number ∈ hangingAt parent 0 nodes ↔
      ∃ node, nodes[number]? = some node ∧ node.parent = parent := by
  simp only [hangingAt, List.mem_findIdxs_iff_exists_getElem_pos, decide_eq_true_eq,
    List.getElem?_eq_some_iff]
  constructor
  · rintro ⟨hlt, hparent⟩
    exact ⟨_, ⟨hlt, rfl⟩, hparent⟩
  · rintro ⟨_, ⟨hlt, rfl⟩, hparent⟩
    exact ⟨hlt, hparent⟩

namespace Listing

variable {listing front back below : Listing} {number : Nat} {node : SyntaxNode}

/-- Whether in a listing, whose first node has the number `first`, the children of each node are
those that hang at it, and the nodes without a parent in the listing hang at `parent`. -/
structure Linked (listing : Listing) (parent : Option Nat) (first : Nat) : Prop where
  /-- Every node hangs at `parent` or at a node of the listing. -/
  parent_eq : ∀ node ∈ listing.nodes, node.parent = parent ∨
    ∃ number, node.parent = some number ∧ first ≤ number ∧ number < first + listing.nodes.length
  tops_eq : listing.tops = hangingAt parent first listing.nodes
  children_eq : ∀ index node, listing.nodes[index]? = some node →
    node.children = hangingAt (some (first + index)) first listing.nodes

/-- No node of a listing hangs at one outside it, the parent apart. -/
theorem Linked.hangingAt_eq_nil {outer : Option Nat} (h : listing.Linked parent first)
    (hne : parent ≠ outer)
    (houtside : ∀ number ∈ outer, number < first ∨ first + listing.nodes.length ≤ number) :
    hangingAt outer first listing.nodes = [] := by
  refine hangingAt_eq_nil_iff.mpr fun node hnode houter => ?_
  rcases h.parent_eq node hnode with hat | ⟨number, hat, hle, hlt⟩
  · exact hne (hat.symm.trans houter)
  · have := houtside number (houter.symm.trans hat)
    omega

/-- Two listings one behind the other hang at the same parent, and apart otherwise. -/
theorem Linked.append (hparent : ∀ number ∈ parent, number < first)
    (hfront : front.Linked parent first)
    (hback : back.Linked parent (first + front.nodes.length)) :
    Linked ⟨front.nodes ++ back.nodes, front.tops ++ back.tops⟩ parent first := by
  have hne : ∀ number, first ≤ number → parent ≠ some number := fun number hle hat =>
    absurd (hparent number hat) (Nat.not_lt.mpr hle)
  have hfrontNil : ∀ number, first + front.nodes.length ≤ number →
      hangingAt (some number) first front.nodes = [] := fun number hle =>
    hfront.hangingAt_eq_nil (hne number (by omega)) (by rintro _ ⟨rfl⟩; exact .inr hle)
  have hbackNil : ∀ number, first ≤ number → number < first + front.nodes.length →
      hangingAt (some number) (first + front.nodes.length) back.nodes = [] :=
    fun number hle hlt =>
      hback.hangingAt_eq_nil (hne number hle) (by rintro _ ⟨rfl⟩; exact .inl hlt)
  constructor
  · intro node hnode
    rw [List.length_append]
    rcases List.mem_append.mp hnode with hnode | hnode
    · refine (hfront.parent_eq node hnode).imp_right fun ⟨number, hat, hle, hlt⟩ => ?_
      exact ⟨number, hat, hle, by omega⟩
    · refine (hback.parent_eq node hnode).imp_right fun ⟨number, hat, hle, hlt⟩ => ?_
      exact ⟨number, hat, by omega, by omega⟩
  · rw [hangingAt_append, hfront.tops_eq, hback.tops_eq]
  · intro index node hnode
    rw [hangingAt_append]
    -- A node has its children in the listing that it is in, and none in the other one.
    rcases Nat.lt_or_ge index front.nodes.length with hlt | hle
    · rw [List.getElem?_append_left hlt] at hnode
      rw [hbackNil _ (by omega) (by omega), List.append_nil]
      exact hfront.children_eq index node hnode
    · rw [List.getElem?_append_right hle] at hnode
      rw [hfrontNil _ (by omega), List.nil_append, hback.children_eq _ node hnode, Nat.add_assoc,
        Nat.add_sub_cancel' hle]

/-- A node hangs at its parent, and what is listed below it hangs at the node. -/
theorem Linked.cons (hparent : ∀ number ∈ parent, number < first)
    (hbelow : below.Linked (some first) (first + 1)) (hat : node.parent = parent)
    (hchildren : node.children = below.tops) :
    Linked ⟨node :: below.nodes, [first]⟩ parent first := by
  have hne : parent ≠ some first := fun hsome => absurd (hparent first hsome) (lt_irrefl _)
  have hcons : ∀ number, parent ≠ some number →
      hangingAt (some number) first (node :: below.nodes) =
        hangingAt (some number) (first + 1) below.nodes := by
    intro number hnumber
    rw [hangingAt_cons, if_neg (hat.trans_ne hnumber)]
  constructor
  · -- What hangs at the node hangs in the listing now.
    intro other hother
    rw [List.length_cons]
    rcases List.mem_cons.mp hother with rfl | hother
    · exact .inl hat
    · rcases hbelow.parent_eq other hother with hfirst | ⟨number, hnumber, hle, hlt⟩
      · exact .inr ⟨first, hfirst, le_rfl, by omega⟩
      · exact .inr ⟨number, hnumber, by omega, by omega⟩
  · have hnil : hangingAt parent (first + 1) below.nodes = [] :=
      hbelow.hangingAt_eq_nil hne.symm fun number hnumber =>
        .inl (Nat.lt_succ_of_lt (hparent number hnumber))
    rw [hangingAt_cons, if_pos hat, hnil]
  · intro index other hother
    cases index with
    | zero =>
      obtain rfl := Option.some.inj hother
      exact (hchildren.trans hbelow.tops_eq).trans (hcons first hne).symm
    | succ index =>
      have hafter : parent ≠ some (first + (index + 1)) := fun hsome =>
        absurd (hparent _ hsome) (by omega)
      rw [hcons _ hafter, hbelow.children_eq index other hother, Nat.add_right_comm, Nat.add_assoc]

end Listing

theorem linked_listForest (hparent : ∀ number ∈ parent, number < first)
    (h : ∀ tree ∈ forest, ∀ first, (∀ number ∈ parent, number < first) →
      (listTree source rule first parent above tree).Linked parent first) :
    (listForest source rule first parent above forest).Linked parent first := by
  induction forest generalizing first with
  | nil => exact ⟨nofun, rfl, nofun⟩
  | cons tree rest ih =>
    rw [List.forall_mem_cons] at h
    refine (h.1 first hparent).append hparent (ih (fun number hnumber => ?_) h.2)
    exact Nat.lt_add_right _ (hparent number hnumber)

/-- In the listing of a tree the children of each node are those that hang at it. -/
theorem linked_listTree (tree : ParseTree) : ∀ (above : List Node) (parent : Option Nat)
    (first : Nat), (∀ number ∈ parent, number < first) →
      (listTree source rule first parent above tree).Linked parent first := by
  induction tree using ParseTree.induction with
  | node label children ih =>
    intro above parent first hparent
    have hbelow : ∀ (parent : Option Nat) (first : Nat), (∀ number ∈ parent, number < first) →
        (listForest source rule first parent (label :: above) children).Linked parent first :=
      fun parent first hparent => linked_listForest hparent fun child hchild first =>
        ih child hchild (label :: above) parent first
    rw [listTree]
    cases hnamed : label.isNamed with
    | false => exact hbelow parent first hparent
    | true =>
      -- Below the node it is itself the parent, and its number is smaller than all others there.
      refine Listing.Linked.cons hparent (hbelow (some first) (first + 1) ?_) rfl rfl
      rintro number ⟨rfl⟩
      exact Nat.lt_succ_self _

end SyntaxTree

end ExactEdit
