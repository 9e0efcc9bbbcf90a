import ExactEdit.Proofs.Syntax.Path
import ExactEdit.Syntax.Cursor
import Mathlib.Logic.Relation

/-! # A walk lists its tree

The loop over a cursor and the recursion over a tree list the same nodes. The loop has one list for
all of the tree, and a node in it gets its children one by one, from the turns in which the loop
comes to them; so a walk through a subtree is put beside the listing of that subtree whatever was
listed before, and whatever is around the subtree.

## Main definitions

* `SyntaxTree.Listing.behind` — a listing behind what was listed before
* `SyntaxTree.Walk.Reaches` — some turns of the loop lead from one state to another
* `SyntaxTree.Walk.GoesThrough` — the loop comes to a subtree, lists it and leaves it

## Main results

* `SyntaxTree.Listing.behind_listForest_cons`, `SyntaxTree.Listing.behind_listTree` — what one
  subtree adds to what was listed before
* `SyntaxTree.Walk.goesThrough` — the loop goes through every subtree
* `SyntaxTree.Walk.reaches_end` — the loop ends, with the nodes of the syntax tree
-/

namespace ExactEdit.SyntaxTree

open Relation

variable {source : Source} {rule : List Node → ParseTree → Option Declaration}
variable {parent : Option Nat} {nodes more : List SyntaxNode} {front back : List Nat}
variable {label : Node} {tree : ParseTree} {children rest : List ParseTree}

/-! ## Entering children -/

@[simp]
theorem length_enter : (enter parent front nodes).length = nodes.length := by
  cases parent with
  | none => rfl
  | some number => exact List.length_modify ..

@[simp]
theorem enter_nil : enter parent [] nodes = nodes := by
  cases parent with
  | none => rfl
  | some number =>
    rw [enter, show (fun node : SyntaxNode => { node with children := node.children ++ [] }) = id
      from funext fun node => by rw [List.append_nil, id]]
    exact List.modify_id number nodes

/-- Children are entered in turn. -/
theorem enter_append :
    enter parent (front ++ back) nodes = enter parent back (enter parent front nodes) := by
  cases parent with
  | none => rfl
  | some number => simp only [enter, List.modify_modify_eq, Function.comp_def, List.append_assoc]

/-- A parent among the first nodes gets the children, whatever is listed behind. -/
theorem enter_append_left (h : ∀ number ∈ parent, number < nodes.length) :
    enter parent front (nodes ++ more) = enter parent front nodes ++ more := by
  cases parent with
  | none => rfl
  | some number =>
    have hnumber : number < nodes.length := h number rfl
    rw [enter, enter, List.modify_eq_take_cons_drop hnumber, List.modify_eq_take_cons_drop
      (by rw [List.length_append]; omega), List.take_append_of_le_length hnumber.le,
      List.drop_append_of_le_length hnumber, List.getElem_append_left hnumber]
    simp

/-- The last node gets the children. -/
theorem enter_concat {number : Nat} (h : nodes.length = number) (node : SyntaxNode) :
    enter (some number) front (nodes ++ [node]) =
      nodes ++ [{ node with children := node.children ++ front }] := by
  subst h
  rw [enter, List.modify_eq_take_cons_drop (by simp)]
  simp

/-! ## Listings one behind another -/

namespace Listing

/-- A listing behind what was listed before: the nodes without a parent in it are entered at one
that was listed before. -/
def behind (listing : Listing) (parent : Option Nat) (nodes : List SyntaxNode) : List SyntaxNode :=
  enter parent listing.tops nodes ++ listing.nodes

theorem length_behind (listing : Listing) :
    (listing.behind parent nodes).length = nodes.length + listing.nodes.length := by
  rw [behind, List.length_append, length_enter]

/-- What was listed before keeps its numbers. -/
theorem lt_length_behind (listing : Listing) (h : ∀ number ∈ parent, number < nodes.length) :
    ∀ number ∈ parent, number < (listing.behind parent nodes).length := by
  intro number hnumber
  rw [length_behind]
  exact Nat.lt_add_right _ (h number hnumber)

/-- Neighbouring trees are listed one behind another. -/
theorem behind_listForest_cons (above : List Node) (h : ∀ number ∈ parent, number < nodes.length) :
    (listForest source rule nodes.length parent above (tree :: rest)).behind parent nodes =
      let listed := (listTree source rule nodes.length parent above tree).behind parent nodes
      (listForest source rule listed.length parent above rest).behind parent listed := by
  dsimp only
  rw [length_behind, listForest, behind, behind, behind, enter_append,
    enter_append_left (by rwa [length_enter]), List.append_assoc]

/-- A named node is entered at its parent, and the trees below it are listed behind. -/
theorem behind_listTree (above : List Node) (h : ∀ number ∈ parent, number < nodes.length)
    (hnamed : label.isNamed = true) :
    (listTree source rule nodes.length parent above (.node label children)).behind parent nodes =
      let node := listed source rule parent above (.node label children)
      let entered := enter parent [nodes.length] (nodes ++ [node])
      (listForest source rule entered.length (some nodes.length) (label :: above) children).behind
        (some nodes.length) entered := by
  dsimp only
  rw [listTree, if_pos hnamed, length_enter, List.length_append, behind, behind,
    enter_append_left h, enter_concat length_enter, List.append_assoc]
  rfl

end Listing

/-! ## Turns of the loop -/

namespace Walk

variable {frames : List Frame} {before : List ParseTree} {path : List (Option Nat)}
variable {here : Option Nat}

/-- Some turns of the loop lead from one state to another. -/
def Reaches (source : Source) (rule : List Node → ParseTree → Option Declaration) :
    Walk → Walk → Prop :=
  ReflTransGen fun walk turned => walk.next? source rule = some turned

theorem list_of_named (frames : List Frame) (path : List (Option Nat)) (nodes : List SyntaxNode)
    (hnamed : label.isNamed = true) :
    list source rule ⟨.coming, ⟨.node label children, frames⟩, path, nodes⟩ =
      (some nodes.length, enter path.head?.join [nodes.length] (nodes ++
        [listed source rule path.head?.join (frames.map (·.label)) (.node label children)])) :=
  if_pos hnamed

theorem list_of_not_named (frames : List Frame) (path : List (Option Nat))
    (nodes : List SyntaxNode) (hnamed : label.isNamed = false) :
    list source rule ⟨.coming, ⟨.node label children, frames⟩, path, nodes⟩ =
      (path.head?.join, nodes) :=
  if_neg (by simp [ParseTree.label, hnamed])

/-- The loop goes through a subtree: it comes to it with some nodes listed, and leaves it with the
listing of the subtree behind them. -/
def GoesThrough (source : Source) (rule : List Node → ParseTree → Option Declaration)
    (tree : ParseTree) : Prop :=
  ∀ (frames : List Frame) (path : List (Option Nat)) (nodes : List SyntaxNode),
    (∀ number ∈ path.head?.join, number < nodes.length) →
    Reaches source rule ⟨.coming, ⟨tree, frames⟩, path, nodes⟩
      ⟨.leaving, ⟨tree, frames⟩, path,
        (listTree source rule nodes.length path.head?.join (frames.map (·.label)) tree).behind
          path.head?.join nodes⟩

/-- From a child that it leaves, the loop goes through the later siblings and leaves the parent. -/
theorem reaches_leaving_parent (hrest : ∀ sibling ∈ rest, GoesThrough source rule sibling)
    (hhere : ∀ number ∈ here, number < nodes.length) :
    Reaches source rule ⟨.leaving, ⟨tree, ⟨label, before, rest⟩ :: frames⟩, here :: path, nodes⟩
      ⟨.leaving, ⟨.node label (before.reverse ++ tree :: rest), frames⟩, path,
        (listForest source rule nodes.length here (label :: frames.map (·.label)) rest).behind
          here nodes⟩ := by
  induction rest generalizing tree before nodes with
  | nil =>
    refine .single ?_
    simp [next?, Cursor.nextSibling?, Cursor.parent?, listForest, Listing.behind]
  | cons sibling rest ih =>
    rw [List.forall_mem_cons] at hrest
    -- What was a sibling behind is now where the loop stands, and the child left is in front of it.
    have hsibling := hrest.1 (⟨label, tree :: before, rest⟩ :: frames) (here :: path) nodes hhere
    have hparent : .node label (before.reverse ++ tree :: sibling :: rest) =
        ParseTree.node label ((tree :: before).reverse ++ sibling :: rest) := by simp
    rw [Listing.behind_listForest_cons _ hhere, hparent]
    refine .head rfl (hsibling.trans ?_)
    exact ih hrest.2 (Listing.lt_length_behind _ hhere)

/-- With a node listed or passed over, the loop goes through what is below it. -/
theorem reaches_leaving_of_list {listed : List SyntaxNode}
    (hlist : list source rule ⟨.coming, ⟨.node label children, frames⟩, path, nodes⟩ =
      (here, listed))
    (hhere : ∀ number ∈ here, number < listed.length)
    (hchildren : ∀ child ∈ children, GoesThrough source rule child) :
    Reaches source rule ⟨.coming, ⟨.node label children, frames⟩, path, nodes⟩
      ⟨.leaving, ⟨.node label children, frames⟩, path,
        (listForest source rule listed.length here (label :: frames.map (·.label))
          children).behind here listed⟩ := by
  cases children with
  | nil =>
    refine .single ?_
    simp [next?, hlist, Cursor.firstChild?, listForest, Listing.behind]
  | cons child rest =>
    rw [List.forall_mem_cons] at hchildren
    have hfirst : next? source rule ⟨.coming, ⟨.node label (child :: rest), frames⟩, path, nodes⟩ =
        some ⟨.coming, ⟨child, ⟨label, [], rest⟩ :: frames⟩, here :: path, listed⟩ := by
      simp only [next?, hlist, Cursor.firstChild?]
    have hchild := hchildren.1 (⟨label, [], rest⟩ :: frames) (here :: path) listed hhere
    rw [Listing.behind_listForest_cons _ hhere]
    refine .head hfirst (hchild.trans ?_)
    exact reaches_leaving_parent hchildren.2 (Listing.lt_length_behind _ hhere)

/-- The loop goes through every tree. -/
theorem goesThrough (tree : ParseTree) : GoesThrough source rule tree := by
  induction tree using ParseTree.induction with
  | node label children ih =>
    intro frames path nodes hparent
    cases hnamed : label.isNamed with
    | true =>
      -- Those below are entered at the number of this node, which is listed by then.
      rw [Listing.behind_listTree _ hparent hnamed]
      refine reaches_leaving_of_list (list_of_named frames path nodes hnamed) ?_ ih
      rintro number ⟨rfl⟩
      simp
    | false =>
      -- Those below are entered where this node would have been.
      rw [listTree, if_neg (by simp [hnamed])]
      exact reaches_leaving_of_list (list_of_not_named frames path nodes hnamed) hparent ih

/-- The loop ends, and has listed the nodes of the syntax tree. -/
theorem reaches_end (source : Source) (rule : List Node → ParseTree → Option Declaration)
    (tree : ParseTree) :
    ∃ walk, Reaches source rule (start tree) walk ∧ walk.next? source rule = none ∧
      walk.nodes = (listTree source rule 0 none [] tree).nodes :=
  -- Leaving the root there is no sibling and no parent to go to.
  ⟨_, goesThrough tree [] [] [] nofun, rfl, rfl⟩

end Walk

end ExactEdit.SyntaxTree
