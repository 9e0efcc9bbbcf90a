import ExactEdit.Proofs.Syntax.Path
import Mathlib.Logic.Relation

/-! # Subtrees

A subtree of a tree is the tree itself or a subtree of one of its children. Each node of a tree is
the root of one, and the nodes below it are the rest of that subtree, so a property of all nodes, or
of all nodes below one, is a property of subtrees. Paths lead to all of them and to nothing else.

## Main definitions

* `ParseTree.Holds` — a tree has another as a subtree
* `ParseTree.all` — whether all subtrees pass a test

## Main results

* `ParseTree.forall_holds_node_iff` — what holds of all subtrees, by the root and the children
* `ParseTree.all_eq_true_iff` — a test of all subtrees decides
* `ParseTree.holds_iff_exists_follow?` — the subtrees are what paths lead to
-/

namespace ExactEdit.ParseTree

open Relation

variable {tree found : ParseTree} {above aboveFound : List Node} {path : List Nat} {step : Nat}
variable {label : Node} {children : List ParseTree}

/-- Whether a tree has another as a subtree: it is that one, or a child has it. -/
def Holds (tree found : ParseTree) : Prop :=
  ReflTransGen (fun parent child : ParseTree => child ∈ parent.children) tree found

theorem holds_iff : tree.Holds found ↔ found = tree ∨ ∃ child ∈ tree.children, child.Holds found :=
  ReflTransGen.cases_head_iff.trans (or_congr_left eq_comm)

theorem holds_self (tree : ParseTree) : tree.Holds tree := .refl

theorem Holds.of_child {child : ParseTree} (hchild : child ∈ tree.children)
    (h : child.Holds found) : tree.Holds found :=
  .head hchild h

/-- What holds of all subtrees holds of the tree and of all subtrees of its children. -/
theorem forall_holds_node_iff {motive : ParseTree → Prop} :
    (∀ found, (ParseTree.node label children).Holds found → motive found) ↔
      motive (.node label children) ∧
        ∀ child ∈ children, ∀ found, child.Holds found → motive found := by
  constructor
  · intro h
    exact ⟨h _ (holds_self _), fun child hchild found hfound => h found (.of_child hchild hfound)⟩
  · intro h found hfound
    rcases holds_iff.mp hfound with rfl | ⟨child, hchild, hbelow⟩
    · exact h.1
    · exact h.2 child hchild found hbelow

/-! ## Testing all subtrees -/

mutual

/-- Whether all subtrees of a tree pass a test. -/
def all (test : ParseTree → Bool) : ParseTree → Bool
  | .node label children => test (.node label children) && allBelow test children

/-- Whether all subtrees of some trees pass a test. -/
def allBelow (test : ParseTree → Bool) : List ParseTree → Bool
  | [] => true
  | tree :: rest => tree.all test && allBelow test rest

end

theorem allBelow_eq_true_iff {test : ParseTree → Bool} :
    allBelow test children = true ↔ ∀ child ∈ children, child.all test = true := by
  induction children with
  | nil => simp [allBelow]
  | cons tree rest ih => rw [allBelow, Bool.and_eq_true, ih, List.forall_mem_cons]

theorem all_eq_true_iff {test : ParseTree → Bool} (tree : ParseTree) :
    tree.all test = true ↔ ∀ found, tree.Holds found → test found = true := by
  induction tree using ParseTree.induction with
  | node label children ih =>
    rw [all, Bool.and_eq_true, allBelow_eq_true_iff, forall_holds_node_iff]
    exact and_congr_right fun _ => forall₂_congr ih

instance {motive : ParseTree → Prop} [DecidablePred motive] :
    Decidable (∀ found, tree.Holds found → motive found) :=
  decidable_of_iff (tree.all fun found => decide (motive found)) <|
    (all_eq_true_iff tree).trans <| forall₂_congr fun _ _ => decide_eq_true_iff

instance {motive : ParseTree → Prop} [DecidablePred motive] :
    Decidable (∃ found, tree.Holds found ∧ motive found) :=
  decidable_of_iff (¬ ∀ found, tree.Holds found → ¬ motive found) (by simp)

/-! ## Paths -/

/-- Subtrees are what paths lead to. -/
theorem holds_iff_exists_follow? (above : List Node) :
    tree.Holds found ↔ ∃ path aboveFound, tree.follow? path above = some (aboveFound, found) := by
  constructor
  · intro h
    induction h using ReflTransGen.head_induction_on generalizing above with
    | refl => exact ⟨[], above, rfl⟩
    | @head tree child hchild _ ih =>
      obtain ⟨step, hstep⟩ := List.getElem?_of_mem hchild
      obtain ⟨path, aboveFound, hfollow⟩ := ih (tree.label :: above)
      refine ⟨step :: path, aboveFound, ?_⟩
      rw [follow?, hstep]
      exact hfollow
  · rintro ⟨path, aboveFound, hfollow⟩
    induction path generalizing above tree with
    | nil =>
      obtain ⟨-, rfl⟩ := Prod.mk.inj (Option.some.inj hfollow)
      exact holds_self _
    | cons step path ih =>
      rw [follow?] at hfollow
      split at hfollow
      · next child hchild => exact .of_child (List.mem_of_getElem? hchild) (ih _ hfollow)
      · cases hfollow

end ExactEdit.ParseTree
