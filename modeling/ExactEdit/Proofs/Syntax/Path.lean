import ExactEdit.Syntax.ParseTree
import Mathlib.Data.List.Basic
import Mathlib.Data.List.Infix
import Mathlib.Data.List.Lex

/-! # Paths in a tree

Every node of a tree has a path, which says which child to take at each step from the root. The
nodes above a node are those at the prefixes of its path, and the order in which a reader meets the
nodes is the lexicographic order of their paths.

## Main definitions

* `ParseTree.follow?` — the tree at the end of a path, and the nodes above it
* `Place`, `Place.IsIn` — a path with what it leads to
* `ParseTree.places` — the places of a tree
* `IsAbove` — a path leads to a node above the end of another

## Main results

* `ParseTree.follow?_append`, `ParseTree.exists_of_follow?_concat` — longer paths
* `ParseTree.mem_places_iff` — the places of a tree are all of its places
* `ParseTree.pairwise_places` — they are listed in the order of their paths
-/

namespace ExactEdit

variable {above aboveFound : List Node} {tree found : ParseTree} {forest : List ParseTree}
variable {path : List Nat} {step : Nat}

namespace ParseTree

/-- The tree at the end of a path, and the nodes above it, nearest first. -/
def follow? : List Nat → List Node → ParseTree → Option (List Node × ParseTree)
  | [], above, tree => some (above, tree)
  | step :: path, above, tree =>
    match tree.children[step]? with
    | some child => follow? path (tree.label :: above) child
    | none => none

/-- What holds of a tree if it holds of all its children holds of every tree. -/
theorem induction {motive : ParseTree → Prop}
    (node : ∀ label children, (∀ child ∈ children, motive child) → motive (.node label children)) :
    ∀ tree, motive tree
  | .node label children => node label children fun child hchild =>
    have : child.size < (ParseTree.node label children).size := size_lt_of_mem_children hchild
    induction node child
termination_by tree => tree.size

/-- A path goes on from where its front leads. -/
theorem follow?_append (front back : List Nat) (above : List Node) (tree : ParseTree) :
    tree.follow? (front ++ back) above =
      (tree.follow? front above).bind fun reached => reached.2.follow? back reached.1 := by
  induction front generalizing above tree with
  | nil => rfl
  | cons step front ih =>
    rw [List.cons_append, follow?, follow?]
    cases tree.children[step]? with
    | none => rfl
    | some child => exact ih _ child

/-- A path that is one step longer leads to a child. -/
theorem exists_of_follow?_concat
    (h : tree.follow? (path ++ [step]) above = some (aboveFound, found)) :
    ∃ aboveParent parent, tree.follow? path above = some (aboveParent, parent) ∧
      found ∈ parent.children ∧ aboveFound = parent.label :: aboveParent := by
  rw [follow?_append, Option.bind_eq_some_iff] at h
  obtain ⟨⟨aboveParent, parent⟩, hparent, hlast⟩ := h
  rw [follow?] at hlast
  split at hlast
  · next child hchild =>
    obtain ⟨rfl, rfl⟩ := Prod.mk.inj (Option.some.inj hlast)
    exact ⟨aboveParent, parent, hparent, List.mem_of_getElem? hchild, rfl⟩
  · cases hlast

/-- The nodes above the end of a path begin with those above its start. -/
theorem suffix_of_follow? (h : tree.follow? path above = some (aboveFound, found)) :
    above <:+ aboveFound := by
  induction path generalizing above tree with
  | nil =>
    obtain ⟨rfl, -⟩ := Prod.mk.inj (Option.some.inj h)
    exact List.suffix_rfl
  | cons step path ih =>
    rw [follow?] at h
    split at h
    · next child _ => exact (List.suffix_cons _ _).trans (ih h)
    · cases h

end ParseTree

/-! ## Places -/

/-- A place in a tree: its path, the nodes above it, nearest first, and the tree there. -/
structure Place where
  path : List Nat
  above : List Node
  tree : ParseTree

namespace Place

/-- The place in a child as one in its parent. -/
def under (step : Nat) (place : Place) : Place := { place with path := step :: place.path }

/-- Whether a place is one of a tree below some nodes. -/
def IsIn (place : Place) (above : List Node) (tree : ParseTree) : Prop :=
  tree.follow? place.path above = some (place.above, place.tree)

end Place

namespace ParseTree

mutual

/-- The places of a tree, each in front of those below it. -/
def places (above : List Node) : ParseTree → List Place
  | .node label children =>
    ⟨[], above, .node label children⟩ :: placesBelow (label :: above) 0 children

/-- The places of the children of a node from a number on. -/
def placesBelow (above : List Node) (step : Nat) : List ParseTree → List Place
  | [] => []
  | tree :: rest => (places above tree).map (Place.under step) ++ placesBelow above (step + 1) rest

end

theorem mem_placesBelow_iff {place : Place} :
    place ∈ placesBelow above step forest ↔ ∃ index child, forest[index]? = some child ∧
      ∃ below ∈ places above child, place = below.under (step + index) := by
  induction forest generalizing step with
  | nil => simp [placesBelow]
  | cons tree rest ih =>
    rw [placesBelow, List.mem_append, List.mem_map, ih]
    constructor
    · rintro (⟨below, hbelow, rfl⟩ | ⟨index, child, hchild, below, hbelow, rfl⟩)
      · exact ⟨0, tree, rfl, below, hbelow, rfl⟩
      · exact ⟨index + 1, child, hchild, below, hbelow, by rw [Nat.add_right_comm, Nat.add_assoc]⟩
    · rintro ⟨index, child, hchild, below, hbelow, rfl⟩
      cases index with
      | zero =>
        obtain rfl := Option.some.inj hchild
        exact .inl ⟨below, hbelow, rfl⟩
      | succ index =>
        exact .inr ⟨index, child, hchild, below, hbelow, by rw [Nat.add_right_comm, Nat.add_assoc]⟩

/-- A place in a tree is its root, or one in a child. -/
theorem isIn_node_iff {label : Node} {children : List ParseTree} {place : Place} :
    place.IsIn above (.node label children) ↔
      place = ⟨[], above, .node label children⟩ ∨
      ∃ index child, children[index]? = some child ∧
        ∃ below : Place, below.IsIn (label :: above) child ∧ place = below.under index := by
  obtain ⟨path, aboveFound, found⟩ := place
  constructor
  · intro hfollow
    cases path with
    | nil =>
      obtain ⟨rfl, rfl⟩ := Prod.mk.inj (Option.some.inj hfollow)
      exact .inl rfl
    | cons step path =>
      rw [Place.IsIn, follow?] at hfollow
      split at hfollow
      · next child hchild =>
        exact .inr ⟨step, child, hchild, ⟨path, aboveFound, found⟩, hfollow, rfl⟩
      · cases hfollow
  · rintro (hroot | ⟨index, child, hchild, below, hbelow, hplace⟩)
    · rw [hroot]
      rfl
    · rw [hplace, Place.IsIn, Place.under, follow?,
        show (ParseTree.node label children).children = children from rfl, hchild]
      exact hbelow

/-- The places of a tree are all of its places. -/
theorem mem_places_iff (tree : ParseTree) : ∀ (above : List Node) (place : Place),
    place ∈ places above tree ↔ place.IsIn above tree := by
  induction tree using ParseTree.induction with
  | node label children ih =>
    intro above place
    rw [places, List.mem_cons, mem_placesBelow_iff, isIn_node_iff]
    refine or_congr_right (exists₂_congr fun index child => and_congr_right fun hchild => ?_)
    rw [Nat.zero_add]
    refine exists_congr fun below => and_congr_left fun _ => ?_
    exact ih child (List.mem_of_getElem? hchild) (label :: above) below

/-! ## Order -/

theorem exists_path_of_mem_placesBelow {place : Place}
    (h : place ∈ placesBelow above step forest) :
    ∃ first path, place.path = first :: path ∧ step ≤ first := by
  obtain ⟨index, child, -, below, -, rfl⟩ := mem_placesBelow_iff.mp h
  exact ⟨step + index, below.path, rfl, Nat.le_add_right _ _⟩

theorem pairwise_placesBelow (h : ∀ tree ∈ forest, (places above tree).Pairwise (·.path < ·.path)) :
    (placesBelow above step forest).Pairwise (·.path < ·.path) := by
  induction forest generalizing step with
  | nil => exact .nil
  | cons tree rest ih =>
    rw [List.forall_mem_cons] at h
    rw [placesBelow, List.pairwise_append, List.pairwise_map]
    refine ⟨?_, ih h.2, ?_⟩
    · refine h.1.imp fun hlt => ?_
      exact List.cons_lt_cons_iff.mpr (.inr ⟨rfl, hlt⟩)
    · -- Below different children the first step decides.
      intro place hplace other hother
      obtain ⟨below, -, rfl⟩ := List.mem_map.mp hplace
      obtain ⟨first, path, hpath, hle⟩ := exists_path_of_mem_placesBelow hother
      rw [hpath]
      exact List.cons_lt_cons_iff.mpr (.inl (by omega))

/-- The places of a tree are listed in the order of their paths. -/
theorem pairwise_places (tree : ParseTree) : ∀ above : List Node,
    (places above tree).Pairwise (·.path < ·.path) := by
  induction tree using ParseTree.induction with
  | node label children ih =>
    intro above
    rw [places, List.pairwise_cons]
    refine ⟨fun other hother => ?_, ?_⟩
    · obtain ⟨first, path, hpath, -⟩ := exists_path_of_mem_placesBelow hother
      rw [hpath]
      exact List.nil_lt_cons _ _
    · exact pairwise_placesBelow fun child hchild => ih child hchild (label :: above)

end ParseTree

/-! ## Paths above others -/

/-- Whether a path leads to a node above the end of another. -/
def IsAbove (outer inner : List Nat) : Prop := outer <+: inner ∧ outer ≠ inner

instance (outer inner : List Nat) : Decidable (IsAbove outer inner) :=
  inferInstanceAs (Decidable (outer <+: inner ∧ outer ≠ inner))

theorem IsAbove.lt {outer inner : List Nat} (h : IsAbove outer inner) : outer < inner := by
  obtain ⟨⟨rest, rfl⟩, hne⟩ := h
  induction outer with
  | nil =>
    obtain ⟨step, rest, rfl⟩ := List.exists_cons_of_ne_nil (Ne.symm hne)
    exact List.nil_lt_cons _ _
  | cons step outer ih =>
    exact List.cons_lt_cons_iff.mpr (.inr ⟨rfl, ih fun h => hne (congrArg (step :: ·) h)⟩)

theorem not_prefix_of_lt {earlier later : List Nat} (h : earlier < later) :
    ¬ later <+: earlier := by
  intro hbegins
  by_cases heq : later = earlier
  · exact lt_irrefl _ (heq ▸ h)
  · exact lt_asymm h (IsAbove.lt ⟨hbegins, heq⟩)

theorem isAbove_cons_iff {first second : Nat} {outer inner : List Nat} :
    IsAbove (first :: outer) (second :: inner) ↔ first = second ∧ IsAbove outer inner := by
  rw [IsAbove, IsAbove, List.cons_prefix_cons, ne_eq, List.cons.injEq]
  constructor
  · rintro ⟨⟨rfl, hbegins⟩, hne⟩
    exact ⟨rfl, hbegins, fun h => hne ⟨rfl, h⟩⟩
  · rintro ⟨rfl, hbegins, hne⟩
    exact ⟨⟨rfl, hbegins⟩, fun h => hne h.2⟩

theorem isAbove_nil_cons : IsAbove [] (step :: path) := ⟨⟨_, rfl⟩, (List.cons_ne_nil _ _).symm⟩

theorem not_isAbove_nil : ¬ IsAbove path [] :=
  fun ⟨hbegins, hne⟩ => hne (List.prefix_nil.mp hbegins)

theorem isAbove_concat_iff {outer inner : List Nat} :
    IsAbove outer (inner ++ [step]) ↔ outer <+: inner := by
  rw [IsAbove, List.prefix_concat_iff]
  constructor
  · rintro ⟨heq | hbegins, hne⟩
    · exact absurd heq hne
    · exact hbegins
  · intro hbegins
    refine ⟨.inr hbegins, ?_⟩
    rintro rfl
    exact absurd hbegins.length_le (by simp)

end ExactEdit
