import ExactEdit.Text.Blank
import ExactEdit.Text.Offset

/-! # Parse trees

A parser outside this library turns a text into a parse tree. Its nodes have a kind, flags, a
byte range, and sometimes the name of the field under which their parent holds them. A parser
that recovers from an error leaves error nodes and missing nodes in the tree.

## Main definitions

* `Node`, `ParseTree` — a node's own facts, and the tree
* `ParseTree.childByField?`, `ParseTree.lastNamedChild?` — children by role
* `ParseTree.ofRows` — the trees of a pre-order list with depths
-/

namespace ExactEdit

/-- The field names under which the scope rules look up children. -/
inductive FieldName where
  | name
  | type
  | body
  | declarator
  | value
  | property
  deriving DecidableEq, Repr, Inhabited

/-- What a parser says of one node, its children apart. A node `hasError` if it or a node below
it is an error or missing. -/
structure Node where
  kind : String
  isNamed : Bool
  isMissing : Bool
  isError : Bool
  hasError : Bool
  range : ByteRange
  field : Option FieldName
  deriving DecidableEq, Repr, Inhabited

/-- A node with its children in order. -/
inductive ParseTree where
  | node (label : Node) (children : List ParseTree)
  deriving Repr, Inhabited

namespace ParseTree

/-- What the parser says of the root. -/
def label : ParseTree → Node
  | node label _ => label

/-- The trees right below the root. -/
def children : ParseTree → List ParseTree
  | node _ children => children

mutual

/-- Number of nodes of a tree. -/
def size : ParseTree → Nat
  | node _ children => forestSize children + 1

/-- Number of nodes of some trees. -/
def forestSize : List ParseTree → Nat
  | [] => 0
  | tree :: rest => tree.size + forestSize rest

end

theorem forestSize_append (left right : List ParseTree) :
    forestSize (left ++ right) = forestSize left + forestSize right := by
  induction left with
  | nil => simp [forestSize]
  | cons tree rest ih => simp [forestSize, ih, Nat.add_assoc]

theorem size_le_of_mem {tree : ParseTree} {forest : List ParseTree} (h : tree ∈ forest) :
    tree.size ≤ forestSize forest := by
  induction forest with
  | nil => cases h
  | cons first rest ih =>
    rcases List.mem_cons.mp h with rfl | later
    · simp [forestSize]
    · have := ih later
      simp only [forestSize]
      omega

theorem size_eq (tree : ParseTree) : tree.size = forestSize tree.children + 1 := by
  cases tree
  simp [size, children]

/-- A child is smaller than its parent. -/
theorem size_lt_of_mem_children {child parent : ParseTree} (h : child ∈ parent.children) :
    child.size < parent.size := by
  have := size_le_of_mem h
  have := parent.size_eq
  omega

/-- The first child held under a field. -/
def childByField? (tree : ParseTree) (field : FieldName) : Option ParseTree :=
  tree.children.find? fun child => child.label.field = some field

/-- The last child that is named. -/
def lastNamedChild? (tree : ParseTree) : Option ParseTree :=
  tree.children.reverse.find? fun child => child.label.isNamed

theorem childByField?_mem {tree child : ParseTree} {field : FieldName}
    (h : tree.childByField? field = some child) : child ∈ tree.children :=
  List.mem_of_find?_eq_some h

theorem lastNamedChild?_mem {tree child : ParseTree} (h : tree.lastNamedChild? = some child) :
    child ∈ tree.children :=
  List.mem_reverse.mp (List.mem_of_find?_eq_some h)

/-- Puts a row in front of the trees read behind it: those that are deeper become its
children. -/
def addRow (row : Nat × Node) (read : List (Nat × ParseTree)) : List (Nat × ParseTree) :=
  let below := read.takeWhile fun tree => row.1 < tree.1
  (row.1, node row.2 (below.map (·.2))) :: read.drop below.length

/-- The trees of a pre-order list of nodes with their depths. -/
def ofRows (rows : List (Nat × Node)) : List ParseTree :=
  (rows.foldr addRow []).map (·.2)

/-- The tree of a text that the parser found nothing in: a named root alone. -/
def bare (kind : String) (size : Nat) : ParseTree :=
  node ⟨kind, true, false, false, false, ⟨0, size⟩, none⟩ []

end ParseTree

/-- The text of a node without outer blanks; none if its range does not cut the text at characters,
or if nothing is left. -/
def Node.text? (node : Node) (chars : List Char) : Option (List Char) := do
  let text := Text.trim (← Text.slice? node.range chars)
  if text.isEmpty then none else some text

end ExactEdit
