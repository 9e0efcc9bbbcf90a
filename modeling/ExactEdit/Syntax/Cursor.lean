import ExactEdit.Syntax.Tree

/-! # Walking a tree with a cursor

A parser hands out its tree through a cursor. The cursor stands at one node, and can move to the
first child of that node, to its next sibling and to its parent, but not above the node it started
from. The named nodes of a tree are listed in one loop over such a cursor, so that a deep tree needs
no deep recursion: the loop remembers, for every level that it went down, the nearest node listed
so far, and a node that is listed enters its own number at that one.

## Main definitions

* `Cursor` — a node of a tree with all that is around it, and the moves from there
* `Walk` — where the loop stands and what it has listed
* `Walk.next?` — one turn of the loop
-/

namespace ExactEdit

/-- What is around a tree right below its parent: what the parser says of the parent, and the
siblings in front, nearest first, and behind. -/
structure Frame where
  label : Node
  before : List ParseTree
  after : List ParseTree

/-- A node of a tree, as the tree below it and what is around that, innermost first. -/
structure Cursor where
  focus : ParseTree
  frames : List Frame

namespace Cursor

/-- The nodes above a cursor, nearest first. -/
def above (cursor : Cursor) : List Node := cursor.frames.map (·.label)

/-- The first child. -/
def firstChild? : Cursor → Option Cursor
  | ⟨.node label (child :: rest), frames⟩ => some ⟨child, ⟨label, [], rest⟩ :: frames⟩
  | ⟨.node _ [], _⟩ => none

/-- The next sibling. The node that the cursor started from has none. -/
def nextSibling? : Cursor → Option Cursor
  | ⟨focus, ⟨label, before, sibling :: after⟩ :: frames⟩ =>
    some ⟨sibling, ⟨label, focus :: before, after⟩ :: frames⟩
  | _ => none

/-- The parent. The node that the cursor started from has none. -/
def parent? : Cursor → Option Cursor
  | ⟨focus, ⟨label, before, after⟩ :: frames⟩ =>
    some ⟨.node label (before.reverse ++ focus :: after), frames⟩
  | ⟨_, []⟩ => none

end Cursor

namespace SyntaxTree

/-- A node as it is listed: its children are entered later. -/
def listed (source : Source) (rule : List Node → ParseTree → Option Declaration)
    (parent : Option Nat) (above : List Node) (tree : ParseTree) : SyntaxNode :=
  { kind := tree.label.kind
    declared := rule above tree
    start := source.index.pointOf tree.label.range.start
    stop := source.index.pointOf tree.label.range.stop
    range := tree.label.range
    parent
    children := [] }

/-- Enters some nodes as children of a parent, if there is one. -/
def enter (parent : Option Nat) (children : List Nat) (nodes : List SyntaxNode) :
    List SyntaxNode :=
  match parent with
  | some parent =>
    nodes.modify parent fun node => { node with children := node.children ++ children }
  | none => nodes

/-- Whether the loop comes to a node for the first time, or leaves it with all that is below. -/
inductive Phase where
  | coming
  | leaving
  deriving DecidableEq

/-- The state of the loop. For every level above the cursor `path` has the nearest listed node,
innermost first. -/
structure Walk where
  phase : Phase
  cursor : Cursor
  path : List (Option Nat)
  nodes : List SyntaxNode

namespace Walk

/-- The loop begins at the root, with nothing listed. -/
def start (tree : ParseTree) : Walk := ⟨.coming, ⟨tree, []⟩, [], []⟩

/-- Lists the node at the cursor if it is named: the nearest listed node from there on down, and
all that is listed. -/
def list (source : Source) (rule : List Node → ParseTree → Option Declaration) (walk : Walk) :
    Option Nat × List SyntaxNode :=
  let parent := walk.path.head?.join
  if walk.cursor.focus.label.isNamed then
    let id := walk.nodes.length
    let node := listed source rule parent walk.cursor.above walk.cursor.focus
    (some id, enter parent [id] (walk.nodes ++ [node]))
  else (parent, walk.nodes)

/-- One turn of the loop; none when it ends. Coming to a node, it lists that and goes on to the
first child. Without a child the node is left, to its next sibling or to its parent. -/
def next? (source : Source) (rule : List Node → ParseTree → Option Declaration) (walk : Walk) :
    Option Walk :=
  match walk.phase with
  | .coming =>
    let (here, nodes) := walk.list source rule
    match walk.cursor.firstChild? with
    | some child => some ⟨.coming, child, here :: walk.path, nodes⟩
    | none => some ⟨.leaving, walk.cursor, walk.path, nodes⟩
  | .leaving =>
    match walk.cursor.nextSibling? with
    | some sibling => some ⟨.coming, sibling, walk.path, walk.nodes⟩
    | none =>
      match walk.cursor.parent? with
      | some parent => some ⟨.leaving, parent, walk.path.tail, walk.nodes⟩
      | none => none

end Walk

end SyntaxTree

end ExactEdit
