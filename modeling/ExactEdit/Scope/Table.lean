import ExactEdit.Syntax.Tree
import ExactEdit.Text.Line

/-! # Scope tables

A scope table lists the named scopes of a text in document order. A scope is known by its place
in the list, and its parent is the nearest scope that was declared above it. Lines and columns
are counted from one, columns in bytes.

## Main definitions

* `Scope`, `ScopeTable` — a scope and the list of all
* `ScopeTable.ofTree` — the scopes of a syntax tree
* `ScopeTable.find`, `ScopeTable.encloses` — look-up by name, and nesting by bytes
* `ScopeTable.innermost?` — the scope that a stretch of text is in
* `ScopeTable.qualifiedName` — the names from the outermost scope on
-/

namespace ExactEdit

/-- A named scope and its place. -/
structure Scope where
  kind : ScopeKind
  name : String
  startLine : Nat
  endLine : Nat
  startColumn : Nat
  endColumn : Nat
  range : ByteRange
  parent : Option Nat
  deriving DecidableEq, Repr, Inhabited

namespace Scope

/-- Whether the lines `first` to `last` are lines of the scope. -/
def containsLines (scope : Scope) (first last : Nat) : Bool :=
  scope.startLine ≤ first && last ≤ scope.endLine

/-- Whether the bytes are bytes of the scope. -/
def containsBytes (scope : Scope) (range : ByteRange) : Bool := scope.range.contains range

/-- Kind and name. -/
def describe (scope : Scope) : String := scope.kind.named scope.name

/-- Bytes of the last line of a text, not counting the terminator at the end of the text. -/
def lastLineWidth (chars : List Char) : Nat :=
  let content := match chars.reverse with
    | '\n' :: '\r' :: rest => rest
    | '\n' :: rest => rest
    | '\r' :: rest => rest
    | rest => rest
  Text.width (content.takeWhile (· != '\n'))

/-- Last line and column of a node. A node that ends at the start of a later row stops at the
terminator of the row before. -/
def lineEnd (source : Source) (node : SyntaxNode) : Nat × Nat :=
  if node.stop.column = 0 ∧ node.start.row < node.stop.row then
    (node.stop.row, lastLineWidth (Text.takeBytes node.range.stop source.chars) + 1)
  else (node.stop.row + 1, node.stop.column + 1)

/-- The scope that a node declares. -/
def ofNode (source : Source) (node : SyntaxNode) (declared : Declaration) (parent : Option Nat) :
    Scope :=
  let (endLine, endColumn) := lineEnd source node
  { kind := declared.kind
    name := declared.name
    startLine := node.start.row + 1
    endLine := max endLine (node.start.row + 1)
    startColumn := node.start.column + 1
    endColumn
    range := node.range
    parent }

end Scope

/-- The scopes of a text in document order. -/
structure ScopeTable where
  scopes : List Scope
  deriving DecidableEq, Repr, Inhabited

namespace ScopeTable

/-- The scopes found so far, last first, and for every node passed so far the scope that it
belongs to. -/
structure Building where
  found : List Scope
  count : Nat
  owners : Array (Option Nat)

/-- Passes one node. A node that declares a scope belongs to that scope, another to the scope of
its parent. -/
def Building.pass (source : Source) (building : Building) (node : SyntaxNode) : Building :=
  let owner := node.parent.bind fun parent => (building.owners[parent]?).getD none
  match node.declared with
  | some declared =>
    ⟨Scope.ofNode source node declared owner :: building.found, building.count + 1,
      building.owners.push (some building.count)⟩
  | none => { building with owners := building.owners.push owner }

/-- The scopes of a syntax tree. -/
def ofTree (tree : SyntaxTree) : ScopeTable :=
  ⟨(tree.nodes.foldl (Building.pass tree.source) ⟨[], 0, #[]⟩).found.reverse⟩

/-- The scope with a number. -/
def get? (table : ScopeTable) (id : Nat) : Option Scope := table.scopes[id]?

/-- Number of scopes. -/
def size (table : ScopeTable) : Nat := table.scopes.length

/-- Whether there are no scopes. -/
def isEmpty (table : ScopeTable) : Bool := table.scopes.isEmpty

/-- Numbers of the scopes that satisfy a condition, in document order. -/
def idsWhere (table : ScopeTable) (condition : Scope → Bool) : List Nat :=
  (table.scopes.zipIdx.filter fun entry => condition entry.1).map (·.2)

/-- Numbers of the scopes with this very kind and name. -/
def find (table : ScopeTable) (kind : ScopeKind) (name : String) : List Nat :=
  table.idsWhere fun scope => scope.kind == kind && scope.name == name

/-- Whether one scope holds all bytes of another. -/
def encloses (table : ScopeTable) (outer inner : Nat) : Bool :=
  match table.get? outer, table.get? inner with
  | some o, some i => outer != inner && o.containsBytes i.range
  | _, _ => false

/-- Whether the scope with this number contains the lines. -/
def containsLines (table : ScopeTable) (id first last : Nat) : Bool :=
  match table.get? id with
  | some scope => scope.containsLines first last
  | none => false

/-- Whether the scope with this number contains the bytes. -/
def containsBytes (table : ScopeTable) (id : Nat) (range : ByteRange) : Bool :=
  match table.get? id with
  | some scope => scope.containsBytes range
  | none => false

/-- The innermost scope around some lines: among those whose lines contain them, the last that
also holds the bytes, else the last. -/
def innermost? (table : ScopeTable) (first last : Nat) (range : ByteRange) : Option Nat :=
  let byLines := table.idsWhere fun scope => scope.containsLines first last
  match byLines.reverse.find? fun id => table.containsBytes id range with
  | some id => some id
  | none => byLines.getLast?

/-- The names of a scope and of the scopes above it, outermost first. A parent stands before its
scope, so at most `steps` steps up are taken from the scope with that number. -/
def namesUp (table : ScopeTable) : Nat → Option Nat → List String → List String
  | 0, _, names => names
  | _, none, names => names
  | steps + 1, some id, names =>
    match table.get? id with
    | some scope => namesUp table steps scope.parent (scope.name :: names)
    | none => names

/-- The names of the scopes around a scope and its own, joined by `::`. -/
def qualifiedName (table : ScopeTable) (id : Nat) : String :=
  String.intercalate "::" (table.namesUp table.size (some id) [])

end ScopeTable

end ExactEdit
