import ExactEdit.Scope.Declaration
import ExactEdit.Source.Basic
import ExactEdit.Syntax.Point

/-! # Syntax trees

A syntax tree keeps the named nodes of a parse tree in a list, in document order, with the
scopes they declare. A node is known by its place in the list; its parent is the nearest named
node above it. A text without a language has a tree of one node and no scopes.

## Main definitions

* `SyntaxNode`, `SyntaxTree` — the list of named nodes
* `SyntaxTree.ofParse` — the syntax tree of a parse tree
* `SyntaxTree.plain` — the tree of a text without a language
-/

namespace ExactEdit

/-- A named node with the scope it declares, its place, and its neighbours in the tree. -/
structure SyntaxNode where
  kind : String
  declared : Option Declaration
  start : Point
  stop : Point
  range : ByteRange
  parent : Option Nat
  children : List Nat
  deriving DecidableEq, Repr, Inhabited

/-- The named nodes of a text in document order. -/
structure SyntaxTree where
  language : Option Language
  source : Source
  nodes : List SyntaxNode
  hasErrors : Bool
  deriving Repr, Inhabited

namespace SyntaxTree

/-- Nodes that were listed, and the numbers of those among them that have no listed parent. -/
structure Listing where
  nodes : List SyntaxNode
  tops : List Nat

mutual

/-- Lists the named nodes of a tree. `first` is the number of the next node, `parent` that of
the nearest named node above, and `above` are all nodes above, nearest first. -/
def listTree (source : Source) (rule : List Node → ParseTree → Option Declaration)
    (first : Nat) (parent : Option Nat) (above : List Node) : ParseTree → Listing
  | .node label children =>
    if label.isNamed then
      let below := listForest source rule (first + 1) (some first) (label :: above) children
      let node : SyntaxNode :=
        { kind := label.kind
          declared := rule above (.node label children)
          start := source.index.pointOf label.range.start
          stop := source.index.pointOf label.range.stop
          range := label.range
          parent
          children := below.tops }
      ⟨node :: below.nodes, [first]⟩
    else listForest source rule first parent (label :: above) children

/-- Lists the named nodes of some neighbouring trees. -/
def listForest (source : Source) (rule : List Node → ParseTree → Option Declaration)
    (first : Nat) (parent : Option Nat) (above : List Node) : List ParseTree → Listing
  | [] => ⟨[], []⟩
  | tree :: rest =>
    let front := listTree source rule first parent above tree
    let back := listForest source rule (first + front.nodes.length) parent above rest
    ⟨front.nodes ++ back.nodes, front.tops ++ back.tops⟩

end

/-- The syntax tree of a parse tree. -/
def ofParse (language : Language) (source : Source) (parse : ParseTree) : SyntaxTree :=
  { language := some language
    source
    nodes := (listTree source (declaration? language source.chars) 0 none [] parse).nodes
    hasErrors := parse.label.hasError }

/-- The tree of a text without a language. -/
def plain (source : Source) : SyntaxTree :=
  { language := none
    source
    nodes :=
      [{ kind := "text"
         declared := none
         start := ⟨0, 0⟩
         stop := source.index.pointOf source.size
         range := ⟨0, source.size⟩
         parent := none
         children := [] }]
    hasErrors := false }

/-- Kind of the first node. -/
def rootKind (tree : SyntaxTree) : String := (tree.nodes.head?.map (·.kind)).getD ""

/-- The node with a number. -/
def get? (tree : SyntaxTree) (id : Nat) : Option SyntaxNode := tree.nodes[id]?

/-- The text of a node; empty if its range does not cut the text at characters. -/
def textOf (tree : SyntaxTree) (node : SyntaxNode) : List Char :=
  (Text.slice? node.range tree.source.chars).getD []

end SyntaxTree

/-- A parser: turns a text of a language into a parse tree, or says why it cannot. -/
abbrev Parser : Type := Language → String → Except String ParseTree

/-- The syntax tree of a source by a parser. A parse with no named node at its root that leaves
nothing to list is refused. -/
def SyntaxTree.parse (parser : Parser) (language : Option Language) (source : Source) :
    Except String SyntaxTree :=
  match language with
  | none => .ok (plain source)
  | some language => do
    let tree := ofParse language source (← parser language source.text)
    if tree.nodes.isEmpty then .error (language.name ++ " parser produced an unnamed root")
    else .ok tree

end ExactEdit
