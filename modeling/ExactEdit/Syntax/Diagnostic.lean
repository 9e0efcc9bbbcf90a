import ExactEdit.Syntax.ParseTree
import ExactEdit.Syntax.Point
import ExactEdit.Text.Line

/-! # Parser diagnostics

A snippet is checked by looking for the places where the parser had to recover. The outermost
error and missing nodes are reported in document order, up to a limit; what is below a reported
node is part of the same problem.

## Main definitions

* `diagnostic?` — what is said of one node
* `diagnostics` — what is said of a tree
-/

namespace ExactEdit

/-- No snippet has more diagnostics than this. -/
def maxDiagnostics : Nat := 5

/-- The first line of a text. -/
def firstLine (chars : List Char) : List Char := (Text.lines chars).headD []

/-- What is said of a node that is missing or an error in the text of the snippet. A range that does
not cut the snippet at characters is shown without text. -/
def diagnostic? (chars : List Char) (index : LineIndex) (node : Node) : Option String :=
  let line := (index.pointOf node.range.start).row + 1
  if node.isMissing then
    let kind := node.kind
    some s!"line {line}: missing `{kind}`"
  else if node.isError then
    let shown := (Text.slice? node.range chars).getD []
    let text := String.ofList (Text.trim (firstLine shown))
    some s!"line {line}: unexpected `{text}`"
  else none

/-- At most `room` diagnostics of some trees. A tree without a fault is passed over. -/
def collectDiagnostics (report? : Node → Option String) (room : Nat) :
    List ParseTree → List String
  | [] => []
  | .node label children :: rest =>
    match room with
    | 0 => []
    | more + 1 =>
      match report? label with
      | some said => said :: collectDiagnostics report? more rest
      | none =>
        if label.hasError then collectDiagnostics report? (more + 1) (children ++ rest)
        else collectDiagnostics report? (more + 1) rest
termination_by forest => ParseTree.forestSize forest
decreasing_by
  all_goals
    simp only [ParseTree.forestSize, ParseTree.forestSize_append, ParseTree.size]
    omega

/-- The diagnostics of a snippet and its parse tree. -/
def diagnostics (snippet : List Char) (tree : ParseTree) : List String :=
  collectDiagnostics (diagnostic? snippet (LineIndex.ofChars snippet)) maxDiagnostics [tree]

end ExactEdit
