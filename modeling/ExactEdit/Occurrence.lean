import ExactEdit.Scope.Table
import ExactEdit.Text.Search

/-! # Occurrences

An occurrence is a match of a search text in a source, with what a reader needs to recognise
it: its lines and column, the text of its first line, the lines around it and the scope it is
in. A search may be limited to some scopes; then both ends of an occurrence are on lines of one
of them.

## Main definitions

* `Occurrence` — a match and its surroundings
* `findOccurrences` — all matches, in document order
-/

namespace ExactEdit

/-- A match of a search text. `line` and `endLine` hold its first and last byte. -/
structure Occurrence where
  line : Nat
  column : Nat
  endLine : Nat
  range : ByteRange
  lineText : String
  scope : Option Nat
  enclosingScope : Option String
  surroundingContext : String
  deriving DecidableEq, Repr, Inhabited

/-- Lines shown around an occurrence unless something else is asked for. -/
def defaultContextLines : Nat := 3

/-- Whether the lines are lines of one of the scopes; without a list every line is allowed. -/
def ScopeTable.allowsLines (table : ScopeTable) (within : Option (List Nat)) (first last : Nat) :
    Bool :=
  match within with
  | none => true
  | some ids => ids.any fun id => table.containsLines id first last

/-- The occurrence at a byte range, if the scopes allow its lines. -/
def occurrenceAt (source : Source) (scopes : ScopeTable) (contextLines : Nat)
    (within : Option (List Nat)) (range : ByteRange) :
    Except SourceFailure (Option Occurrence) := do
  let line ← (source.lineOfOffset range.start).mapError .position
  let endLine ← (source.lineOfOffset (range.stop - 1)).mapError .position
  if scopes.allowsLines within line endLine then
    let position ← (source.positionOf range.start).mapError .position
    let scope := scopes.innermost? line endLine range
    let lineText ← (source.line line).mapError .position
    let context ← source.window line endLine contextLines
    return some
      { line
        column := position.column
        endLine
        range
        lineText := String.ofList lineText
        scope
        enclosingScope := scope.map scopes.qualifiedName
        surroundingContext := String.ofList context }
  else
    return none

/-- All occurrences of a search text, in document order. -/
def findOccurrences (source : Source) (scopes : ScopeTable) (contextLines : Nat) (search : String)
    (within : Option (List Nat)) : Except SourceFailure (List Occurrence) :=
  let pattern := search.toList
  let size := Text.width pattern
  (Text.matchOffsets pattern source.chars).filterMapM fun start =>
    occurrenceAt source scopes contextLines within ⟨start, start + size⟩

end ExactEdit
