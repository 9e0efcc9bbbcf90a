import ExactEdit.Occurrence
import ExactEdit.Request.Constraint

/-! # Suggestions

When a search text occurs more than once, suggestions say how to ask for one occurrence alone:
by a wider search text, made of the preceding lines or of a nearby comment, or by naming the
scope around it. A wider text is suggested only if it is itself unique in the source.

## Main definitions

* `Strategy`, `Suggestion` — a way to single out an occurrence
* `widen` — the wider search text of a block of lines, with its replacement
* `suggestions` — all suggestions for some occurrences, the most trusted first
-/

namespace ExactEdit

/-- A way to single out an occurrence. -/
inductive Strategy where
  /-- Search for the preceding lines too. -/
  | surrounding
  /-- Search for a nearby comment too. -/
  | comment
  /-- Search in the enclosing scope alone. -/
  | scope
  deriving DecidableEq, Repr, Inhabited

/-- How much a strategy is trusted, in tenths. -/
def Strategy.confidence : Strategy → Nat
  | surrounding => 9
  | comment => 8
  | scope => 7

/-- The name of a strategy in reports. -/
def Strategy.label : Strategy → String
  | surrounding => "surrounding_context"
  | comment => "comment_context"
  | scope => "scope_context"

/-- A request that asks for one occurrence alone. `line` is the line of that occurrence. -/
structure Suggestion where
  strategy : Strategy
  description : String
  oldText : String
  newText : String
  line : Nat
  constraint : Option Constraint
  deriving DecidableEq, Repr, Inhabited

/-- What suggestions are made from. -/
structure SuggestionBasis where
  source : Source
  scopes : ScopeTable
  language : Option Language
  contextLines : Nat
  commentRadius : Nat

/-- How far a comment may be from an occurrence unless something else is asked for. -/
def defaultCommentRadius : Nat := 2

namespace SuggestionBasis

/-- Replaces the old text that starts `offset` bytes into a block. A block may hold the old text
at another place than the occurrence, which then ends behind the block. -/
def replaceIn (block old new : List Char) (offset : Nat) : Except Fault (List Char) :=
  let stop := offset + Text.width old
  if Text.isBoundary offset block && Text.isBoundary stop block then
    .ok (Text.splice ⟨offset, stop⟩ new block)
  else .error .sliceOutOfRange

/-- The lines `first` to `last` as a search text, with their replacement; none unless they hold
the old text once and occur once themselves. -/
def widen (basis : SuggestionBasis) (old new : String) (range : ByteRange) (first last : Nat) :
    Except Fault (Option (String × String)) :=
  match basis.source.lineSpan first last with
  | .error _ => .ok none
  | .ok span =>
    let block := Text.slice span basis.source.chars
    if Text.matchCount old.toList block ≠ 1 then .ok none
    else if Text.matchCount block basis.source.chars ≠ 1 then .ok none
    else if range.start < span.start then .ok none
    else do
      let replaced ← replaceIn block old.toList new.toList (range.start - span.start)
      return some (String.ofList block, String.ofList replaced)

/-- The suggestion to search for the preceding lines too. -/
def surrounding (basis : SuggestionBasis) (old new : String) (occurrence : Occurrence) :
    Except Fault (Option Suggestion) := do
  let first := max (occurrence.line - basis.contextLines) 1
  let widened ← basis.widen old new occurrence.range first occurrence.endLine
  return widened.map fun (oldText, newText) =>
    { strategy := .surrounding
      description :=
        s!"Include lines {first}-{occurrence.endLine} "
          ++ s!"so the match at line {occurrence.line} is unique"
      oldText
      newText
      line := occurrence.line
      constraint := none }

/-- Whether a line is a comment line. -/
def isComment (basis : SuggestionBasis) (line : Nat) : Bool :=
  match basis.source.line line with
  | .ok text => Language.isCommentLine basis.language text
  | .error _ => false

/-- The comment line at a distance from some lines, the one above first. -/
def commentAtDistance? (basis : SuggestionBasis) (first last distance : Nat) : Option Nat :=
  if distance < first ∧ basis.isComment (first - distance) then some (first - distance)
  else if last + distance ≤ basis.source.lineCount ∧ basis.isComment (last + distance) then
    some (last + distance)
  else none

/-- The nearest comment line within the radius. The radius may be any word, but no line is further
away than there are lines, so larger distances find nothing and are left out. The sums of a line and
a distance need no check: up to the number of lines they are words, and beyond it the first that is
none comes only after close to 2^64 distances in vain. -/
def nearestComment? (basis : SuggestionBasis) (first last : Nat) : Option Nat :=
  (List.range' 1 (min basis.commentRadius basis.source.lineCount)).findSome?
    (basis.commentAtDistance? first last)

/-- The first of the comment lines that end at `line`. -/
def commentStart (basis : SuggestionBasis) : Nat → Nat
  | 0 => 0
  | line + 1 => if 1 < line + 1 ∧ basis.isComment line then commentStart basis line else line + 1

/-- The last of the comment lines that start at `line`, at most `steps` lines further. -/
def commentStop (basis : SuggestionBasis) : Nat → Nat → Nat
  | 0, line => line
  | steps + 1, line =>
    if line < basis.source.lineCount ∧ basis.isComment (line + 1) then
      commentStop basis steps (line + 1)
    else line

/-- The lines of an occurrence together with those of the comment at `anchor`. -/
def commentBlock (basis : SuggestionBasis) (occurrence : Occurrence) (anchor : Nat) : Nat × Nat :=
  let first := min anchor occurrence.line
  let last := max anchor occurrence.endLine
  if anchor < occurrence.line then (basis.commentStart first, last)
  else (first, basis.commentStop basis.source.lineCount last)

/-- The suggestion to search for a nearby comment too. -/
def comment (basis : SuggestionBasis) (old new : String) (occurrence : Occurrence) :
    Except Fault (Option Suggestion) :=
  match basis.nearestComment? occurrence.line occurrence.endLine with
  | none => .ok none
  | some anchor => do
    let (first, last) := basis.commentBlock occurrence anchor
    let widened ← basis.widen old new occurrence.range first last
    return widened.map fun (oldText, newText) =>
      { strategy := .comment
        description :=
          s!"Anchor on the comment at line {anchor} (lines {first}-{last}) "
            ++ s!"to target line {occurrence.line}"
        oldText
        newText
        line := occurrence.line
        constraint := none }

/-- The suggestion to search in the enclosing scope alone. -/
def scope (basis : SuggestionBasis) (old new : String) (occurrence : Occurrence)
    (all : List Occurrence) : Option Suggestion := do
  let scope ← basis.scopes.get? (← occurrence.scope)
  let inside := all.countP fun other => scope.containsLines other.line other.endLine
  let plural := if inside = 1 then "" else "s"
  return {
    strategy := .scope
    description := s!"Restrict the edit to {scope.describe} ({inside} occurrence{plural} inside)"
    oldText := old
    newText := new
    line := occurrence.line
    constraint := some (Constraint.ofScope scope.kind scope.name) }

/-- The suggestions for one occurrence. -/
def candidates (basis : SuggestionBasis) (old new : String) (all : List Occurrence)
    (occurrence : Occurrence) : Except Fault (List Suggestion) := do
  let surrounding ← basis.surrounding old new occurrence
  let comment ← basis.comment old new occurrence
  return surrounding.toList ++ comment.toList ++ (basis.scope old new occurrence all).toList

end SuggestionBasis

namespace Suggestion

/-- Whether two suggestions ask for the same edit. -/
def sameRequest (a b : Suggestion) : Bool :=
  a.strategy == b.strategy && a.oldText == b.oldText && a.newText == b.newText
    && a.constraint == b.constraint

/-- Adds a suggestion at the end. Of suggestions for the same edit the one with the smaller line
stays, at the place of the first. -/
def addTo (suggestion : Suggestion) : List Suggestion → List Suggestion
  | [] => [suggestion]
  | other :: rest =>
    if suggestion.sameRequest other then
      (if suggestion.line < other.line then suggestion else other) :: rest
    else other :: suggestion.addTo rest

/-- Every edit once. -/
def distinct (suggestions : List Suggestion) : List Suggestion :=
  suggestions.foldl (fun kept suggestion => suggestion.addTo kept) []

/-- Whether a suggestion may stand before another: by confidence downwards, then by line. -/
def ranksBefore (a b : Suggestion) : Bool :=
  b.strategy.confidence < a.strategy.confidence
    || (a.strategy.confidence == b.strategy.confidence && a.line ≤ b.line)

end Suggestion

/-- The suggestions for some occurrences, every edit once, the most trusted first. -/
def suggestions (basis : SuggestionBasis) (old new : String) (occurrences : List Occurrence) :
    Except Fault (List Suggestion) := do
  let all ← occurrences.mapM (basis.candidates old new occurrences)
  return (Suggestion.distinct all.flatten).mergeSort Suggestion.ranksBefore

end ExactEdit
