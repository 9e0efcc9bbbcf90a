import ExactEdit.Diff.Block
import ExactEdit.Diff.Line
import ExactEdit.Fault
import ExactEdit.Text.Line

/-! # Hunks

A difference is shown as hunks: changed lines with a few unchanged lines around them. Long
unchanged stretches between changes end one hunk and start the next.

## Main definitions

* `hunks` — the hunks between two texts
* `unified` — a difference as text, with the label of the file
* `changedLines` — how many lines a difference changes
-/

namespace ExactEdit.Diff

/-- A line of a hunk. -/
inductive HunkLine where
  | kept (text : String)
  | removed (text : String)
  | added (text : String)
  deriving DecidableEq, Repr, Inhabited

/-- Changed lines with the unchanged lines around them. Starts are line numbers counted from
one; a side without lines starts at the number of the line before. -/
structure Hunk where
  oldStart : Nat
  oldCount : Nat
  newStart : Nat
  newCount : Nat
  lines : List HunkLine
  deriving DecidableEq, Repr, Inhabited

/-- An unchanged first block keeps only its last `context` lines. -/
def trimFirst (context : Nat) : List Block → List Block
  | [] => []
  | block :: rest =>
    if block.unchanged then
      let surplus := block.oldCount - context
      ⟨true, block.oldStart + surplus, block.oldCount - surplus, block.newStart + surplus,
        block.newCount - surplus⟩ :: rest
    else block :: rest

/-- An unchanged last block keeps only its first `context` lines. -/
def trimLast (context : Nat) : List Block → List Block
  | [] => []
  | [block] =>
    if block.unchanged then
      [{ block with oldCount := min block.oldCount context, newCount := min block.newCount context }]
    else [block]
  | block :: rest => block :: trimLast context rest

/-- The groups that are left when there are no more blocks: the open one, last block first, unless
it holds no change. -/
def lastGroups : List Block → List (List Block)
  | [] => []
  | [block] => if block.unchanged then [] else [[block]]
  | group => [group.reverse]

/-- Cuts blocks into groups at every long unchanged one, which gives its first lines to the group
before and its last lines to the group behind. `group` is the open group, last block first. A block
is long if it has more than twice the lines of context; whether it is, is asked of every unchanged
block, and the program stops if twice these lines is no word. -/
def groupBlocks (context : Nat) (group : List Block) : List Block → Except Fault (List (List Block))
  | [] => .ok (lastGroups group)
  | block :: rest => do
    if block.unchanged then
      let limit ← checkedSum context context
      if limit < block.oldCount then
        let surplus := block.oldCount - context
        let ending : Block := ⟨true, block.oldStart, context, block.newStart, context⟩
        let opening : Block :=
          ⟨true, block.oldStart + surplus, block.oldCount - surplus, block.newStart + surplus,
            block.oldCount - surplus⟩
        let behind ← groupBlocks context [opening] rest
        return (ending :: group).reverse :: behind
      else groupBlocks context (block :: group) rest
    else groupBlocks context (block :: group) rest

/-- Groups of blocks, each with up to `context` unchanged lines on both sides of a change. -/
def groups (context : Nat) (blocks : List Block) : Except Fault (List (List Block)) :=
  groupBlocks context [] (trimLast context (trimFirst context blocks))

/-- A line without its line feed. -/
def shownLine (line : String) : String := String.ofList (Text.withoutFeed line.toList)

/-- The lines with the given indices. -/
def shownLines (lines : Array String) (start count : Nat) : List String :=
  (lines.extract start (start + count)).toList.map shownLine

/-- The hunk lines of a block. -/
def Block.hunkLines (old new : Array String) (block : Block) : List HunkLine :=
  if block.unchanged then (shownLines old block.oldStart block.oldCount).map .kept
  else
    (shownLines old block.oldStart block.oldCount).map .removed
      ++ (shownLines new block.newStart block.newCount).map .added

/-- The number of a hunk's first line; of the line before for a side without lines. -/
def headerStart (start count : Nat) : Nat := if count = 0 then start else start + 1

/-- The hunk of a group of blocks. -/
def hunkOf (old new : Array String) (first last : Block) (group : List Block) : Hunk :=
  let oldCount := last.oldStop - first.oldStart
  let newCount := last.newStop - first.newStart
  { oldStart := headerStart first.oldStart oldCount
    oldCount
    newStart := headerStart first.newStart newCount
    newCount
    lines := group.flatMap (Block.hunkLines old new) }

/-- The hunks of some groups of blocks. -/
def hunksOf (old new : Array String) (groups : List (List Block)) : List Hunk :=
  groups.filterMap fun group =>
    match group.head?, group.getLast? with
    | some first, some last => some (hunkOf old new first last group)
    | _, _ => none

/-- The hunks between two texts, with `context` unchanged lines around each change. -/
def hunks (old new : String) (context : Nat) : Except Fault (List Hunk) :=
  let oldLines := linesOf old
  let newLines := linesOf new
  (groups context (blocks oldLines newLines)).map (hunksOf oldLines.toArray newLines.toArray)

/-- A hunk line with its mark. -/
def HunkLine.render : HunkLine → String
  | kept text => " " ++ text ++ "\n"
  | removed text => "-" ++ text ++ "\n"
  | added text => "+" ++ text ++ "\n"

/-- A hunk with its header. -/
def Hunk.render (hunk : Hunk) : String :=
  s!"@@ -{hunk.oldStart},{hunk.oldCount} +{hunk.newStart},{hunk.newCount} @@\n"
    ++ String.join (hunk.lines.map HunkLine.render)

/-- Hunks as text, under the names of the two files. -/
def render (label : String) (hunks : List Hunk) : String :=
  s!"--- a/{label}\n+++ b/{label}\n" ++ String.join (hunks.map Hunk.render)

/-- The difference between two texts as text. -/
def unified (label old new : String) (context : Nat) : Except Fault String :=
  (hunks old new context).map (render label)

/-- Counts changed lines, block by block: `total` of them in the runs before, `removed` and `added`
in the open one. An unchanged block ends the open run, which counts its larger side. -/
def countChanged (total removed added : Nat) : List Block → Nat
  | [] => total + max removed added
  | block :: rest =>
    if block.unchanged then countChanged (total + max removed added) 0 0 rest
    else countChanged total (removed + block.oldCount) (added + block.newCount) rest

/-- Changed lines between two texts: every run of neighbouring changes counts its larger side. -/
def changedLines (old new : String) : Nat :=
  countChanged 0 0 0 (blocks (linesOf old) (linesOf new))

end ExactEdit.Diff
