import ExactEdit.Diff.Compaction
import ExactEdit.Diff.Script

/-! # Blocks of a difference

Runs that follow each other are joined into blocks: equal runs into an unchanged block,
deletions and insertions into a changed one that takes some old elements away and puts some
new ones in their place. Unchanged and changed blocks alternate.
-/

namespace ExactEdit.Diff

/-- A stretch of the old sequence with the stretch of the new one that stands for it. -/
structure Block where
  unchanged : Bool
  oldStart : Nat
  oldCount : Nat
  newStart : Nat
  newCount : Nat
  deriving DecidableEq, Repr, Inhabited

namespace Block

/-- Old index behind a block. -/
def oldStop (block : Block) : Nat := block.oldStart + block.oldCount

/-- New index behind a block. -/
def newStop (block : Block) : Nat := block.newStart + block.newCount

/-- The block of one run. -/
def ofRun (run : Run) : Block :=
  ⟨run.kind == .equal, run.oldStart, run.oldCount, run.newStart, run.newCount⟩

/-- Adds a run to a block. Where a block has no elements of a side yet, the run says where that
side stands. -/
def add (block : Block) (run : Run) : Block :=
  { block with
    oldStart := if run.kind = .delete ∧ block.oldCount = 0 then run.oldStart else block.oldStart
    oldCount := block.oldCount + run.oldCount
    newStart := if run.kind = .insert ∧ block.newCount = 0 then run.newStart else block.newStart
    newCount := block.newCount + run.newCount }

/-- Joins runs into blocks, `current` being the open one. -/
def join (current : Block) : List Run → List Block
  | [] => [current]
  | run :: rest =>
    if current.unchanged = (run.kind == .equal) then join (current.add run) rest
    else current :: join (ofRun run) rest

/-- The blocks of a script. -/
def ofRuns : List Run → List Block
  | [] => []
  | run :: rest => join (ofRun run) rest

end Block

/-- The blocks of the difference between two sequences of lines. -/
def blocks (old new : List String) : List Block :=
  Block.ofRuns (compact old.toArray new.toArray (script old new))

end ExactEdit.Diff
