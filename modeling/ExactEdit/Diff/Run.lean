/-! # Runs of an edit script

An edit script from an old to a new sequence is a list of runs. A run keeps, deletes or
inserts some neighbouring elements and says where in both sequences it stands.
-/

namespace ExactEdit.Diff

/-- What a run does with its elements. -/
inductive RunKind where
  | equal
  | delete
  | insert
  deriving DecidableEq, Repr, Inhabited

/-- Some neighbouring elements that are kept, deleted or inserted together. -/
structure Run where
  kind : RunKind
  oldStart : Nat
  newStart : Nat
  length : Nat
  deriving DecidableEq, Repr, Inhabited

namespace Run

/-- Number of old elements of a run. -/
def oldCount (run : Run) : Nat :=
  match run.kind with
  | .insert => 0
  | _ => run.length

theorem oldCount_le (run : Run) : run.oldCount ≤ run.length := by
  unfold oldCount; split <;> omega

/-- Number of new elements of a run. -/
def newCount (run : Run) : Nat :=
  match run.kind with
  | .delete => 0
  | _ => run.length

/-- Moves a run towards the start of both sequences. -/
def shiftLeft (run : Run) (count : Nat) : Run :=
  { run with oldStart := run.oldStart - count, newStart := run.newStart - count }

/-- Moves a run towards the end of both sequences. -/
def shiftRight (run : Run) (count : Nat) : Run :=
  { run with oldStart := run.oldStart + count, newStart := run.newStart + count }

/-- Adds elements in front. -/
def growLeft (run : Run) (count : Nat) : Run :=
  { run.shiftLeft count with length := run.length + count }

/-- Adds elements behind. -/
def growRight (run : Run) (count : Nat) : Run :=
  { run with length := run.length + count }

/-- Takes elements off the end. -/
def dropRight (run : Run) (count : Nat) : Run :=
  { run with length := run.length - count }

/-- Takes elements off the start. -/
def dropLeft (run : Run) (count : Nat) : Run :=
  { run.shiftRight count with length := run.length - count }

end Run

/-- The run of this kind as a list, empty if it has no elements. -/
def runOf (kind : RunKind) (oldStart newStart length : Nat) : List Run :=
  if length = 0 then [] else [⟨kind, oldStart, newStart, length⟩]

end ExactEdit.Diff
