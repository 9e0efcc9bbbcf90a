import ExactEdit.Diff.Run

/-! # Compaction of edit scripts

A deletion or insertion next to equal elements can often be moved past some of them without
changing what the script does. Compaction moves every deletion, and then every insertion,
first as far to the front and then as far to the back as it goes, and merges runs of one kind
that meet on the way. So a change settles at the last of its possible places.

The script is held as a *zipper*: the run that moves, the runs before it with the nearest
first, and the runs after it.
-/

namespace ExactEdit.Diff

variable {α : Type} [BEq α]

/-- Number of equal elements at the ends of two stretches. -/
def sharedEnd (old new : Array α) (oldStart newStart : Nat) : Nat → Nat → Nat
  | oldCount + 1, newCount + 1 =>
    match old[oldStart + oldCount]?, new[newStart + newCount]? with
    | some a, some b =>
      if a == b then sharedEnd old new oldStart newStart oldCount newCount + 1 else 0
    | _, _ => 0
  | _, _ => 0

/-- Number of equal elements at the starts of two stretches. -/
def sharedStart (old new : Array α) (oldStart newStart : Nat) : Nat → Nat → Nat
  | oldCount + 1, newCount + 1 =>
    match old[oldStart]?, new[newStart]? with
    | some a, some b =>
      if a == b then sharedStart old new (oldStart + 1) (newStart + 1) oldCount newCount + 1 else 0
    | _, _ => 0
  | _, _ => 0

theorem sharedEnd_le (old new : Array α) (oldStart newStart oldCount newCount : Nat) :
    sharedEnd old new oldStart newStart oldCount newCount ≤ oldCount := by
  fun_induction sharedEnd <;> omega

theorem sharedStart_le (old new : Array α) (oldStart newStart oldCount newCount : Nat) :
    sharedStart old new oldStart newStart oldCount newCount ≤ oldCount := by
  fun_induction sharedStart <;> omega

/-- A run of a script between the runs before it, nearest first, and those after it. -/
structure Zipper where
  before : List Run
  here : Run
  after : List Run

/-- Number of runs and elements in a list of runs. -/
def extent (runs : List Run) : Nat := runs.foldr (fun run size => run.length + 1 + size) 0

@[simp] theorem extent_cons (run : Run) (runs : List Run) :
    extent (run :: runs) = run.length + 1 + extent runs := by
  simp [extent]

/-- The runs behind a moving run that `count` equal elements have just been moved to: they join
an equal run there, or become one. -/
def equalBehind (count oldStart newStart : Nat) (after : List Run) : List Run :=
  match after with
  | next :: rest =>
    if next.kind = .equal then next.growLeft count :: rest
    else ⟨.equal, oldStart, newStart, count⟩ :: after
  | [] => [⟨.equal, oldStart, newStart, count⟩]

/-- The runs in front of a moving run that `count` equal elements have just been moved to. -/
def equalInFront (count oldStart newStart : Nat) (before : List Run) : List Run :=
  match before with
  | previous :: rest =>
    if previous.kind = .equal then previous.growRight count :: rest
    else ⟨.equal, oldStart, newStart, count⟩ :: before
  | [] => [⟨.equal, oldStart, newStart, count⟩]

/-- Moves a run to the front as far as it goes. -/
def moveUp (old new : Array α) (before : List Run) (here : Run) (after : List Run) : Zipper :=
  match before with
  | [] => ⟨[], here, after⟩
  | previous :: rest =>
    if previous.kind = .equal then
      let count := sharedEnd old new previous.oldStart here.newStart previous.oldCount here.newCount
      have _bounded : count ≤ previous.length :=
        Nat.le_trans (sharedEnd_le ..) previous.oldCount_le
      if count = 0 then
        if previous.length = 0 then moveUp old new rest here after
        else ⟨previous :: rest, here, after⟩
      else
        let after := equalBehind count (previous.oldStart + previous.length - count)
          (here.newStart + here.newCount - count) after
        if previous.length = count then moveUp old new rest (here.shiftLeft count) after
        else moveUp old new (previous.dropRight count :: rest) (here.shiftLeft count) after
    else if previous.kind = here.kind then
      moveUp old new rest (previous.growRight here.length) after
    else
      moveUp old new rest here (previous :: after)
termination_by extent before
decreasing_by
  all_goals
    simp only [extent_cons, Run.dropRight]
    omega

/-- Moves a run to the back as far as it goes. -/
def moveDown (old new : Array α) (before : List Run) (here : Run) (after : List Run) : Zipper :=
  match after with
  | [] => ⟨before, here, []⟩
  | next :: rest =>
    if next.kind = .equal then
      let count := sharedStart old new next.oldStart here.newStart next.oldCount here.newCount
      have _bounded : count ≤ next.length :=
        Nat.le_trans (sharedStart_le ..) next.oldCount_le
      if count = 0 then
        if next.length = 0 then moveDown old new before here rest
        else ⟨before, here, next :: rest⟩
      else
        let before := equalInFront count next.oldStart here.newStart before
        if next.length = count then moveDown old new before (here.shiftRight count) rest
        else moveDown old new before (here.shiftRight count) (next.dropLeft count :: rest)
    else if next.kind = here.kind then
      moveDown old new before (here.growRight next.length) rest
    else
      moveDown old new (next :: before) here rest
termination_by extent after
decreasing_by
  all_goals
    simp only [extent_cons, Run.dropLeft, Run.shiftRight]
    omega

/-- Moves every run of one kind, going from front to back for at most `steps` runs. -/
def settleFrom (old new : Array α) (kind : RunKind) : Nat → List Run → List Run → List Run
  | 0, before, after => before.reverse ++ after
  | _ + 1, before, [] => before.reverse
  | steps + 1, before, here :: after =>
    if here.kind = kind then
      let up := moveUp old new before here after
      let down := moveDown old new up.before up.here up.after
      settleFrom old new kind steps (down.here :: down.before) down.after
    else settleFrom old new kind steps (here :: before) after

/-- Moves every run of one kind. No script has more runs than elements, so twice their number
of steps is enough. -/
def settle (old new : Array α) (kind : RunKind) (runs : List Run) : List Run :=
  settleFrom old new kind (2 * extent runs + 1) [] runs

/-- Moves every deletion and then every insertion. -/
def compact (old new : Array α) (runs : List Run) : List Run :=
  settle old new .insert (settle old new .delete runs)

end ExactEdit.Diff
