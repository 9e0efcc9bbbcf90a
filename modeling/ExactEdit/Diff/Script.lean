import ExactEdit.Diff.Run
import ExactEdit.Diff.Snake

/-! # Edit scripts

The edit script of two sequences keeps what they share at both ends, cuts the rest at a
middle snake and goes on with the two halves. A cut is taken only if it lies inside and
leaves both halves smaller; otherwise all old elements go and all new ones come.
-/

namespace ExactEdit.Diff

variable {α : Type} [BEq α]

/-- The number of leading elements that two sequences share. -/
def sharedLength (left right : List α) : Nat :=
  go 0 left right
where
  /-- Counts on from `count` shared elements. -/
  go (count : Nat) : List α → List α → Nat
    | a :: left, b :: right => if a == b then go (count + 1) left right else count
    | _, _ => count

/-- Two sequences without their shared ends, and the lengths of those. -/
structure Core (α : Type) where
  front : Nat
  back : Nat
  old : List α
  new : List α

/-- Takes the shared front and then the shared back off two sequences. -/
def coreOf (old new : List α) : Core α :=
  let front := sharedLength old new
  let old := old.drop front
  let new := new.drop front
  let back := sharedLength old.reverse new.reverse
  ⟨front, back, old.take (old.length - back), new.take (new.length - back)⟩

theorem coreOf_size (old new : List α) :
    (coreOf old new).old.length + (coreOf old new).new.length ≤ old.length + new.length := by
  simp only [coreOf, List.length_take, List.length_drop]
  omega

/-- A point that cuts two sequences into two smaller pairs. -/
def properCut? (old new : List α) :
    Option { cut : Nat × Nat // 0 < cut.1 + cut.2 ∧ cut.1 + cut.2 < old.length + new.length ∧
      cut.1 ≤ old.length ∧ cut.2 ≤ new.length } :=
  match middleSnake? old.toArray new.toArray with
  | none => none
  | some cut =>
    if h : 0 < cut.1 + cut.2 ∧ cut.1 + cut.2 < old.length + new.length ∧ cut.1 ≤ old.length ∧
        cut.2 ≤ new.length then some ⟨cut, h⟩
    else none

/-- The script of two sequences that stand at the given places of longer ones. -/
def scriptAt (oldStart newStart : Nat) (old new : List α) : List Run :=
  let core := coreOf old new
  have _size := coreOf_size old new
  let oldAt := oldStart + core.front
  let newAt := newStart + core.front
  let middle :=
    if core.old.isEmpty || core.new.isEmpty then
      runOf .delete oldAt newAt core.old.length ++ runOf .insert oldAt newAt core.new.length
    else
      match properCut? core.old core.new with
      | some ⟨cut, _inside⟩ =>
        scriptAt oldAt newAt (core.old.take cut.1) (core.new.take cut.2)
          ++ scriptAt (oldAt + cut.1) (newAt + cut.2) (core.old.drop cut.1) (core.new.drop cut.2)
      | none =>
        runOf .delete oldAt newAt core.old.length ++ runOf .insert oldAt newAt core.new.length
  runOf .equal oldStart newStart core.front ++ middle
    ++ runOf .equal (oldAt + core.old.length) (newAt + core.new.length) core.back
termination_by old.length + new.length
decreasing_by
  all_goals
    simp only [List.length_take, List.length_drop]
    simp only [core] at _inside _size
    omega

/-- The script of two sequences. -/
def script (old new : List α) : List Run := scriptAt 0 0 old new

end ExactEdit.Diff
