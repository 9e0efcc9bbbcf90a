import ExactEdit.Diff.Block
import ExactEdit.Proofs.Diff.Compaction

/-! # Blocks of a difference as a walk

Runs are joined into blocks, and the blocks of two sequences lead through them as the runs do. A
changed block may have elements of one side only. What it says about the other side need not be
right, since compaction does not keep that; but of the sides on which a block has no elements, one
at most is wrong.

## Main definitions

* `Block.Leads` — a block leads from one place to another

## Main results

* `walk_blocks` — the blocks of a difference lead through both sequences
* `blocks_self` — equal sequences have one unchanged block
-/

namespace ExactEdit.Diff

variable {old new : List String} {start place stop : Place} {i j : Nat}
variable {block current : Block} {run : Run} {runs : List Run}

/-- A block leads from a place to the place behind its elements. An unchanged one stands for the
same elements of both sequences. A changed one stands where it says that it does, in a sequence of
which it has elements, and in one of both at least. -/
inductive Block.Leads {α : Type} (old new : List α) : Place → Block → Place → Prop
  | unchanged {i j count : Nat} (agree : Agree old new (i, j) count) :
    Leads old new (i, j) ⟨true, i, count, j, count⟩ (i + count, j + count)
  | changed {i j oldStart oldCount newStart newCount : Nat} (hold : oldCount = 0 ∨ oldStart = i)
    (hnew : newCount = 0 ∨ newStart = j) (hsome : oldStart = i ∨ newStart = j) :
    Leads old new (i, j) ⟨false, oldStart, oldCount, newStart, newCount⟩
      (i + oldCount, j + newCount)

namespace Block

theorem leads_ofRun (h : Run.Leads old new start run stop) :
    Leads old new start (ofRun run) stop := by
  cases h with
  | equal hagree => exact .unchanged hagree
  | delete => exact .changed (.inr rfl) (.inl rfl) (.inl rfl)
  | insert => exact .changed (.inl rfl) (.inr rfl) (.inr rfl)

/-- A run that goes on with a block of its sort can be added to it. -/
theorem Leads.add (h : Leads old new start block place) (hrun : Run.Leads old new place run stop)
    (hsort : block.unchanged = (run.kind == .equal)) :
    Leads old new start (block.add run) stop := by
  cases h with
  | unchanged hagree =>
    cases hrun with
    | equal hmore =>
      have hjoined := Leads.unchanged (hagree.append hmore)
      rwa [← Nat.add_assoc, ← Nat.add_assoc] at hjoined
    | delete => cases hsort
    | insert => cases hsort
  | @changed i j oldStart oldCount newStart newCount hold hnew hsome =>
    cases hrun with
    | equal => cases hsort
    | delete _ _ _ length =>
      -- The deletion says where the block stands in the old sequence, if the block did not.
      have hstart : (if oldCount = 0 then i + oldCount else oldStart) = i := by
        split
        · next hzero => rw [hzero, Nat.add_zero]
        · next hne => exact hold.resolve_left hne
      have hjoined : Leads old new (i, j) ⟨false, i, oldCount + length, newStart, newCount⟩
          (i + (oldCount + length), j + newCount) := .changed (.inr rfl) hnew (.inl rfl)
      simpa [Block.add, Run.oldCount, Run.newCount, hstart, Nat.add_assoc] using hjoined
    | insert _ _ _ length =>
      have hstart : (if newCount = 0 then j + newCount else newStart) = j := by
        split
        · next hzero => rw [hzero, Nat.add_zero]
        · next hne => exact hnew.resolve_left hne
      have hjoined : Leads old new (i, j) ⟨false, oldStart, oldCount, j, newCount + length⟩
          (i + oldCount, j + (newCount + length)) := .changed hold (.inr rfl) (.inr rfl)
      simpa [Block.add, Run.oldCount, Run.newCount, hstart, Nat.add_assoc] using hjoined

theorem walk_join (h : Leads old new start current place)
    (hruns : Walk (Run.Leads old new) place runs stop) :
    Walk (Leads old new) start (join current runs) stop := by
  induction runs generalizing start current place with
  | nil =>
    obtain rfl := hruns
    exact walk_singleton.mpr h
  | cons run runs ih =>
    obtain ⟨next, hrun, hrest⟩ := hruns
    rw [join]
    split
    · -- The current block grows by a run of its sort; another run begins the next block.
      next hsort => exact ih (h.add hrun hsort) hrest
    · exact ⟨place, h, ih (leads_ofRun hrun) hrest⟩

theorem walk_ofRuns (h : Walk (Run.Leads old new) start runs stop) :
    Walk (Leads old new) start (ofRuns runs) stop := by
  cases runs with
  | nil => exact h
  | cons run runs =>
    obtain ⟨next, hrun, hrest⟩ := h
    exact walk_join (leads_ofRun hrun) hrest

end Block

/-- The blocks of a difference lead through both sequences. -/
theorem walk_blocks (old new : List String) :
    Walk (Block.Leads old new) (0, 0) (blocks old new) (old.length, new.length) :=
  Block.walk_ofRuns (walk_compact (walk_script old new))

/-- Equal sequences have one unchanged block, or none if they are empty. -/
theorem blocks_self (lines : List String) : blocks lines lines =
    if lines = [] then [] else [⟨true, 0, lines.length, 0, lines.length⟩] := by
  rw [blocks, script_self, compact_runOf_equal, runOf]
  simp only [List.length_eq_zero_iff]
  split
  · rfl
  · rfl

end ExactEdit.Diff
