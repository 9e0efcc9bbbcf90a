import ExactEdit.Diff.Block
import Mathlib.Data.List.Chain

/-! # Alternation of blocks

Every run of a difference has elements: a script is made of such runs, and compaction drops a run
that it has moved all elements out of. So every block has elements too, and since neighbouring runs
of a sort are joined, changed and unchanged blocks alternate.

## Main definitions

* `HasElements` — every run has elements

## Main results

* `hasElements_compact` — compaction leaves no run without elements
* `isChain_blocks` — changed and unchanged blocks alternate
* `size_pos_of_mem_blocks` — every block has elements
-/

namespace ExactEdit.Diff

variable {α : Type} {runs before after : List Run} {here run : Run} {kind : RunKind}
variable {count i j : Nat}

/-! ## Runs -/

/-- Every run has elements. -/
def HasElements (runs : List Run) : Prop := ∀ run ∈ runs, 0 < run.length

@[simp] theorem hasElements_nil : HasElements [] := nofun

@[simp] theorem hasElements_cons :
    HasElements (run :: runs) ↔ 0 < run.length ∧ HasElements runs :=
  List.forall_mem_cons

@[simp] theorem hasElements_append {front back : List Run} :
    HasElements (front ++ back) ↔ HasElements front ∧ HasElements back :=
  List.forall_mem_append

@[simp] theorem hasElements_reverse : HasElements runs.reverse ↔ HasElements runs := by
  simp only [HasElements, List.mem_reverse]

@[simp] theorem hasElements_runOf (kind : RunKind) (oldStart newStart length : Nat) :
    HasElements (runOf kind oldStart newStart length) := by
  rw [runOf]
  split
  · exact hasElements_nil
  · next hne => exact hasElements_cons.mpr ⟨Nat.pos_of_ne_zero hne, hasElements_nil⟩

theorem hasElements_scriptAt [BEq α] (oldStart newStart : Nat) (old new : List α) :
    HasElements (scriptAt oldStart newStart old new) := by
  fun_induction scriptAt oldStart newStart old new with
  | case1 oldStart newStart old new core _ oldAt newAt middle ihFront ihBack =>
    have hmiddle : HasElements middle := by
      unfold middle
      split
      · simp
      · split
        · next cut hinside _ =>
          exact hasElements_append.mpr ⟨ihFront cut hinside, ihBack cut hinside⟩
        · simp
    simp [hmiddle]

/-! ## Compaction -/

theorem HasElements.equalBehind (h : HasElements after) (hcount : 0 < count) :
    HasElements (equalBehind count i j after) := by
  cases after with
  | nil => simpa [Diff.equalBehind] using hcount
  | cons next rest =>
    rw [hasElements_cons] at h
    rw [Diff.equalBehind]
    split
    · exact hasElements_cons.mpr ⟨Nat.add_pos_left h.1 count, h.2⟩
    · exact hasElements_cons.mpr ⟨hcount, hasElements_cons.mpr h⟩

theorem HasElements.equalInFront (h : HasElements before) (hcount : 0 < count) :
    HasElements (equalInFront count i j before) := by
  cases before with
  | nil => simpa [Diff.equalInFront] using hcount
  | cons previous rest =>
    rw [hasElements_cons] at h
    rw [Diff.equalInFront]
    split
    · exact hasElements_cons.mpr ⟨Nat.add_pos_left h.1 count, h.2⟩
    · exact hasElements_cons.mpr ⟨hcount, hasElements_cons.mpr h⟩

/-- The run that moves has elements, and so have those around it. -/
structure Zipper.Solid (zipper : Zipper) : Prop where
  before : HasElements zipper.before
  here : 0 < zipper.here.length
  after : HasElements zipper.after

section Moves

variable [BEq α] (old new : Array α)

theorem solid_moveUp (h : Zipper.Solid ⟨before, here, after⟩) :
    (moveUp old new before here after).Solid := by
  obtain ⟨hbefore, hhere, hafter⟩ := h
  fun_induction moveUp old new before here after with
  | case1 here after => exact ⟨hbefore, hhere, hafter⟩
  | case2 here after previous rest hequal count _ hcount hlength ih =>
    exact ih (hasElements_cons.mp hbefore).2 hhere hafter
  | case3 here after previous rest => exact ⟨hbefore, hhere, hafter⟩
  | case4 here after previous rest hequal count _ hcount moved hlength ih =>
    exact ih (hasElements_cons.mp hbefore).2 hhere (hafter.equalBehind (Nat.pos_of_ne_zero hcount))
  | case5 here after previous rest hequal count hle hcount moved hlength ih =>
    -- Not all elements of the equal run have moved.
    have hleft : 0 < (previous.dropRight count).length :=
      Nat.sub_pos_of_lt (Nat.lt_of_le_of_ne hle (Ne.symm hlength))
    exact ih (hasElements_cons.mpr ⟨hleft, (hasElements_cons.mp hbefore).2⟩) hhere
      (hafter.equalBehind (Nat.pos_of_ne_zero hcount))
  | case6 here after previous rest hequal hsame ih =>
    exact ih (hasElements_cons.mp hbefore).2 (Nat.add_pos_right _ hhere) hafter
  | case7 here after previous rest hequal hsame ih =>
    obtain ⟨hprevious, hrest⟩ := hasElements_cons.mp hbefore
    exact ih hrest hhere (hasElements_cons.mpr ⟨hprevious, hafter⟩)

theorem solid_moveDown (h : Zipper.Solid ⟨before, here, after⟩) :
    (moveDown old new before here after).Solid := by
  obtain ⟨hbefore, hhere, hafter⟩ := h
  fun_induction moveDown old new before here after with
  | case1 before here => exact ⟨hbefore, hhere, hafter⟩
  | case2 before here next rest hequal count _ hcount hlength ih =>
    exact ih hbefore hhere (hasElements_cons.mp hafter).2
  | case3 before here next rest => exact ⟨hbefore, hhere, hafter⟩
  | case4 before here next rest hequal count _ hcount moved hlength ih =>
    exact ih (hbefore.equalInFront (Nat.pos_of_ne_zero hcount)) hhere (hasElements_cons.mp hafter).2
  | case5 before here next rest hequal count hle hcount moved hlength ih =>
    have hleft : 0 < (next.dropLeft count).length :=
      Nat.sub_pos_of_lt (Nat.lt_of_le_of_ne hle (Ne.symm hlength))
    exact ih (hbefore.equalInFront (Nat.pos_of_ne_zero hcount)) hhere
      (hasElements_cons.mpr ⟨hleft, (hasElements_cons.mp hafter).2⟩)
  | case6 before here next rest hequal hsame ih =>
    exact ih hbefore (Nat.add_pos_left hhere _) (hasElements_cons.mp hafter).2
  | case7 before here next rest hequal hsame ih =>
    obtain ⟨hnext, hrest⟩ := hasElements_cons.mp hafter
    exact ih (hasElements_cons.mpr ⟨hnext, hbefore⟩) hhere hrest

theorem hasElements_settleFrom (steps : Nat) (hbefore : HasElements before)
    (hafter : HasElements after) : HasElements (settleFrom old new kind steps before after) := by
  induction steps generalizing before after with
  | zero => exact hasElements_append.mpr ⟨hasElements_reverse.mpr hbefore, hafter⟩
  | succ steps ih =>
    cases after with
    | nil => exact hasElements_reverse.mpr hbefore
    | cons here after =>
      obtain ⟨hhere, hafter⟩ := hasElements_cons.mp hafter
      rw [settleFrom]
      split
      · have hup := solid_moveUp old new ⟨hbefore, hhere, hafter⟩
        have hdown := solid_moveDown old new hup
        exact ih (hasElements_cons.mpr ⟨hdown.here, hdown.before⟩) hdown.after
      · exact ih (hasElements_cons.mpr ⟨hhere, hbefore⟩) hafter

/-- Compaction leaves no run without elements. -/
theorem hasElements_compact (h : HasElements runs) : HasElements (compact old new runs) :=
  hasElements_settleFrom old new _ hasElements_nil
    (hasElements_settleFrom old new _ hasElements_nil h)

end Moves

/-! ## Blocks -/

namespace Block

variable {block current : Block}

theorem size_ofRun_pos (h : 0 < run.length) : 0 < (ofRun run).oldCount + (ofRun run).newCount := by
  obtain ⟨kind, oldStart, newStart, length⟩ := run
  cases kind
  · exact Nat.add_pos_left h _
  · exact Nat.add_pos_left h _
  · exact Nat.add_pos_right _ h

/-- Blocks of runs with elements have elements. -/
theorem size_pos_of_mem_join (hcurrent : 0 < current.oldCount + current.newCount)
    (hruns : HasElements runs) (hmem : block ∈ join current runs) :
    0 < block.oldCount + block.newCount := by
  induction runs generalizing current with
  | nil =>
    obtain rfl := List.mem_singleton.mp hmem
    exact hcurrent
  | cons run runs ih =>
    obtain ⟨hrun, hruns⟩ := hasElements_cons.mp hruns
    rw [join] at hmem
    split at hmem
    · refine ih ?_ hruns hmem
      simp only [add]
      omega
    · rcases List.mem_cons.mp hmem with rfl | hmem
      · exact hcurrent
      · exact ih (size_ofRun_pos hrun) hruns hmem

/-- The open block stays the first one, of its sort. -/
theorem exists_join_eq_cons (current : Block) (runs : List Run) :
    ∃ first rest, join current runs = first :: rest ∧ first.unchanged = current.unchanged := by
  induction runs generalizing current with
  | nil => exact ⟨current, [], rfl, rfl⟩
  | cons run runs ih =>
    rw [join]
    split
    · exact ih (current.add run)
    · exact ⟨current, _, rfl, rfl⟩

/-- A run of the other sort begins a block of the other sort. -/
theorem isChain_join (current : Block) (runs : List Run) :
    (join current runs).IsChain (fun block next => block.unchanged ≠ next.unchanged) := by
  induction runs generalizing current with
  | nil => exact .singleton current
  | cons run runs ih =>
    rw [join]
    split
    · exact ih (current.add run)
    · next hother =>
      have hrest := ih (ofRun run)
      obtain ⟨first, rest, hjoin, hsort⟩ := exists_join_eq_cons (ofRun run) runs
      rw [hjoin] at hrest ⊢
      exact .cons_cons (fun hsame => hother (hsame.trans hsort)) hrest

end Block

/-- Changed and unchanged blocks alternate. -/
theorem isChain_blocks (old new : List String) :
    (blocks old new).IsChain (fun block next => block.unchanged ≠ next.unchanged) := by
  rw [blocks]
  cases compact old.toArray new.toArray (script old new) with
  | nil => exact .nil
  | cons run runs => exact Block.isChain_join _ _

/-- Every block has elements. -/
theorem size_pos_of_mem_blocks {old new : List String} {block : Block}
    (hmem : block ∈ blocks old new) : 0 < block.oldCount + block.newCount := by
  have hruns := hasElements_compact old.toArray new.toArray (hasElements_scriptAt 0 0 old new)
  rw [blocks, script] at hmem
  cases hcompact : compact old.toArray new.toArray (scriptAt 0 0 old new) with
  | nil =>
    rw [hcompact] at hmem
    cases hmem
  | cons run runs =>
    rw [hcompact] at hmem hruns
    obtain ⟨hrun, hruns⟩ := hasElements_cons.mp hruns
    exact Block.size_pos_of_mem_join (Block.size_ofRun_pos hrun) hruns hmem

end ExactEdit.Diff
