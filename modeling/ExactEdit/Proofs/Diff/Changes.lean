import ExactEdit.Proofs.Diff.Alternation
import ExactEdit.Proofs.Diff.Sides

/-! # Runs of changed lines

In the lines of a hunk, neighbouring lines that are removed or added make up a run of changed lines.
A line that is kept ends it. Hunks are cut out of the difference at unchanged blocks alone, and of
these no hunk shows a line that is not kept. So the cuts fall between runs, and the runs that all
hunks show together are those of the whole difference: its changed blocks, one run each, since an
unchanged block is between two changed ones and has lines.

## Main definitions

* `changeRuns` — the runs of changed lines among some lines of a hunk
* `Block.changeRuns`, `Hunk.changeRuns` — those that some blocks show, and a hunk
* `Block.Fits` — a block shows as many lines as it has elements
* `Block.changedLines` — the larger side of a changed block

## Main results

* `changeRuns_cutGroups` — cutting blocks into groups cuts no run
* `changeRuns_of_isChain` — every changed block is a run
* `changeRuns_exactHunks` — the hunks of two texts show the changed blocks as their runs
-/

namespace ExactEdit.Diff

variable {line : HunkLine} {lines front back kept : List HunkLine} {block : Block}
variable {series group : List Block} {context i j : Nat} {start stop : Place}

/-! ## Runs of changed lines -/

namespace HunkLine

/-- Whether a line is in both texts. -/
def isKept : HunkLine → Bool
  | .kept _ => true
  | _ => false

/-- Whether a line is in the old text only. -/
def isRemoved : HunkLine → Bool
  | .removed _ => true
  | _ => false

/-- Whether a line is in the new text only. -/
def isAdded : HunkLine → Bool
  | .added _ => true
  | _ => false

end HunkLine

/-- The runs of changed lines: what is between two lines that are kept, in front of the first and
behind the last, unless it is nothing. -/
def changeRuns (lines : List HunkLine) : List (List HunkLine) :=
  (lines.splitOnP HunkLine.isKept).filter fun run => !run.isEmpty

/-- The larger of the numbers of removed and of added lines. -/
def largerSide (lines : List HunkLine) : Nat :=
  max (lines.countP HunkLine.isRemoved) (lines.countP HunkLine.isAdded)

/-- A line that is kept ends a run. -/
theorem changeRuns_append_cons (hline : line.isKept = true) (front back : List HunkLine) :
    changeRuns (front ++ line :: back) = changeRuns front ++ changeRuns back := by
  rw [changeRuns, List.splitOnP_append_cons _ _ hline, List.filter_append]
  rfl

@[simp] theorem changeRuns_nil : changeRuns [] = [] := rfl

theorem changeRuns_cons (hline : line.isKept = true) (lines : List HunkLine) :
    changeRuns (line :: lines) = changeRuns lines :=
  changeRuns_append_cons hline [] lines

/-- Lines that are kept are in no run. -/
theorem changeRuns_append_left (hkept : ∀ line ∈ kept, line.isKept = true)
    (lines : List HunkLine) : changeRuns (kept ++ lines) = changeRuns lines := by
  induction kept with
  | nil => rfl
  | cons line kept ih =>
    obtain ⟨hline, hkept⟩ := List.forall_mem_cons.mp hkept
    rw [List.cons_append, changeRuns_cons hline, ih hkept]

theorem changeRuns_eq_nil (hkept : ∀ line ∈ kept, line.isKept = true) : changeRuns kept = [] := by
  have h := changeRuns_append_left hkept []
  rwa [List.append_nil, changeRuns_nil] at h

theorem changeRuns_append_right (hkept : ∀ line ∈ kept, line.isKept = true)
    (lines : List HunkLine) : changeRuns (lines ++ kept) = changeRuns lines := by
  cases kept with
  | nil => rw [List.append_nil]
  | cons line kept =>
    obtain ⟨hline, hkept⟩ := List.forall_mem_cons.mp hkept
    rw [changeRuns_append_cons hline, changeRuns_eq_nil hkept, List.append_nil]

/-- Some lines that are kept end a run. -/
theorem changeRuns_append_append (hkept : ∀ line ∈ kept, line.isKept = true) (hne : kept ≠ [])
    (front back : List HunkLine) :
    changeRuns (front ++ (kept ++ back)) = changeRuns front ++ changeRuns back := by
  cases kept with
  | nil => exact absurd rfl hne
  | cons line kept =>
    obtain ⟨hline, hkept⟩ := List.forall_mem_cons.mp hkept
    rw [List.cons_append, changeRuns_append_cons hline, changeRuns_append_left hkept]

/-- Without a line that is kept, all lines are one run. -/
theorem changeRuns_eq_singleton (hchanged : ∀ line ∈ lines, line.isKept = false) (hne : lines ≠ []) :
    changeRuns lines = [lines] := by
  rw [changeRuns, List.splitOnP_eq_singleton hchanged]
  simpa using hne

/-! ## Runs that blocks show -/

section Groups

variable {old new : Array String}

theorem isKept_of_mem_hunkLines (hunchanged : block.unchanged = true) :
    ∀ line ∈ block.hunkLines old new, line.isKept = true := by
  intro line hline
  rw [Block.hunkLines, if_pos hunchanged] at hline
  obtain ⟨text, -, rfl⟩ := List.mem_map.mp hline
  rfl

theorem not_isKept_of_mem_hunkLines (hchanged : ¬ block.unchanged = true) :
    ∀ line ∈ block.hunkLines old new, line.isKept = false := by
  intro line hline
  rw [Block.hunkLines, if_neg hchanged, List.mem_append] at hline
  rcases hline with hline | hline
  · obtain ⟨text, -, rfl⟩ := List.mem_map.mp hline
    rfl
  · obtain ⟨text, -, rfl⟩ := List.mem_map.mp hline
    rfl

/-- The runs of changed lines that some blocks show. -/
def Block.changeRuns (old new : Array String) (series : List Block) : List (List HunkLine) :=
  Diff.changeRuns (series.flatMap (Block.hunkLines old new))

/-- An unchanged block at the start shows no run. -/
theorem Block.changeRuns_cons (hunchanged : block.unchanged = true) (series : List Block) :
    changeRuns old new (block :: series) = changeRuns old new series := by
  rw [changeRuns, List.flatMap_cons]
  exact changeRuns_append_left (isKept_of_mem_hunkLines hunchanged) _

/-- An unchanged block at the end shows no run. -/
theorem Block.changeRuns_concat (hunchanged : block.unchanged = true) (series : List Block) :
    changeRuns old new (series ++ [block]) = changeRuns old new series := by
  rw [changeRuns, List.flatMap_append, List.flatMap_singleton]
  exact changeRuns_append_right (isKept_of_mem_hunkLines hunchanged) _

/-- An unchanged block that shows lines ends a run. -/
theorem Block.changeRuns_append_cons (hunchanged : block.unchanged = true)
    (hne : block.hunkLines old new ≠ []) (front back : List Block) :
    changeRuns old new (front ++ block :: back) =
      changeRuns old new front ++ changeRuns old new back := by
  rw [changeRuns, List.flatMap_append, List.flatMap_cons]
  exact changeRuns_append_append (isKept_of_mem_hunkLines hunchanged) hne _ _

/-- Cutting blocks into groups cuts no run. -/
theorem changeRuns_cutGroups
    (hshown : ∀ block ∈ series, 0 < block.oldCount → block.unchanged = true →
      block.hunkLines old new ≠ []) :
    (cutGroups context group series).flatMap (Block.changeRuns old new) =
      Block.changeRuns old new (group.reverse ++ series) := by
  induction series generalizing group with
  | nil =>
    rw [List.append_nil]
    match group with
    | [] => rfl
    | [block] =>
      rw [cutGroups, lastGroups]
      split
      · next hunchanged => exact (Block.changeRuns_cons hunchanged []).symm
      · exact List.flatMap_singleton ..
    | block :: next :: group => exact List.flatMap_singleton ..
  | cons block series ih =>
    obtain ⟨hblock, hblocks⟩ := List.forall_mem_cons.mp hshown
    rw [cutGroups]
    split
    · next hlong =>
      obtain ⟨hunchanged, hlong⟩ := hlong
      rw [List.flatMap_cons, List.reverse_cons, ih hblocks, Block.changeRuns_concat rfl,
        List.reverse_singleton, List.singleton_append, Block.changeRuns_cons rfl,
        Block.changeRuns_append_cons hunchanged (hblock (Nat.zero_lt_of_lt hlong) hunchanged)]
    · rw [ih hblocks, List.reverse_cons, List.append_assoc, List.singleton_append]

/-- Neither does shortening the first or the last block. -/
theorem changeRuns_trimFirst (context : Nat) (series : List Block) :
    Block.changeRuns old new (trimFirst context series) = Block.changeRuns old new series := by
  cases series with
  | nil => rfl
  | cons block series =>
    rw [trimFirst]
    split
    · next hunchanged => rw [Block.changeRuns_cons rfl, Block.changeRuns_cons hunchanged]
    · rfl

theorem changeRuns_trimLast (context : Nat) (series : List Block) :
    Block.changeRuns old new (trimLast context series) = Block.changeRuns old new series := by
  cases series using List.reverseRecOn with
  | nil => rfl
  | append_singleton front block =>
    rw [trimLast_concat, trimLast]
    split
    · next hunchanged =>
      rw [Block.changeRuns_concat hunchanged]
      apply Block.changeRuns_concat
      exact hunchanged
    · rfl

end Groups

/-! ## Runs and blocks -/

variable {old new : List String}

/-- A block shows as many lines of either text as it has elements there. -/
structure Block.Fits (old new : List String) (block : Block) : Prop where
  oldSize : (shownLines old.toArray block.oldStart block.oldCount).length = block.oldCount
  newSize : (shownLines new.toArray block.newStart block.newCount).length = block.newCount

theorem length_shownLines {texts : List String} {first count : Nat}
    (h : count = 0 ∨ first + count ≤ texts.length) :
    (shownLines texts.toArray first count).length = count := by
  rw [shownLines_toArray, List.length_map]
  rcases h with rfl | hle
  · rw [List.take_zero, List.length_nil]
  · exact length_take_drop hle

/-- A block stands where it says that it does, in a sequence of which it has elements. -/
theorem Block.Leads.start_eq (h : Leads old new (i, j) block stop) :
    (block.oldCount = 0 ∨ block.oldStart = i) ∧ (block.newCount = 0 ∨ block.newStart = j) := by
  cases h with
  | unchanged => exact ⟨.inr rfl, .inr rfl⟩
  | changed hold hnew => exact ⟨hold, hnew⟩

/-- Blocks that lead through two texts fit into them. -/
theorem fits_of_walk (h : Walk (Block.Leads old new) start series stop)
    (hold : stop.1 ≤ old.length) (hnew : stop.2 ≤ new.length) :
    ∀ block ∈ series, block.Fits old new := by
  induction series generalizing start with
  | nil => exact nofun
  | cons block series ih =>
    obtain ⟨next, hblock, hrest⟩ := h
    refine List.forall_mem_cons.mpr ⟨?_, ih hrest⟩
    -- The blocks behind this one go on from its end, so it ends before they do.
    obtain ⟨m, n, rfl, -, -⟩ := exists_sides hrest
    obtain ⟨hplace, -, -⟩ := hblock.sides
    obtain ⟨hi, hj⟩ := Prod.mk.inj hplace
    obtain ⟨holdStart, hnewStart⟩ := hblock.start_eq
    simp only at hold hnew
    constructor
    · apply length_shownLines
      omega
    · apply length_shownLines
      omega

/-- The larger side of a changed block; nothing for an unchanged one. -/
def Block.changedLines (block : Block) : Nat :=
  if block.unchanged then 0 else max block.oldCount block.newCount

/-- The lines of a changed block are counted by its elements. -/
theorem Block.Fits.largerSide_eq (h : block.Fits old new) (hchanged : block.unchanged = false) :
    largerSide (block.hunkLines old.toArray new.toArray) = block.changedLines := by
  simp [hunkLines, changedLines, hchanged, largerSide, List.countP_map, Function.comp_def,
    HunkLine.isRemoved, HunkLine.isAdded, h.oldSize, h.newSize]

/-- A block that has elements shows lines. -/
theorem Block.Fits.hunkLines_ne_nil (h : block.Fits old new)
    (hlead : Leads old new start block stop) (hpos : 0 < block.oldCount + block.newCount) :
    block.hunkLines old.toArray new.toArray ≠ [] := by
  intro hnil
  cases hsort : block.unchanged with
  | true =>
    rw [hunkLines, if_pos hsort, List.map_eq_nil_iff] at hnil
    have hold := h.oldSize
    rw [hnil, List.length_nil] at hold
    cases hlead with
    | changed => cases hsort
    | unchanged =>
      simp only at hold hpos
      omega
  | false =>
    rw [hunkLines, hsort, if_neg Bool.false_ne_true, List.append_eq_nil_iff, List.map_eq_nil_iff,
      List.map_eq_nil_iff] at hnil
    have hold := h.oldSize
    have hnew := h.newSize
    rw [hnil.1, List.length_nil] at hold
    rw [hnil.2, List.length_nil] at hnew
    omega

/-- Every changed block is a run of its own, if changed and unchanged blocks alternate. -/
theorem changeRuns_of_isChain {old new : Array String}
    (hchain : series.IsChain (fun block next => block.unchanged ≠ next.unchanged))
    (hshown : ∀ block ∈ series, block.hunkLines old new ≠ []) :
    Block.changeRuns old new series =
      (series.filter (!·.unchanged)).map (Block.hunkLines old new) := by
  induction series with
  | nil => rfl
  | cons block series ih =>
    obtain ⟨hblock, hblocks⟩ := List.forall_mem_cons.mp hshown
    specialize ih (List.isChain_of_isChain_cons hchain) hblocks
    by_cases hsort : block.unchanged
    · rw [Block.changeRuns_cons hsort, ih, List.filter_cons_of_neg (by simp [hsort])]
    · have hrun : Block.changeRuns old new [block] = [block.hunkLines old new] := by
        rw [Block.changeRuns, List.flatMap_singleton]
        exact changeRuns_eq_singleton (not_isKept_of_mem_hunkLines hsort) hblock
      rw [List.filter_cons_of_pos (by simp [hsort]), List.map_cons, ← ih]
      cases series with
      | nil => exact hrun
      | cons next rest =>
        -- The next block is unchanged and ends the run.
        have hnext : next.unchanged = true := by
          simpa [hsort] using (List.isChain_cons_cons.mp hchain).1
        have hends := Block.changeRuns_append_cons hnext (hblocks next List.mem_cons_self) [block]
          rest
        rw [hrun, List.singleton_append] at hends
        rw [hends, Block.changeRuns_cons hnext]
        rfl

/-! ## Runs that hunks show -/

/-- The runs of changed lines of a hunk. -/
def Hunk.changeRuns (hunk : Hunk) : List (List HunkLine) := Diff.changeRuns hunk.lines

/-- The hunks of groups show the runs of these groups. -/
theorem flatMap_changeRuns_groupHunk? (parts : List (List Block)) :
    (parts.filterMap (groupHunk? old new)).flatMap Hunk.changeRuns =
      parts.flatMap (Block.changeRuns old.toArray new.toArray) := by
  induction parts with
  | nil => rfl
  | cons group parts ih =>
    rw [List.flatMap_cons, ← ih]
    cases group with
    | nil => rfl
    | cons first rest =>
      obtain ⟨last, hlast⟩ : ∃ last, (first :: rest).getLast? = some last :=
        ⟨_, List.getLast?_eq_some_getLast (List.cons_ne_nil _ _)⟩
      rw [List.filterMap_cons, groupHunk?_eq_some rfl hlast]
      rfl

/-- The runs of changed lines in the hunks of two texts are the changed blocks, however many lines
are shown around them. -/
theorem changeRuns_exactHunks (old new : List String) (context : Nat) :
    (exactHunks old new context).flatMap Hunk.changeRuns =
      ((blocks old new).filter (!·.unchanged)).map
        (Block.hunkLines old.toArray new.toArray) := by
  have hwalk := walk_blocks old new
  have hfits := fits_of_walk hwalk le_rfl le_rfl
  have hshown : ∀ block ∈ blocks old new, block.hunkLines old.toArray new.toArray ≠ [] := by
    intro block hmem
    obtain ⟨start, stop, hlead⟩ := hwalk.exists_step hmem
    exact (hfits block hmem).hunkLines_ne_nil hlead (size_pos_of_mem_blocks hmem)
  -- What is left of the first and of the last block leads through the texts too.
  obtain ⟨gap, -, htrimmed, -, -⟩ := exists_walk_trimFirst context hwalk
  obtain ⟨place, tail, hgrouped, -, hstop, -, -⟩ := exists_walk_trimLast context htrimmed
  obtain ⟨hold, hnew⟩ := Prod.mk.inj hstop
  have hgroups : (exactGroups context (blocks old new)).flatMap
      (Block.changeRuns old.toArray new.toArray) =
        Block.changeRuns old.toArray new.toArray (blocks old new) := by
    rw [exactGroups, changeRuns_cutGroups, List.reverse_nil, List.nil_append, changeRuns_trimLast,
      changeRuns_trimFirst]
    intro block hmem hpos _
    obtain ⟨start, stop, hlead⟩ := hgrouped.exists_step hmem
    exact (fits_of_walk hgrouped (by omega) (by omega) block hmem).hunkLines_ne_nil hlead
      (Nat.add_pos_left hpos _)
  rw [exactHunks, flatMap_changeRuns_groupHunk?, hgroups,
    changeRuns_of_isChain (isChain_blocks old new) hshown]

end ExactEdit.Diff
