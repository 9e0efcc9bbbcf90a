import ExactEdit.Proofs.Diff.Changes
import Mathlib.Algebra.GroupWithZero.Nat

/-! # Counting changed lines

Every run of changed lines counts its larger side: as many lines as are removed in it, or as are
added if these are more. The number of changed lines of two texts is counted on the blocks of their
difference, without any hunk being made; it is what the runs in the hunks add up to.

## Main results

* `changedLines_eq_zero_iff` — no line is changed exactly if the texts are equal
* `changedLines_shown` — the number of changed lines is what the hunks show
-/

namespace ExactEdit.Diff

variable {old new : List String} {block : Block} {series : List Block} {start stop : Place}
variable {i j : Nat}

theorem flatten_changeRuns (lines : List HunkLine) :
    (changeRuns lines).flatten = lines.filter (!·.isKept) := by
  rw [changeRuns, List.flatten_filter_not_isEmpty]
  induction lines with
  | nil => rfl
  | cons line lines ih =>
    rw [List.splitOnP_cons_eq_if_modifyHead]
    by_cases hkept : line.isKept
    · rw [if_pos hkept, List.flatten_cons, List.nil_append, ih, List.filter_cons_of_neg (by simpa)]
    · obtain ⟨run, runs, hruns⟩ :=
        List.exists_cons_of_ne_nil (List.splitOnP_ne_nil HunkLine.isKept lines)
      rw [hruns] at ih
      rw [if_neg hkept, hruns, List.modifyHead_cons, List.filter_cons_of_pos (by simpa using hkept),
        ← ih]
      rfl

/-- Together the larger sides of runs are at most all of their lines. -/
theorem sum_largerSide_le (runs : List (List HunkLine)) :
    (runs.map largerSide).sum ≤
      runs.flatten.countP HunkLine.isRemoved + runs.flatten.countP HunkLine.isAdded := by
  induction runs with
  | nil => exact Nat.le_refl 0
  | cons run runs ih =>
    rw [List.map_cons, List.sum_cons, List.flatten_cons, List.countP_append, List.countP_append,
      largerSide]
    omega

theorem HunkLine.isKept_of_isRemoved :
    ∀ line : HunkLine, line.isRemoved = true → line.isKept = false
  | .removed _, _ => rfl

theorem HunkLine.isKept_of_isAdded : ∀ line : HunkLine, line.isAdded = true → line.isKept = false
  | .added _, _ => rfl

/-- All lines that are not kept are in runs. -/
theorem countP_flatten_changeRuns {mark : HunkLine → Bool}
    (hmark : ∀ line, mark line = true → line.isKept = false) (hunks : List Hunk) :
    (hunks.flatMap Hunk.changeRuns).flatten.countP mark =
      (hunks.flatMap Hunk.lines).countP mark := by
  induction hunks with
  | nil => rfl
  | cons hunk hunks ih =>
    have hrun : (hunk.lines.filter (!·.isKept)).countP mark = hunk.lines.countP mark := by
      rw [List.countP_filter]
      apply List.countP_congr
      intro line _
      simpa using hmark line
    rw [List.flatMap_cons, List.flatten_append, List.countP_append, ih, Hunk.changeRuns,
      flatten_changeRuns, hrun, List.flatMap_cons, List.countP_append]

/-- On the way through a block the two places move apart by no more lines than it changes. -/
theorem Block.Leads.dist_le {start stop : Place} (h : Leads old new start block stop) :
    stop.1 + start.2 ≤ start.1 + stop.2 + block.changedLines ∧
      start.1 + stop.2 ≤ stop.1 + start.2 + block.changedLines := by
  cases h with
  | unchanged =>
    simp only
    omega
  | changed =>
    simp only [changedLines, Bool.false_eq_true, if_false]
    omega

theorem dist_le_of_walk (h : Walk (Block.Leads old new) start series stop) :
    stop.1 + start.2 ≤ start.1 + stop.2 + (series.map Block.changedLines).sum ∧
      start.1 + stop.2 ≤ stop.1 + start.2 + (series.map Block.changedLines).sum := by
  induction series generalizing start with
  | nil =>
    obtain rfl := h
    simp
  | cons block series ih =>
    obtain ⟨next, hblock, hrest⟩ := h
    obtain ⟨hle, hle'⟩ := hblock.dist_le
    obtain ⟨hrestLe, hrestLe'⟩ := ih hrest
    rw [List.map_cons, List.sum_cons]
    omega

/-- Unchanged blocks lead through elements that are the same. -/
theorem exists_agree_of_unchanged (h : Walk (Block.Leads old new) (i, j) series stop)
    (hunchanged : ∀ block ∈ series, block.unchanged = true) :
    ∃ count, stop = (i + count, j + count) ∧ Agree old new (i, j) count := by
  induction series generalizing i j with
  | nil =>
    obtain rfl := h
    exact ⟨0, rfl, agree_zero _ _ _⟩
  | cons block series ih =>
    obtain ⟨hblock, hseries⟩ := List.forall_mem_cons.mp hunchanged
    obtain ⟨next, hlead, hrest⟩ := h
    cases hlead with
    | changed => cases hblock
    | unchanged hagree =>
      obtain ⟨more, rfl, hmore⟩ := ih hrest hseries
      refine ⟨_ + more, ?_, hagree.append hmore⟩
      rw [Nat.add_assoc, Nat.add_assoc]

/-- The counters add up the larger sides of the blocks, if changed and unchanged blocks alternate: a
run that is open has got all its lines when the next block comes. -/
theorem countChanged_eq_sum {total removed added : Nat}
    (hchain : series.IsChain (fun block next => block.unchanged ≠ next.unchanged))
    (hopen : removed = 0 ∧ added = 0 ∨ ∀ block ∈ series.head?, block.unchanged = true) :
    countChanged total removed added series =
      total + max removed added + (series.map Block.changedLines).sum := by
  induction series generalizing total removed added with
  | nil => rfl
  | cons block series ih =>
    have hrest := List.isChain_of_isChain_cons hchain
    rw [countChanged, List.map_cons, List.sum_cons, Block.changedLines]
    by_cases hsort : block.unchanged = true
    · rw [if_pos hsort, if_pos hsort, ih hrest (.inl ⟨rfl, rfl⟩)]
      omega
    · have hnext : ∀ next ∈ series.head?, next.unchanged = true := by
        intro next hnext
        cases series with
        | nil => cases hnext
        | cons head series =>
          obtain rfl := Option.some.inj hnext
          simpa [hsort] using (List.isChain_cons_cons.mp hchain).1
      obtain ⟨rfl, rfl⟩ := hopen.resolve_right fun hunchanged => hsort (hunchanged block rfl)
      rw [if_neg hsort, if_neg hsort, ih hrest (.inr hnext)]
      omega

theorem changedLines_eq_sum (old new : String) : changedLines old new =
    ((blocks (linesOf old) (linesOf new)).map Block.changedLines).sum := by
  rw [changedLines, countChanged_eq_sum (isChain_blocks _ _) (.inl ⟨rfl, rfl⟩)]
  omega

/-- Of the blocks only the changed ones count, by the larger side of the lines that they show. -/
theorem sum_largerSide_hunkLines (hfits : ∀ block ∈ series, block.Fits old new) :
    (((series.filter (!·.unchanged)).map (Block.hunkLines old.toArray new.toArray)).map
      largerSide).sum = (series.map Block.changedLines).sum := by
  induction series with
  | nil => rfl
  | cons block series ih =>
    obtain ⟨hblock, hseries⟩ := List.forall_mem_cons.mp hfits
    rw [List.map_cons, List.sum_cons, ← ih hseries]
    cases hsort : block.unchanged with
    | true =>
      rw [List.filter_cons_of_neg (by simp [hsort]), Block.changedLines, if_pos hsort, Nat.zero_add]
    | false =>
      rw [List.filter_cons_of_pos (by simp [hsort]), List.map_cons, List.map_cons, List.sum_cons,
        hblock.largerSide_eq hsort]

/-- No line is changed exactly if the texts are equal. -/
theorem changedLines_eq_zero_iff (old new : String) : changedLines old new = 0 ↔ old = new := by
  constructor
  · intro hzero
    rw [changedLines_eq_sum, List.sum_eq_zero_iff_forall_eq_nat] at hzero
    have hunchanged : ∀ block ∈ blocks (linesOf old) (linesOf new), block.unchanged = true := by
      intro block hmem
      have hpos := size_pos_of_mem_blocks hmem
      have hnone := hzero _ (List.mem_map_of_mem hmem)
      by_contra hchanged
      rw [Block.changedLines, if_neg hchanged] at hnone
      omega
    obtain ⟨count, hstop, hagree⟩ :=
      exists_agree_of_unchanged (walk_blocks (linesOf old) (linesOf new)) hunchanged
    obtain ⟨hold, hnew⟩ := Prod.mk.inj hstop
    have hlines := hagree.take_drop_eq
    rw [List.drop_zero, List.drop_zero, List.take_of_length_le (by omega),
      List.take_of_length_le (by omega)] at hlines
    exact linesOf_inj.mp hlines
  · rintro rfl
    rw [changedLines, blocks_self]
    split
    · rfl
    · rfl

/-- The number of changed lines is what the hunks show: it adds up the larger sides of the runs of
changed lines in them, however many lines are shown around these, and is at most as many as are
removed and added. Hunks are shown whenever twice the lines around a change are a word. The number
is zero exactly if the texts are equal, and at least it is as many lines as one text has more than
the other. -/
theorem changedLines_shown (old new : String) (context : Nat) :
    (context < 2 ^ 63 → ∃ shown, hunks old new context = .ok shown) ∧
      (∀ shown, hunks old new context = .ok shown →
        changedLines old new = ((shown.flatMap Hunk.changeRuns).map largerSide).sum ∧
          changedLines old new ≤ (shown.flatMap Hunk.lines).countP HunkLine.isRemoved +
            (shown.flatMap Hunk.lines).countP HunkLine.isAdded) ∧
      (changedLines old new = 0 ↔ old = new) ∧
      ((linesOf old).length - (linesOf new).length : Int).natAbs ≤ changedLines old new := by
  have hwalk := walk_blocks (linesOf old) (linesOf new)
  refine ⟨fun hcontext => ⟨_, hunks_eq_ok old new hcontext⟩, fun shown h => ?_,
    changedLines_eq_zero_iff old new, ?_⟩
  · have hruns : changedLines old new = ((shown.flatMap Hunk.changeRuns).map largerSide).sum := by
      rw [changedLines_eq_sum, ← sum_largerSide_hunkLines (fits_of_walk hwalk le_rfl le_rfl),
        ← changeRuns_exactHunks _ _ context, eq_exactHunks_of_eq_ok h]
    refine ⟨hruns, ?_⟩
    rw [hruns, ← countP_flatten_changeRuns HunkLine.isKept_of_isRemoved,
      ← countP_flatten_changeRuns HunkLine.isKept_of_isAdded]
    exact sum_largerSide_le _
  · have hdist := dist_le_of_walk hwalk
    rw [← changedLines_eq_sum] at hdist
    simp only at hdist
    omega

end ExactEdit.Diff
