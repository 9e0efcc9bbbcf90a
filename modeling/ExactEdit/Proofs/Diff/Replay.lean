import ExactEdit.Diff.Hunk
import ExactEdit.Proofs.Diff.Script

/-! # Replaying hunks

Hunks replay if the lines that they show turn an old into a new sequence of lines: what is between
them is the same in both, and each has the next lines of both on its sides. If the headers are
exact too, it is enough to read these: one after the other, each hunk says which lines go, and what
comes in their place.

## Main definitions

* `Hunk.oldSide`, `Hunk.newSide` — the lines of both sides of a hunk
* `Hunk.Exact` — a header says where the lines of its hunk stand
* `Replays` — hunks lead from one sequence of lines to another
* `patch` — what hunks make of some lines
* `Faithful` — hunks with exact headers replay

## Main results

* `Replays.faithful` — with exact headers, the headers are all that is needed
-/

namespace ExactEdit.Diff

variable {old new allOld allNew : List String} {hunk : Hunk} {hunks : List Hunk}
variable {header header' : Hunk → Place → Prop} {start : Place} {i j least count : Nat}

/-! ## Sides -/

/-- A line of the old side, if it is one. -/
def HunkLine.old? : HunkLine → Option String
  | kept text => some text
  | removed text => some text
  | added _ => none

/-- A line of the new side, if it is one. -/
def HunkLine.new? : HunkLine → Option String
  | kept text => some text
  | removed _ => none
  | added text => some text

namespace Hunk

/-- The lines of the old side: those that are kept and those that are removed. -/
def oldSide (hunk : Hunk) : List String := hunk.lines.filterMap HunkLine.old?

/-- The lines of the new side: those that are kept and those that are added. -/
def newSide (hunk : Hunk) : List String := hunk.lines.filterMap HunkLine.new?

/-- A header says how many lines its hunk has on both sides, and where they stand if the hunk is at
a place. -/
structure Exact (hunk : Hunk) (place : Place) : Prop where
  oldStart : hunk.oldStart = headerStart place.1 hunk.oldCount
  oldCount : hunk.oldCount = hunk.oldSide.length
  newStart : hunk.newStart = headerStart place.2 hunk.newCount
  newCount : hunk.newCount = hunk.newSide.length

theorem Exact.length_removed {place : Place} {removed : List String} (h : hunk.Exact place)
    (hremoved : hunk.oldSide = removed.map shownLine) : hunk.oldCount = removed.length := by
  rw [h.oldCount, hremoved, List.length_map]

theorem Exact.length_added {place : Place} {added : List String} (h : hunk.Exact place)
    (hadded : hunk.newSide = added.map shownLine) : hunk.newCount = added.length := by
  rw [h.newCount, hadded, List.length_map]

/-- Both sides of a hunk end before those of another begin. -/
structure IsBefore (hunk later : Hunk) : Prop where
  oldStart_lt : hunk.oldStart < later.oldStart
  oldStop_le : hunk.oldStart + hunk.oldCount ≤ later.oldStart
  newStart_lt : hunk.newStart < later.newStart
  newStop_le : hunk.newStart + hunk.newCount ≤ later.newStart

end Hunk

/-- The index that a header gives for the first line of a side. A side without lines is behind the
line with the number given. -/
def lineIndex (start count : Nat) : Nat := if count = 0 then start else start - 1

theorem lineIndex_headerStart (index count : Nat) :
    lineIndex (headerStart index count) count = index := by
  rw [lineIndex, headerStart]
  split
  · rfl
  · exact Nat.add_sub_cancel ..

/-- A side that ends before another begins comes first by its number too. -/
theorem headerStart_lt {index count start' count' : Nat}
    (h : index + count < lineIndex start' count') :
    headerStart index count < start' ∧ headerStart index count + count ≤ start' := by
  rw [lineIndex] at h
  rw [headerStart]
  split at h
  · split
    · omega
    · omega
  · split
    · omega
    · omega

/-! ## Replaying -/

/-- Hunks lead from the lines behind a place in an old text to those behind it in a new one. Before
each hunk, `least` lines at least are the same in both texts, and between two hunks one line is.
Lines are compared as they are and shown without their line feeds. -/
inductive Replays (header : Hunk → Place → Prop) :
    Nat → Place → List String → List String → List Hunk → Prop
  | done {least : Nat} {place : Place} (rest : List String) :
    Replays header least place rest rest []
  | hunk {least i j : Nat} {old new : List String} {hunk : Hunk} {hunks : List Hunk}
    (gap removed added : List String) (apart : least ≤ gap.length)
    (oldSide : hunk.oldSide = removed.map shownLine)
    (newSide : hunk.newSide = added.map shownLine)
    (exact : header hunk (i + gap.length, j + gap.length))
    (rest : Replays header 1
      (i + gap.length + removed.length, j + gap.length + added.length) old new hunks) :
    Replays header least (i, j) (gap ++ removed ++ old) (gap ++ added ++ new) (hunk :: hunks)

theorem Replays.mono (h : Replays header least start old new hunks)
    (hheader : ∀ hunk place, header hunk place → header' hunk place) :
    Replays header' least start old new hunks := by
  induction h with
  | done rest => exact .done rest
  | hunk gap removed added hapart hold hnew hexact _ ih =>
    exact .hunk gap removed added hapart hold hnew (hheader _ _ hexact) ih

/-- Without hunks nothing changes. -/
theorem Replays.eq_of_nil (h : Replays header least start old new []) : old = new := by
  cases h
  rfl

/-- The first hunk is as far from the start in both texts. -/
theorem Replays.exists_gap (h : Replays header least (i, j) old new (hunk :: hunks)) :
    ∃ gap, header hunk (i + gap, j + gap) := by
  cases h with
  | hunk gap removed added hapart hold hnew hexact hrest => exact ⟨gap.length, hexact⟩

theorem Replays.exists_place (h : Replays header least start old new hunks) (hmem : hunk ∈ hunks) :
    ∃ place, header hunk place := by
  induction h with
  | done rest => cases hmem
  | hunk gap removed added hapart hold hnew hexact _ ih =>
    rcases List.mem_cons.mp hmem with rfl | hmem
    · exact ⟨_, hexact⟩
    · exact ih hmem

/-- What hunks make of the lines behind an index, by their headers: every hunk puts its new side in
the place of the lines that it counts for its old one. -/
def patch (index : Nat) (lines : List String) : List Hunk → List String
  | [] => lines
  | hunk :: hunks =>
    let gap := lineIndex hunk.oldStart hunk.oldCount - index
    lines.take gap ++ hunk.newSide ++
      patch (index + gap + hunk.oldCount) (lines.drop (gap + hunk.oldCount)) hunks

example : patch 0 ["x", "y"] [⟨1, 2, 1, 2, [.kept "x", .removed "y", .added "z"]⟩] =
    ["x", "z"] := by
  decide

/-- Hunks with exact headers that replay. Then the headers put the hunks in order, they say where
the lines of their sides are, and they are enough to make the new text of the old one. -/
structure Faithful (old new : List String) (hunks : List Hunk) : Prop where
  replays : Replays Hunk.Exact 0 (0, 0) old new hunks
  ordered : hunks.Pairwise Hunk.IsBefore
  oldSide_eq : ∀ hunk ∈ hunks, hunk.oldSide =
    ((old.drop (lineIndex hunk.oldStart hunk.oldCount)).take hunk.oldCount).map shownLine
  newSide_eq : ∀ hunk ∈ hunks, hunk.newSide =
    ((new.drop (lineIndex hunk.newStart hunk.newCount)).take hunk.newCount).map shownLine
  patch_eq : patch 0 (old.map shownLine) hunks = new.map shownLine

theorem drop_of_drop_eq_append {all gap part rest : List String}
    (h : all.drop i = gap ++ part ++ rest) :
    all.drop (i + gap.length) = part ++ rest ∧
      all.drop (i + gap.length + part.length) = rest := by
  have hpart : all.drop (i + gap.length) = part ++ rest := by
    rw [← List.drop_drop, h, List.append_assoc, List.drop_left]
  exact ⟨hpart, by rw [← List.drop_drop, hpart, List.drop_left]⟩

namespace Replays

/-- Hunks begin behind the lines that are before all of them. -/
theorem le_lineIndex (h : Replays Hunk.Exact least start old new hunks) (hmem : hunk ∈ hunks) :
    start.1 + least ≤ lineIndex hunk.oldStart hunk.oldCount ∧
      start.2 + least ≤ lineIndex hunk.newStart hunk.newCount := by
  induction h with
  | done rest => cases hmem
  | hunk gap removed added hapart hold hnew hexact _ ih =>
    rcases List.mem_cons.mp hmem with rfl | hmem
    · rw [hexact.oldStart, hexact.newStart, lineIndex_headerStart, lineIndex_headerStart]
      exact ⟨Nat.add_le_add_left hapart _, Nat.add_le_add_left hapart _⟩
    · obtain ⟨hleft, hright⟩ := ih hmem
      simp only at hleft hright ⊢
      constructor
      · omega
      · omega

theorem pairwise_isBefore (h : Replays Hunk.Exact least start old new hunks) :
    hunks.Pairwise Hunk.IsBefore := by
  induction h with
  | done rest => exact .nil
  | hunk gap removed added hapart hold hnew hexact hrest ih =>
    refine .cons (fun later hmem => ?_) ih
    -- A line at least is between this hunk and a later one, so the order is strict.
    obtain ⟨hleft, hright⟩ := hrest.le_lineIndex hmem
    rw [← hexact.length_removed hold] at hleft
    rw [← hexact.length_added hnew] at hright
    obtain ⟨hlt, hle⟩ := headerStart_lt hleft
    obtain ⟨hlt', hle'⟩ := headerStart_lt hright
    rw [← hexact.oldStart] at hlt hle
    rw [← hexact.newStart] at hlt' hle'
    exact ⟨hlt, hle, hlt', hle'⟩

/-- The sides of a hunk are the lines at the indices in its header. -/
theorem sides_eq (h : Replays Hunk.Exact least start old new hunks)
    (hold : allOld.drop start.1 = old) (hnew : allNew.drop start.2 = new) (hmem : hunk ∈ hunks) :
    hunk.oldSide = ((allOld.drop (lineIndex hunk.oldStart hunk.oldCount)).take
      hunk.oldCount).map shownLine ∧
    hunk.newSide = ((allNew.drop (lineIndex hunk.newStart hunk.newCount)).take
      hunk.newCount).map shownLine := by
  induction h with
  | done rest => cases hmem
  | hunk gap removed added hapart hremoved hadded hexact _ ih =>
    obtain ⟨holdSide, holdRest⟩ := drop_of_drop_eq_append hold
    obtain ⟨hnewSide, hnewRest⟩ := drop_of_drop_eq_append hnew
    rcases List.mem_cons.mp hmem with rfl | hmem
    · rw [hexact.oldStart, hexact.newStart, lineIndex_headerStart, lineIndex_headerStart, holdSide,
        hnewSide, hexact.length_removed hremoved, hexact.length_added hadded, List.take_left,
        List.take_left]
      exact ⟨hremoved, hadded⟩
    · exact ih holdRest hnewRest hmem

theorem patch_eq (h : Replays Hunk.Exact least start old new hunks) :
    patch start.1 (old.map shownLine) hunks = new.map shownLine := by
  induction h with
  | done rest => rfl
  | @hunk _ i j old new hunk hunks gap removed added hapart hremoved hadded hexact _ ih =>
    -- By its header the hunk takes away just the lines between the gap and the rest.
    have hgap : lineIndex hunk.oldStart hunk.oldCount - i = gap.length := by
      rw [hexact.oldStart, lineIndex_headerStart]
      exact Nat.add_sub_cancel_left ..
    rw [patch, hgap, hexact.length_removed hremoved, hadded, ← List.map_take, ← List.map_drop,
      ← List.length_append, List.drop_left, ih, List.append_assoc gap removed, List.take_left,
      List.map_append, List.map_append]

theorem faithful (h : Replays Hunk.Exact 0 (0, 0) old new hunks) : Faithful old new hunks :=
  ⟨h, h.pairwise_isBefore, fun _ hmem => (h.sides_eq rfl rfl hmem).1,
    fun _ hmem => (h.sides_eq rfl rfl hmem).2, h.patch_eq⟩

end Replays

end ExactEdit.Diff
