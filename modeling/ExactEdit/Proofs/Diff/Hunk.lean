import ExactEdit.Proofs.Diff.Sides

/-! # Hunks of two texts

The hunks between two texts replay: they show what a difference takes away and puts in its place,
between lines that both texts share. Their headers need not be right. A header is made from where
the first block of its group begins and where the last one ends, and a changed block at one end of
the difference may say something wrong about a side of which it has no lines. Exactly if this does
not happen, all headers are exact.

## Main definitions

* `Anchored` — the first and the last block of a difference stand where they say

## Main results

* `Parted.replays` — groups that part two sequences give hunks that replay
* `hunks_replay` — hunks between two texts replay, with exact headers if and only if the blocks are
  anchored
-/

namespace ExactEdit.Diff

variable {old new : List String} {start stop : Place} {i j m n least context : Nat}
variable {opening closing : Option Block} {block : Block} {group : List Block}
variable {parts : List (List Block)}

/-! ## Groups that part two sequences -/

/-- A hunk behind lines that are the same, and in front of hunks that replay. -/
theorem Replays.cons {header : Hunk → Place → Prop} {hunk : Hunk} {hunks : List Hunk} {gap : Nat}
    (hapart : least ≤ gap) (hagree : Agree old new (i, j) gap)
    (holdSize : i + gap + m ≤ old.length) (hnewSize : j + gap + n ≤ new.length)
    (hold : hunk.oldSide = ((old.drop (i + gap)).take m).map shownLine)
    (hnew : hunk.newSide = ((new.drop (j + gap)).take n).map shownLine)
    (hheader : header hunk (i + gap, j + gap))
    (hrest : Replays header 1 (i + gap + m, j + gap + n) (old.drop (i + gap + m))
      (new.drop (j + gap + n)) hunks) :
    Replays header least (i, j) (old.drop i) (new.drop j) (hunk :: hunks) := by
  have hgap : ((old.drop i).take gap).length = gap :=
    length_take_drop (Nat.le_trans (Nat.le_add_right ..) holdSize)
  rw [drop_eq_append old i gap m, drop_eq_append new j gap n, ← hagree.take_drop_eq]
  refine .hunk _ _ _ (by rwa [hgap]) hold hnew (by rwa [hgap]) ?_
  rwa [hgap, length_take_drop holdSize, length_take_drop hnewSize]

/-- Groups that part two sequences give hunks that replay. Their headers are exact if the blocks at
both ends are where they say. -/
theorem Parted.replays {A : Prop} (h : Parted old new closing opening start parts stop)
    (hstop : stop = (old.length, new.length))
    (hleast : ∀ gap, (opening = none → 0 < gap) → least ≤ gap)
    (hopening : A → ∀ first ∈ opening, first.oldStart = start.1 ∧ first.newStart = start.2)
    (hclosing : A → ∀ last ∈ closing,
      ∀ hunk ∈ (parts.filterMap (groupHunk? old new)).getLast?,
        Reaches last.oldStop old.length hunk.oldSide ∧
          Reaches last.newStop new.length hunk.newSide) :
    Replays (fun hunk place => A → hunk.Exact place) least start (old.drop start.1)
      (new.drop start.2) (parts.filterMap (groupHunk? old new)) := by
  induction h generalizing least with
  | @done opening i j tail hagree =>
    obtain ⟨hi, hj⟩ := Prod.mk.inj hstop
    -- The tail is all that is left of both.
    have hrest : old.drop i = new.drop j := by
      have htake := hagree.take_drop_eq
      rwa [List.take_of_length_le (by rw [List.length_drop]; omega),
        List.take_of_length_le (by rw [List.length_drop]; omega)] at htake
    rw [hrest]
    exact .done _
  | @group opening i j gap group parts place stop hapart hagree hwalk hne hfirst hlast hrest ih =>
    obtain ⟨first, hfirstEq⟩ : ∃ first, group.head? = some first :=
      ⟨_, List.head?_eq_some_head hne⟩
    obtain ⟨last, hlastEq⟩ : ∃ last, group.getLast? = some last :=
      ⟨_, List.getLast?_eq_some_getLast hne⟩
    obtain ⟨m, n, rfl, -, -⟩ := exists_sides hwalk
    obtain ⟨hold, hnew⟩ := sides_hunkOf hwalk
    obtain ⟨holdSize, hnewSize⟩ := hrest.le
    rw [hstop] at holdSize hnewSize
    rw [List.filterMap_cons, groupHunk?_eq_some hfirstEq hlastEq] at hclosing ⊢
    refine .cons (hleast gap hapart) hagree holdSize hnewSize hold hnew (fun hanchored => ?_)
      (ih hstop (fun gap hgap => hgap rfl) (fun _ => nofun) ?_)
    · -- Only the first block of all and the last one may be changed at an end of this group.
      apply exact_of_ends hwalk holdSize hnewSize hfirstEq hlastEq
      · refine (hfirst first hfirstEq).imp_right ?_
        rintro ⟨hopens, rfl⟩
        exact hopening hanchored first hopens
      · refine (hlast last hlastEq).imp_right ?_
        rintro ⟨hcloses, rfl, hplace⟩
        obtain ⟨hi, hj⟩ := Prod.mk.inj (hplace.trans hstop)
        rw [hi, hj]
        exact hclosing hanchored last hcloses _ rfl
    · -- The last of the later hunks is the last of all.
      intro hanchored last hlast hunk hhunk
      apply hclosing hanchored last hlast hunk
      rw [List.getLast?_cons, hhunk]
      rfl

/-! ## Anchored blocks -/

/-- The blocks of two sequences are anchored if the first begins at the start of both, and the last
goes to the end of both. -/
structure Anchored (old new : List String) (context : Nat) : Prop where
  first : ∀ block ∈ (blocks old new).head?, block.oldStart = 0 ∧ block.newStart = 0
  last : ∀ block ∈ (blocks old new).getLast?,
    ∀ hunk ∈ (exactHunks old new context).getLast?,
      Reaches block.oldStop old.length hunk.oldSide ∧
        Reaches block.newStop new.length hunk.newSide

/-- Hunks replay, and with exact headers if the blocks are anchored. -/
theorem replays_exactHunks (old new : List String) (context : Nat) :
    Replays (fun hunk place => Anchored old new context → hunk.Exact place) 0 (0, 0) old new
      (exactHunks old new context) :=
  (parted_exactGroups context (walk_blocks old new)).replays rfl (fun _ _ => Nat.zero_le _)
    (fun hanchored => hanchored.first) (fun hanchored => hanchored.last)

/-- The last of some groups. -/
theorem Parted.exists_last (h : Parted old new closing opening start (parts ++ [group]) stop) :
    ∃ place place', Walk (Block.Leads old new) place group place' ∧
      (∀ first ∈ group.head?, first.unchanged = true ∨ opening = some first ∧ place = start) ∧
      ∀ last ∈ group.getLast?, last.unchanged = true ∨ closing = some last ∧ place' = stop := by
  induction parts generalizing opening start with
  | nil =>
    cases h with
    | group hapart hagree hwalk hne hfirst hlast hrest =>
      refine ⟨_, _, hwalk, fun first hmem => ?_, fun last hmem => ?_⟩
      · refine (hfirst first hmem).imp_right ?_
        rintro ⟨hopening, rfl⟩
        exact ⟨hopening, rfl⟩
      · exact (hlast last hmem).imp_right fun hend => ⟨hend.1, hend.2.2⟩
  | cons part parts ih =>
    cases h with
    | group hapart hagree hwalk hne hfirst hlast hrest =>
      obtain ⟨place, place', hgroup, hbegin, hend⟩ := ih hrest
      refine ⟨place, place', hgroup, fun first hmem => ?_, hend⟩
      -- Only the first group may begin with a changed block.
      exact (hbegin first hmem).imp_right fun hopening => nomatch hopening.1

section Exact

variable (h : Replays Hunk.Exact 0 (0, 0) old new (exactHunks old new context))
include h

/-- If the first hunk is exact, the first block begins at the start. -/
theorem start_eq_of_replays (hblock : (blocks old new).head? = some block) :
    block.oldStart = 0 ∧ block.newStart = 0 := by
  have hwalk := walk_blocks old new
  cases hsort : block.unchanged with
  | true => exact start_eq_of_unchanged hwalk hblock hsort
  | false =>
    obtain ⟨rest, hblocks⟩ := List.head?_eq_some_iff.mp hblock
    obtain ⟨group, more, hgroups⟩ := exists_exactGroups_cons context hsort rest
    obtain ⟨last, hlast⟩ : ∃ last, (block :: group).getLast? = some last :=
      ⟨_, List.getLast?_eq_some_getLast (List.cons_ne_nil _ _)⟩
    rw [exactHunks, hblocks, hgroups, List.filterMap_cons, groupHunk?_eq_some rfl hlast] at h
    obtain ⟨gap, hexact⟩ := h.exists_gap
    have hold : block.oldStart = 0 + gap := headerStart_inj hexact.oldStart
    have hnew : block.newStart = 0 + gap := headerStart_inj hexact.newStart
    -- Both starts are as far from the start, and one of them is at it.
    rw [hblocks] at hwalk
    obtain ⟨next, hlead, -⟩ := hwalk
    cases hlead with
    | unchanged => cases hsort
    | changed _ _ hsome =>
      simp only at hold hnew hsome ⊢
      omega

/-- If the last hunk is exact, the last block goes to the end. -/
theorem reaches_of_replays (hblock : (blocks old new).getLast? = some block) {hunk : Hunk}
    (hhunk : (exactHunks old new context).getLast? = some hunk) :
    Reaches block.oldStop old.length hunk.oldSide ∧
      Reaches block.newStop new.length hunk.newSide := by
  have hwalk := walk_blocks old new
  cases hsort : block.unchanged with
  | true =>
    obtain ⟨hold, hnew⟩ := stop_eq_of_unchanged hwalk hblock hsort
    exact ⟨.inl hold, .inl hnew⟩
  | false =>
    obtain ⟨place, hexact⟩ := h.exists_place (List.mem_of_getLast? hhunk)
    obtain ⟨front, hblocks⟩ := List.getLast?_eq_some_iff.mp hblock
    obtain ⟨more, group, hgroups⟩ := exists_exactGroups_concat context hsort front
    rw [← hblocks] at hgroups
    have hparted := parted_exactGroups context hwalk
    rw [hgroups] at hparted
    obtain ⟨place, place', hgroup, hbegin, hend⟩ := hparted.exists_last
    obtain ⟨first, hfirst⟩ : ∃ first, (group ++ [block]).head? = some first :=
      ⟨_, List.head?_eq_some_head (by simp)⟩
    have hlast : (group ++ [block]).getLast? = some block := List.getLast?_concat ..
    rw [exactHunks, hgroups, List.filterMap_append, List.filterMap_cons,
      groupHunk?_eq_some hfirst hlast, List.filterMap_nil, List.getLast?_concat] at hhunk
    obtain rfl := Option.some.inj hhunk
    obtain ⟨i, j⟩ := place
    -- The counts of the header are from the first block to the last one, so the first has to be
    -- placed before they say anything about the last.
    have hstart : first.oldStart = i ∧ first.newStart = j := by
      rcases hbegin first hfirst with hunchanged | ⟨hopening, hplace⟩
      · exact start_eq_of_unchanged hgroup hfirst hunchanged
      · obtain ⟨rfl, rfl⟩ := Prod.mk.inj hplace
        exact start_eq_of_replays h hopening
    obtain ⟨-, hplace'⟩ := (hend block hlast).resolve_left (Bool.eq_false_iff.mp hsort)
    obtain ⟨m, n, hsizes, -, -⟩ := exists_sides hgroup
    rw [hsizes] at hgroup
    obtain ⟨hold, hnew⟩ := Prod.mk.inj (hsizes.symm.trans hplace')
    obtain ⟨holdLength, hnewLength⟩ := length_sides_hunkOf hgroup hold.le hnew.le
    have holdCount := hexact.oldCount.trans holdLength
    have hnewCount := hexact.newCount.trans hnewLength
    rw [hunkOf, hstart.1] at holdCount
    rw [hunkOf, hstart.2] at hnewCount
    exact ⟨(reaches_iff hold holdLength).mpr holdCount, (reaches_iff hnew hnewLength).mpr hnewCount⟩

end Exact

/-- Hunks replay with exact headers if and only if the blocks are anchored. -/
theorem faithful_iff :
    Faithful old new (exactHunks old new context) ↔
      Anchored old new context := by
  constructor
  · intro hfaithful
    exact ⟨fun block hblock => start_eq_of_replays hfaithful.replays hblock,
      fun block hblock hunk hhunk => reaches_of_replays hfaithful.replays hblock hhunk⟩
  · intro hanchored
    exact ((replays_exactHunks old new context).mono fun _ _ hexact => hexact hanchored).faithful

/-! ## Hunks of texts -/

/-- Equal sequences have no hunks. -/
theorem exactHunks_self (lines : List String) (context : Nat) :
    exactHunks lines lines context = [] := by
  rw [exactHunks, blocks_self]
  split
  · rfl
  · rw [exactGroups_singleton rfl]
    rfl

/-- The hunks between two texts replay: they lead from the lines of the old text to those of the
new one, and there are none if and only if the texts are equal. They do so by their headers, too,
if and only if the first block of the difference begins at the start of both texts and the last one
goes to the end of both. -/
theorem hunks_replay (old new : String) (context : Nat) (hcontext : context < 2 ^ 63) :
    ∃ shown, hunks old new context = .ok shown ∧
      Replays (fun _ _ => True) 0 (0, 0) (linesOf old) (linesOf new) shown ∧
      (shown = [] ↔ old = new) ∧
      (Faithful (linesOf old) (linesOf new) shown ↔
        Anchored (linesOf old) (linesOf new) context) := by
  have hreplays : Replays (fun _ _ => True) 0 (0, 0) (linesOf old) (linesOf new)
      (exactHunks (linesOf old) (linesOf new) context) :=
    (replays_exactHunks _ _ context).mono fun _ _ _ => trivial
  refine ⟨_, hunks_eq_ok old new hcontext, hreplays, ⟨fun hnone => ?_, ?_⟩, faithful_iff⟩
  · rw [hnone] at hreplays
    exact linesOf_inj.mp hreplays.eq_of_nil
  · rintro rfl
    exact exactHunks_self _ _

/-- A changed line behind one that is kept: the blocks are anchored, so the headers can be read. -/
theorem changedLine_faithful : 3 < 2 ^ 63 ∧
    ∃ shown, hunks "x\ny\n" "x\nz\n" 3 = .ok shown ∧
      shown = [⟨1, 2, 1, 2, [.kept "x", .removed "y", .added "z"]⟩] ∧
      Faithful (linesOf "x\ny\n") (linesOf "x\nz\n") shown := by
  have hcontext : 3 < 2 ^ 63 := by decide
  have hblocks : blocks (linesOf "x\ny\n") (linesOf "x\nz\n") =
      [⟨true, 0, 1, 0, 1⟩, ⟨false, 1, 1, 1, 1⟩] := by decide +kernel
  have hanchored : Anchored (linesOf "x\ny\n") (linesOf "x\nz\n") 3 := by
    constructor
    · rw [hblocks]
      rintro _ ⟨⟩
      exact ⟨rfl, rfl⟩
    · rw [hblocks]
      rintro _ ⟨⟩ hunk -
      exact ⟨.inl rfl, .inl rfl⟩
  obtain ⟨shown, hshown, -, -, hfaithful⟩ := hunks_replay "x\ny\n" "x\nz\n" 3 hcontext
  refine ⟨hcontext, shown, hshown, ?_, hfaithful.mpr hanchored⟩
  have hrun : hunks "x\ny\n" "x\nz\n" 3 =
      .ok [⟨1, 2, 1, 2, [.kept "x", .removed "y", .added "z"]⟩] := by decide +kernel
  exact Except.ok.inj (hshown.symm.trans hrun)

/-- A line that goes in front and one that comes at the end. The deletion is taken to stand behind
the first new line, so the only hunk counts two lines on either side, and shows three. -/
theorem staleHeader_unfaithful : ∃ hunk, hunks "b\na\na\n" "a\na\na\n" 3 = .ok [hunk] ∧
    hunk = ⟨1, 2, 2, 2, [.removed "b", .kept "a", .kept "a", .added "a"]⟩ ∧
    (hunk.oldCount ≠ hunk.oldSide.length ∧ hunk.newCount ≠ hunk.newSide.length) ∧
    ¬ Faithful (linesOf "b\na\na\n") (linesOf "a\na\na\n") [hunk] := by
  refine ⟨_, by decide +kernel, rfl, by decide, fun hfaithful => ?_⟩
  obtain ⟨place, hexact⟩ := hfaithful.replays.exists_place List.mem_cons_self
  exact absurd hexact.oldCount (by decide)

end ExactEdit.Diff
