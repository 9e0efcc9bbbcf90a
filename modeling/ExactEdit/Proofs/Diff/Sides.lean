import ExactEdit.Proofs.Diff.Grouping
import ExactEdit.Proofs.Diff.Replay

/-! # Sides of a group

A group of blocks that leads from one place to another shows the lines between them, of the old text
on its old side and of the new text on its new side. The header of its hunk is made from where the
first block says that it begins and where the last one says that it ends.

## Main definitions

* `groupHunk?` — the hunk of a group
* `Reaches` — a block goes to the end of a side, as far as a header can tell

## Main results

* `linesOf_inj` — texts with the same lines are the same
* `sides_hunkOf` — a hunk shows the lines of its group
* `exact_of_ends` — a header is exact if both ends of its group are where they say
-/

namespace ExactEdit.Diff

variable {old new : List String} {start stop : Place} {i j m n : Nat}
variable {opening closing : Option Block} {block first last : Block} {group : List Block}
variable {parts : List (List Block)}

/-! ## Lines of a text -/

theorem flatten_cutLines (done : List (List Char)) (current chars : List Char) :
    (cutLines done current chars).flatten = done.reverse.flatten ++ current.reverse ++ chars := by
  fun_induction cutLines done current chars with
  | case1 done current =>
    split
    · next hempty =>
      rw [List.isEmpty_iff.mp hempty]
      simp
    · simp
  | case2 done current rest ih =>
    rw [ih]
    simp
  | case3 done current c rest _ hends ih =>
    rw [ih]
    simp
  | case4 done current c rest _ hends ih =>
    rw [ih]
    simp

/-- The lines of a text make up the text. -/
theorem linesOf_inj {old new : String} : linesOf old = linesOf new ↔ old = new := by
  have hflatten : ∀ text : String, ((linesOf text).map String.toList).flatten = text.toList := by
    intro text
    have hlists : (String.toList ∘ String.ofList) = id := funext fun chars => String.toList_ofList
    rw [linesOf, List.map_map, hlists, List.map_id, flatten_cutLines]
    simp
  constructor
  · intro hlines
    rw [← String.toList_inj, ← hflatten old, ← hflatten new, hlines]
  · rintro rfl
    rfl

/-! ## Lines of blocks -/

theorem Agree.take_drop_eq {α : Type} {old new : List α} {count : Nat}
    (h : Agree old new (i, j) count) : (old.drop i).take count = (new.drop j).take count := by
  apply List.ext_getElem?
  intro index
  rw [List.getElem?_take, List.getElem?_take, List.getElem?_drop, List.getElem?_drop]
  split
  · next hlt => exact h index hlt
  · rfl

theorem length_take_drop {α : Type} {list : List α} {start count : Nat}
    (h : start + count ≤ list.length) : ((list.drop start).take count).length = count := by
  rw [List.length_take, List.length_drop]
  omega

theorem drop_eq_append {α : Type} (list : List α) (start gap count : Nat) : list.drop start =
    (list.drop start).take gap ++ (list.drop (start + gap)).take count ++
      list.drop (start + gap + count) := by
  simp only [← List.drop_drop, List.append_assoc, List.take_append_drop]

theorem shownLines_toArray (lines : List String) (start count : Nat) :
    shownLines lines.toArray start count = ((lines.drop start).take count).map shownLine := by
  rw [shownLines]
  simp [List.extract_eq_take_drop]

section Sides

variable {mark : String → HunkLine} {side : HunkLine → Option String}

theorem filterMap_map_of_some (h : ∀ text, side (mark text) = some text) (lines : List String) :
    (lines.map mark).filterMap side = lines := by
  have hsome : side ∘ mark = some := funext h
  rw [List.filterMap_map, hsome, List.filterMap_some]

theorem filterMap_map_of_none (h : ∀ text, side (mark text) = none) (lines : List String) :
    (lines.map mark).filterMap side = [] := by
  rw [List.filterMap_map, List.filterMap_eq_nil_iff]
  exact fun text _ => h text

end Sides

/-- A block shows the next lines of both sequences. -/
theorem Block.Leads.sides (h : Leads old new (i, j) block stop) :
    stop = (i + block.oldCount, j + block.newCount) ∧
    (block.hunkLines old.toArray new.toArray).filterMap HunkLine.old? =
      ((old.drop i).take block.oldCount).map shownLine ∧
    (block.hunkLines old.toArray new.toArray).filterMap HunkLine.new? =
      ((new.drop j).take block.newCount).map shownLine := by
  cases h with
  | @unchanged _ _ count hagree =>
    rw [hunkLines, if_pos rfl, shownLines_toArray, filterMap_map_of_some fun _ => rfl,
      filterMap_map_of_some fun _ => rfl]
    exact ⟨rfl, rfl, congrArg (List.map shownLine) hagree.take_drop_eq⟩
  | @changed _ _ oldStart oldCount newStart newCount hold hnew hsome =>
    -- Where a block says something wrong about a side, it shows no lines of it.
    have hold' : (old.drop oldStart).take oldCount = (old.drop i).take oldCount := by
      rcases hold with rfl | rfl
      · rw [List.take_zero, List.take_zero]
      · rfl
    have hnew' : (new.drop newStart).take newCount = (new.drop j).take newCount := by
      rcases hnew with rfl | rfl
      · rw [List.take_zero, List.take_zero]
      · rfl
    rw [hunkLines, if_neg Bool.false_ne_true, shownLines_toArray, shownLines_toArray, hold', hnew',
      List.filterMap_append, List.filterMap_append, filterMap_map_of_some fun _ => rfl,
      filterMap_map_of_none fun _ => rfl, filterMap_map_of_none fun _ => rfl,
      filterMap_map_of_some fun _ => rfl, List.append_nil, List.nil_append]
    exact ⟨rfl, rfl, rfl⟩

/-- So do blocks one behind the other. -/
theorem exists_sides (h : Walk (Block.Leads old new) (i, j) group stop) :
    ∃ m n, stop = (i + m, j + n) ∧
      (group.flatMap (Block.hunkLines old.toArray new.toArray)).filterMap HunkLine.old? =
        ((old.drop i).take m).map shownLine ∧
      (group.flatMap (Block.hunkLines old.toArray new.toArray)).filterMap HunkLine.new? =
        ((new.drop j).take n).map shownLine := by
  induction group generalizing i j with
  | nil =>
    obtain rfl := h
    exact ⟨0, 0, rfl, rfl, rfl⟩
  | cons block group ih =>
    obtain ⟨next, hblock, hgroup⟩ := h
    obtain ⟨rfl, hold, hnew⟩ := hblock.sides
    obtain ⟨m, n, rfl, holdRest, hnewRest⟩ := ih hgroup
    refine ⟨block.oldCount + m, block.newCount + n, ?_, ?_, ?_⟩
    · rw [Nat.add_assoc, Nat.add_assoc]
    · rw [List.flatMap_cons, List.filterMap_append, hold, holdRest, List.take_add, List.map_append,
        List.drop_drop]
    · rw [List.flatMap_cons, List.filterMap_append, hnew, hnewRest, List.take_add, List.map_append,
        List.drop_drop]

theorem Parted.le (h : Parted old new closing opening start parts stop) :
    start.1 ≤ stop.1 ∧ start.2 ≤ stop.2 := by
  induction h with
  | done => exact ⟨Nat.le_add_right .., Nat.le_add_right ..⟩
  | @group opening i j gap group parts place stop _ _ hwalk _ _ _ _ ih =>
    obtain ⟨m, n, rfl, -, -⟩ := exists_sides hwalk
    obtain ⟨hleft, hright⟩ := ih
    simp only at hleft hright ⊢
    constructor
    · omega
    · omega

theorem start_eq_of_unchanged (h : Walk (Block.Leads old new) (i, j) group stop)
    (hfirst : group.head? = some first) (hunchanged : first.unchanged = true) :
    first.oldStart = i ∧ first.newStart = j := by
  obtain ⟨rest, rfl⟩ := List.head?_eq_some_iff.mp hfirst
  obtain ⟨next, hblock, -⟩ := h
  cases hblock with
  | unchanged => exact ⟨rfl, rfl⟩
  | changed => cases hunchanged

theorem stop_eq_of_unchanged (h : Walk (Block.Leads old new) start group (i, j))
    (hlast : group.getLast? = some last) (hunchanged : last.unchanged = true) :
    last.oldStop = i ∧ last.newStop = j := by
  obtain ⟨rest, rfl⟩ := List.getLast?_eq_some_iff.mp hlast
  obtain ⟨middle, -, hblock⟩ := walk_append.mp h
  cases walk_singleton.mp hblock with
  | unchanged => exact ⟨rfl, rfl⟩
  | changed => cases hunchanged

/-! ## Hunks of groups -/

/-- The hunk of a group, if it has blocks. -/
def groupHunk? (old new : List String) (group : List Block) : Option Hunk :=
  match group.head?, group.getLast? with
  | some first, some last => some (hunkOf old.toArray new.toArray first last group)
  | _, _ => none

theorem groupHunk?_eq_some (hfirst : group.head? = some first)
    (hlast : group.getLast? = some last) :
    groupHunk? old new group = some (hunkOf old.toArray new.toArray first last group) := by
  rw [groupHunk?, hfirst, hlast]

/-- The hunks of the groups by numbers. -/
def exactHunks (old new : List String) (context : Nat) : List Hunk :=
  (exactGroups context (blocks old new)).filterMap (groupHunk? old new)

/-- The hunks between two texts are these, unless the program stops. -/
theorem hunks_eq (old new : String) (context : Nat) :
    hunks old new context =
      if 2 ^ 63 ≤ context ∧ (blocks (linesOf old) (linesOf new)).any (·.unchanged) = true then
        .error .sumOverflow
      else .ok (exactHunks (linesOf old) (linesOf new) context) := by
  rw [hunks, groups_eq]
  split
  · rfl
  · rfl

/-- So they are if twice the context is a word. -/
theorem hunks_eq_ok (old new : String) (hcontext : context < 2 ^ 63) :
    hunks old new context = .ok (exactHunks (linesOf old) (linesOf new) context) := by
  rw [hunks_eq, if_neg fun hstops => Nat.not_le.mpr hcontext hstops.1]

theorem eq_exactHunks_of_eq_ok {old new : String} {shown : List Hunk}
    (h : hunks old new context = .ok shown) :
    shown = exactHunks (linesOf old) (linesOf new) context := by
  rw [hunks_eq] at h
  split at h
  · cases h
  · exact (Except.ok.inj h).symm

theorem headerStart_inj {index index' count : Nat}
    (h : headerStart index count = headerStart index' count) : index = index' := by
  rw [← lineIndex_headerStart index count, h, lineIndex_headerStart]

/-- A block that ends at `stop` goes to the end of a side with `size` lines. If the hunk of the
block shows no lines of that side, it may as well end before. -/
def Reaches (stop size : Nat) (side : List String) : Prop := stop = size ∨ stop ≤ size ∧ side = []

/-- So it is if the header counts the lines of the side. -/
theorem reaches_iff {stop size start count : Nat} {side : List String}
    (hsize : start + count = size) (hside : side.length = count) :
    Reaches stop size side ↔ stop - start = count := by
  constructor
  · rintro (rfl | ⟨hle, rfl⟩)
    · omega
    · obtain rfl := hside
      exact Nat.sub_eq_zero_of_le (hle.trans hsize.ge)
  · intro hcount
    -- A side without lines is counted right by a stop in front of its start too.
    by_cases hempty : count = 0
    · rw [hempty] at hcount hside hsize
      have hle : stop ≤ size := (Nat.sub_eq_zero_iff_le.mp hcount).trans hsize.le
      exact .inr ⟨hle, List.length_eq_zero_iff.mp hside⟩
    · exact .inl (by omega)

/-- A hunk shows the lines of its group. -/
theorem sides_hunkOf (h : Walk (Block.Leads old new) (i, j) group (i + m, j + n)) :
    (hunkOf old.toArray new.toArray first last group).oldSide =
        ((old.drop i).take m).map shownLine ∧
      (hunkOf old.toArray new.toArray first last group).newSide =
        ((new.drop j).take n).map shownLine := by
  obtain ⟨m', n', hplace, hold, hnew⟩ := exists_sides h
  obtain ⟨hm, hn⟩ := Prod.mk.inj hplace
  obtain rfl := Nat.add_left_cancel hm
  obtain rfl := Nat.add_left_cancel hn
  exact ⟨hold, hnew⟩

theorem length_sides_hunkOf (h : Walk (Block.Leads old new) (i, j) group (i + m, j + n))
    (holdSize : i + m ≤ old.length) (hnewSize : j + n ≤ new.length) :
    (hunkOf old.toArray new.toArray first last group).oldSide.length = m ∧
      (hunkOf old.toArray new.toArray first last group).newSide.length = n := by
  obtain ⟨hold, hnew⟩ := sides_hunkOf h
  rw [hold, hnew, List.length_map, List.length_map]
  exact ⟨length_take_drop holdSize, length_take_drop hnewSize⟩

/-- The header of a hunk is exact if its first block begins and its last one ends where they say. -/
theorem exact_hunkOf (h : Walk (Block.Leads old new) (i, j) group (i + m, j + n))
    (holdSize : i + m ≤ old.length) (hnewSize : j + n ≤ new.length)
    (hfirst : first.oldStart = i ∧ first.newStart = j)
    (hlast : last.oldStop - i = m ∧ last.newStop - j = n) :
    (hunkOf old.toArray new.toArray first last group).Exact (i, j) := by
  obtain ⟨hold, hnew⟩ := length_sides_hunkOf h holdSize hnewSize
  constructor
  · rw [hunkOf, hfirst.1]
  · rw [hold, hunkOf, hfirst.1, hlast.1]
  · rw [hunkOf, hfirst.2]
  · rw [hnew, hunkOf, hfirst.2, hlast.2]

/-- So it is if the block at either end is unchanged, or else is where it says. -/
theorem exact_of_ends (h : Walk (Block.Leads old new) (i, j) group (i + m, j + n))
    (holdSize : i + m ≤ old.length) (hnewSize : j + n ≤ new.length)
    (hfirst : group.head? = some first) (hlast : group.getLast? = some last)
    (hbegin : first.unchanged = true ∨ first.oldStart = i ∧ first.newStart = j)
    (hend : last.unchanged = true ∨
      Reaches last.oldStop (i + m) (hunkOf old.toArray new.toArray first last group).oldSide ∧
        Reaches last.newStop (j + n) (hunkOf old.toArray new.toArray first last group).newSide) :
    (hunkOf old.toArray new.toArray first last group).Exact (i, j) := by
  apply exact_hunkOf h holdSize hnewSize
  · exact hbegin.elim (start_eq_of_unchanged h hfirst) id
  · rcases hend with hunchanged | ⟨hold, hnew⟩
    · obtain ⟨hold, hnew⟩ := stop_eq_of_unchanged h hlast hunchanged
      rw [hold, hnew]
      exact ⟨Nat.add_sub_cancel_left .., Nat.add_sub_cancel_left ..⟩
    · obtain ⟨holdLength, hnewLength⟩ := length_sides_hunkOf h holdSize hnewSize
      exact ⟨(reaches_iff rfl holdLength).mp hold, (reaches_iff rfl hnewLength).mp hnew⟩

end ExactEdit.Diff
