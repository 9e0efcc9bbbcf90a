import ExactEdit.Diff.Hunk
import ExactEdit.Proofs.Diff.Block
import Mathlib.Algebra.Group.Nat.Defs

/-! # Groups of blocks

Blocks are cut into groups at long unchanged blocks, after the first and the last block have been
shortened if they are unchanged. What is left out between two groups, before the first and behind
the last is the same in both sequences. A group begins and ends with an unchanged block, which
stands where it says that it does; only the first group may begin with a changed block, which is
then the first of all, and only the last may end with one, which is then the last of all.

Whether a block is long is asked with a checked sum. Where it is not a word, no group is made as
soon as there is an unchanged block; otherwise the groups are those of the numbers themselves.

## Main definitions

* `exactGroups` — the groups of blocks, with twice the context as a number
* `Parted` — groups of blocks with stretches between them on which the sequences agree

## Main results

* `groups_eq` — when there are groups, and which
* `parted_exactGroups` — the groups of a difference part two sequences
* `exists_exactGroups_cons`, `exists_exactGroups_concat` — a changed block at an end of all is at an
  end of the groups
-/

namespace ExactEdit.Diff

variable {α : Type} {old new : List α} {start place stop : Place} {i j gap tail context : Nat}
variable {opening closing : Option Block} {block : Block} {group blocks : List Block}

/-- Groups of blocks one behind the other. Between two groups there are elements left out; in front
of the first and behind the last there may be. The sequences agree on what is left out. A group
begins with an unchanged block, or else with `opening`, at the very start; it ends with an unchanged
block, or else with `closing`, at the very end. -/
inductive Parted (old new : List α) (closing : Option Block) :
    Option Block → Place → List (List Block) → Place → Prop
  | done {opening : Option Block} {i j tail : Nat} (agree : Agree old new (i, j) tail) :
    Parted old new closing opening (i, j) [] (i + tail, j + tail)
  | group {opening : Option Block} {i j gap : Nat} {group : List Block}
    {groups : List (List Block)} {place stop : Place} (apart : opening = none → 0 < gap)
    (agree : Agree old new (i, j) gap)
    (walk : Walk (Block.Leads old new) (i + gap, j + gap) group place) (nonempty : group ≠ [])
    (first : ∀ block ∈ group.head?, block.unchanged = true ∨ opening = some block ∧ gap = 0)
    (last : ∀ block ∈ group.getLast?,
      block.unchanged = true ∨ closing = some block ∧ groups = [] ∧ place = stop)
    (rest : Parted old new closing none place groups stop) :
    Parted old new closing opening (i, j) (group :: groups) stop

/-! ## Groups by numbers -/

/-- Cuts blocks into groups as `groupBlocks` does, with twice the context as a number. -/
def cutGroups (context : Nat) (group : List Block) : List Block → List (List Block)
  | [] => lastGroups group
  | block :: rest =>
    if block.unchanged = true ∧ 2 * context < block.oldCount then
      let surplus := block.oldCount - context
      let ending : Block := ⟨true, block.oldStart, context, block.newStart, context⟩
      let opening : Block :=
        ⟨true, block.oldStart + surplus, block.oldCount - surplus, block.newStart + surplus,
          block.oldCount - surplus⟩
      (ending :: group).reverse :: cutGroups context [opening] rest
    else cutGroups context (block :: group) rest

/-- The groups of blocks, with twice the context as a number. -/
def exactGroups (context : Nat) (blocks : List Block) : List (List Block) :=
  cutGroups context [] (trimLast context (trimFirst context blocks))

/-- The program stops for want of a word at the first unchanged block, if there is one; otherwise
the groups are those of the numbers. -/
theorem groupBlocks_eq (context : Nat) (group blocks : List Block) :
    groupBlocks context group blocks =
      if 2 ^ 63 ≤ context ∧ blocks.any (·.unchanged) = true then .error .sumOverflow
      else .ok (cutGroups context group blocks) := by
  have hsize : UInt64.size = 18446744073709551616 := rfl
  induction blocks generalizing group with
  | nil =>
    rw [List.any_nil, if_neg fun hstops => Bool.false_ne_true hstops.2, groupBlocks, cutGroups]
  | cons block rest ih =>
    rw [groupBlocks, cutGroups, List.any_cons]
    cases hsort : block.unchanged with
    | false =>
      have hshort : ¬ (false = true ∧ 2 * context < block.oldCount) :=
        fun hlong => Bool.false_ne_true hlong.1
      rw [if_neg Bool.false_ne_true, if_neg hshort, ih, Bool.false_or]
    | true =>
      rw [if_pos rfl]
      by_cases hcontext : 2 ^ 63 ≤ context
      · rw [checkedSum_of_le (by omega), if_pos ⟨hcontext, rfl⟩]
        rfl
      · have hrest : ∀ group,
            groupBlocks context group rest = .ok (cutGroups context group rest) := by
          intro group
          rw [ih, if_neg fun hstops => hcontext hstops.1]
        rw [checkedSum_of_lt (by omega), if_neg fun hstops => hcontext hstops.1, ← Nat.two_mul]
        simp only [bind, Except.bind, hrest, true_and]
        split
        · rfl
        · rfl

theorem map_unchanged_trimFirst (context : Nat) (blocks : List Block) :
    (trimFirst context blocks).map (·.unchanged) = blocks.map (·.unchanged) := by
  cases blocks with
  | nil => rfl
  | cons block rest =>
    rw [trimFirst]
    split
    · next hunchanged => rw [List.map_cons, List.map_cons, hunchanged]
    · rfl

/-- Only a last block is shortened at its end. -/
theorem trimLast_cons (context : Nat) (block : Block) {rest : List Block} (hne : rest ≠ []) :
    trimLast context (block :: rest) = block :: trimLast context rest := by
  cases rest with
  | nil => exact absurd rfl hne
  | cons next rest => rfl

theorem map_unchanged_trimLast (context : Nat) (blocks : List Block) :
    (trimLast context blocks).map (·.unchanged) = blocks.map (·.unchanged) := by
  induction blocks with
  | nil => rfl
  | cons block rest ih =>
    cases rest with
    | nil =>
      rw [trimLast]
      split
      · rfl
      · rfl
    | cons next rest =>
      rw [trimLast_cons context block (List.cons_ne_nil next rest), List.map_cons, ih]
      rfl

/-- Groups are made by the numbers, unless the program stops. Shortening a block does not change
whether it is asked for its length. -/
theorem groups_eq (context : Nat) (blocks : List Block) :
    groups context blocks =
      if 2 ^ 63 ≤ context ∧ blocks.any (·.unchanged) = true then .error .sumOverflow
      else .ok (exactGroups context blocks) := by
  have hsame : (trimLast context (trimFirst context blocks)).map (·.unchanged) =
      blocks.map (·.unchanged) :=
    (map_unchanged_trimLast ..).trans (map_unchanged_trimFirst ..)
  have hany : ∀ blocks : List Block,
      blocks.any (·.unchanged) = (blocks.map (·.unchanged)).any id := by
    intro blocks
    rw [List.any_map]
    rfl
  rw [groups, groupBlocks_eq, hany, hsame, ← hany]
  rfl

/-! ## Halves -/

/-- A long unchanged block gives its first elements to what is before and its last ones to what is
behind, and some are left out. -/
theorem Block.Leads.halves (h : Leads old new start block stop)
    (hunchanged : block.unchanged = true) (hlong : 2 * context < block.oldCount) :
    ∃ i j left, 0 < left ∧
      Leads old new start ⟨true, block.oldStart, context, block.newStart, context⟩ (i, j) ∧
      Agree old new (i, j) left ∧
      Leads old new (i + left, j + left)
        ⟨true, block.oldStart + (block.oldCount - context),
          block.oldCount - (block.oldCount - context),
          block.newStart + (block.oldCount - context),
          block.oldCount - (block.oldCount - context)⟩ stop := by
  cases h with
  | changed => cases hunchanged
  | @unchanged i j count hagree =>
    replace hlong : 2 * context < count := hlong
    obtain ⟨left, hleft, rfl⟩ : ∃ left, 0 < left ∧ count = context + left + context :=
      ⟨count - 2 * context, Nat.sub_pos_of_lt hlong, by omega⟩
    refine ⟨i + context, j + context, left, hleft, .unchanged hagree.left.left, hagree.left.right,
      ?_⟩
    have hopening := Leads.unchanged hagree.right
    simp only [Nat.add_sub_cancel, Nat.add_sub_cancel_left]
    simpa only [Nat.add_assoc] using hopening

/-! ## Ends of lists -/

theorem forall_mem_head?_append {β : Type} {P : β → Prop} {a b : β} {front back back' : List β}
    (h : ∀ x ∈ (front ++ a :: back).head?, P x) (hb : P b) :
    ∀ x ∈ (front ++ b :: back').head?, P x := by
  cases front with
  | nil =>
    rintro _ ⟨⟩
    exact hb
  | cons first front => exact h

theorem forall_mem_getLast?_cons {β : Type} {P : β → Prop} {a b : β} {back : List β}
    (h : ∀ x ∈ (a :: back).getLast?, P x) (hb : P b) : ∀ x ∈ (b :: back).getLast?, P x := by
  cases back using List.reverseRecOn with
  | nil =>
    rintro _ ⟨⟩
    exact hb
  | append_singleton back last =>
    simpa [List.getLast?_cons] using h

/-! ## Cutting -/

/-- The last group. -/
theorem parted_singleton (hapart : opening = none → 0 < gap) (hagree : Agree old new (i, j) gap)
    (hgroup : Walk (Block.Leads old new) (i + gap, j + gap) group stop) (hne : group ≠ [])
    (htail : Agree old new stop tail)
    (hfirst : ∀ block ∈ group.head?, block.unchanged = true ∨ opening = some block ∧ gap = 0)
    (hlast : ∀ block ∈ group.getLast?,
      block.unchanged = true ∨ closing = some block ∧ tail = 0) :
    Parted old new closing opening (i, j) [group] (stop.1 + tail, stop.2 + tail) := by
  refine .group hapart hagree hgroup hne hfirst (fun block hblock => ?_) (.done htail)
  refine (hlast block hblock).imp_right ?_
  rintro ⟨hclosing, rfl⟩
  exact ⟨hclosing, rfl, rfl⟩

/-- What becomes of the open group when no blocks are left. -/
theorem parted_lastGroups (hapart : opening = none → 0 < gap)
    (hagree : Agree old new (i, j) gap)
    (hgroup : Walk (Block.Leads old new) (i + gap, j + gap) group.reverse stop)
    (htail : Agree old new stop tail)
    (hfirst : ∀ block ∈ group.reverse.head?,
      block.unchanged = true ∨ opening = some block ∧ gap = 0)
    (hlast : ∀ block ∈ group.reverse.getLast?,
      block.unchanged = true ∨ closing = some block ∧ tail = 0) :
    Parted old new closing opening (i, j) (lastGroups group)
      (stop.1 + tail, stop.2 + tail) := by
  have hwhole (hne : group.reverse ≠ []) : Parted old new closing opening (i, j) [group.reverse]
      (stop.1 + tail, stop.2 + tail) :=
    parted_singleton hapart hagree hgroup hne htail hfirst hlast
  cases group with
  | nil =>
    obtain rfl := hgroup
    have hdone : Parted old new closing opening (i, j) [] (i + (gap + tail), j + (gap + tail)) :=
      .done (hagree.append htail)
    rwa [← Nat.add_assoc, ← Nat.add_assoc] at hdone
  | cons block group =>
    cases group with
    | cons => exact hwhole (by simp)
    | nil =>
      rw [lastGroups]
      split
      · next hunchanged =>
        -- A single unchanged block is left out with what is around it.
        cases walk_singleton.mp hgroup with
        | changed => cases hunchanged
        | @unchanged _ _ count hkept =>
          have hdone : Parted old new closing opening (i, j) []
              (i + (gap + count + tail), j + (gap + count + tail)) :=
            .done ((hagree.append hkept).append (by rwa [← Nat.add_assoc, ← Nat.add_assoc]))
          simpa only [← Nat.add_assoc] using hdone
      · exact hwhole (by simp)

/-- Blocks behind an open group are cut into groups. The open group is behind elements that are left
out already. -/
theorem parted_cutGroups (hapart : opening = none → 0 < gap)
    (hagree : Agree old new (i, j) gap)
    (hgroup : Walk (Block.Leads old new) (i + gap, j + gap) group.reverse place)
    (hblocks : Walk (Block.Leads old new) place blocks stop) (htail : Agree old new stop tail)
    (hfirst : ∀ block ∈ (group.reverse ++ blocks).head?,
      block.unchanged = true ∨ opening = some block ∧ gap = 0)
    (hlast : ∀ block ∈ (group.reverse ++ blocks).getLast?,
      block.unchanged = true ∨ closing = some block ∧ tail = 0) :
    Parted old new closing opening (i, j) (cutGroups context group blocks)
      (stop.1 + tail, stop.2 + tail) := by
  -- The induction is on the blocks to come, for any open group: a long block ends that group with
  -- its own first elements, and opens the next one behind a stretch that is left out.
  induction blocks generalizing opening i j gap group place with
  | nil =>
    obtain rfl := hblocks
    rw [List.append_nil] at hfirst hlast
    exact parted_lastGroups hapart hagree hgroup htail hfirst hlast
  | cons block blocks ih =>
    obtain ⟨next, hblock, hrest⟩ := hblocks
    rw [cutGroups]
    split
    · next hlong =>
      obtain ⟨i', j', left, hleft, hending, hkept, hopening⟩ := hblock.halves hlong.1 hlong.2
      refine .group hapart hagree ?_ (by simp) ?_ ?_ (ih (fun _ => hleft) hkept
        (walk_singleton.mpr hopening) hrest ?_ ?_)
      · rw [List.reverse_cons]
        exact hgroup.append (walk_singleton.mpr hending)
      · rw [List.reverse_cons]
        exact forall_mem_head?_append hfirst (.inl rfl)
      · rw [List.reverse_cons, List.getLast?_concat]
        rintro _ ⟨⟩
        exact .inl rfl
      · rintro _ ⟨⟩
        exact .inl rfl
      · rw [List.getLast?_append_of_ne_nil _ (List.cons_ne_nil _ _)] at hlast
        exact forall_mem_getLast?_cons hlast (.inl rfl)
    · apply ih hapart hagree ?_ hrest ?_ ?_
      · rw [List.reverse_cons]
        exact hgroup.append (walk_singleton.mpr hblock)
      · simpa using hfirst
      · simpa using hlast

/-! ## Shortening -/

/-- An unchanged first block is shortened at its start, on which the sequences agree. -/
theorem exists_walk_trimFirst (context : Nat)
    (h : Walk (Block.Leads old new) (i, j) blocks stop) :
    ∃ gap, Agree old new (i, j) gap ∧
      Walk (Block.Leads old new) (i + gap, j + gap) (trimFirst context blocks) stop ∧
      (∀ block ∈ (trimFirst context blocks).head?,
        block.unchanged = true ∨ blocks.head? = some block ∧ gap = 0) ∧
      ∀ block ∈ (trimFirst context blocks).getLast?,
        block.unchanged = true ∨ blocks.getLast? = some block := by
  cases blocks with
  | nil => exact ⟨0, agree_zero _ _ _, h, nofun, nofun⟩
  | cons first rest =>
    obtain ⟨next, hfirst, hrest⟩ := h
    cases hfirst with
    | changed hold hnew hsome =>
      refine ⟨0, agree_zero _ _ _, ⟨_, .changed hold hnew hsome, hrest⟩, ?_, ?_⟩
      · rintro _ ⟨⟩
        exact .inr ⟨rfl, rfl⟩
      · exact fun block hblock => .inr hblock
    | @unchanged _ _ count hagree =>
      -- What is cut off and what is kept are the whole block, however short it is.
      have hcount : count - context + (count - (count - context)) = count :=
        Nat.add_sub_cancel' (Nat.sub_le ..)
      have hsplit : Agree old new (i, j) (count - context + (count - (count - context))) := by
        rwa [hcount]
      have hkept := Block.Leads.unchanged hsplit.right
      rw [Nat.add_assoc, Nat.add_assoc, hcount] at hkept
      refine ⟨count - context, hsplit.left, ⟨_, hkept, hrest⟩, ?_, ?_⟩
      · rintro _ ⟨⟩
        exact .inl rfl
      · exact forall_mem_getLast?_cons (fun block hblock => .inr hblock) (.inl rfl)

theorem trimLast_concat (context : Nat) (front : List Block) (block : Block) :
    trimLast context (front ++ [block]) = front ++ trimLast context [block] := by
  induction front with
  | nil => rfl
  | cons first front ih =>
    rw [List.cons_append, trimLast_cons context first (List.concat_ne_nil block front),
      ih, List.cons_append]

/-- An unchanged last block is shortened at its end, on which the sequences agree. -/
theorem exists_walk_trimLast (context : Nat)
    (h : Walk (Block.Leads old new) start blocks stop) :
    ∃ place tail, Walk (Block.Leads old new) start (trimLast context blocks) place ∧
      Agree old new place tail ∧ stop = (place.1 + tail, place.2 + tail) ∧
      (∀ block ∈ (trimLast context blocks).head?,
        block.unchanged = true ∨ blocks.head? = some block) ∧
      ∀ block ∈ (trimLast context blocks).getLast?,
        block.unchanged = true ∨ blocks.getLast? = some block ∧ tail = 0 := by
  cases blocks using List.reverseRecOn with
  | nil => exact ⟨stop, 0, h, agree_zero _ _ _, rfl, nofun, nofun⟩
  | append_singleton front last =>
    obtain ⟨middle, hfront, hlast⟩ := walk_append.mp h
    rw [trimLast_concat]
    cases walk_singleton.mp hlast with
    | changed hold hnew hsome =>
      refine ⟨_, 0, hfront.append (walk_singleton.mpr (.changed hold hnew hsome)),
        agree_zero _ _ _, rfl, fun block hblock => .inr hblock, fun block hblock => ?_⟩
      exact .inr ⟨hblock, rfl⟩
    | @unchanged i j count hagree =>
      have hcount : min count context + (count - min count context) = count :=
        Nat.add_sub_cancel' (Nat.min_le_left ..)
      have hsplit : Agree old new (i, j) (min count context + (count - min count context)) := by
        rwa [hcount]
      refine ⟨_, _, hfront.append (walk_singleton.mpr (.unchanged hsplit.left)), hsplit.right, ?_,
        ?_, ?_⟩
      · rw [Nat.add_assoc, Nat.add_assoc, hcount]
      · exact forall_mem_head?_append (fun block hblock => .inr hblock) (.inl rfl)
      · rw [trimLast, if_pos rfl, List.getLast?_concat]
        rintro _ ⟨⟩
        exact .inl rfl

/-! ## Groups -/

/-- The groups of a difference part two sequences. -/
theorem parted_exactGroups (context : Nat) (h : Walk (Block.Leads old new) start blocks stop) :
    Parted old new blocks.getLast? blocks.head? start (exactGroups context blocks) stop := by
  obtain ⟨i, j⟩ := start
  cases blocks with
  | nil =>
    obtain rfl := h
    exact .done (agree_zero old new (i, j))
  | cons block rest =>
    obtain ⟨gap, hagree, htrimmed, hfirst, hlast⟩ := exists_walk_trimFirst context h
    obtain ⟨place, tail, hwalk, htail, rfl, hfirst', hlast'⟩ :=
      exists_walk_trimLast context htrimmed
    have hgroup : Walk (Block.Leads old new) (i + gap, j + gap) [].reverse (i + gap, j + gap) := rfl
    -- A block that is changed at either end was there before the shortening, and nothing was cut.
    refine parted_cutGroups nofun hagree hgroup hwalk htail ?_ ?_
    · intro found hfound
      exact (hfirst' found hfound).elim .inl (hfirst found)
    · intro found hfound
      rcases hlast' found hfound with hunchanged | ⟨hfound, htail⟩
      · exact .inl hunchanged
      · exact (hlast found hfound).imp_right fun hlast => ⟨hlast, htail⟩

theorem exists_cutGroups_cons (hchanged : block.unchanged = false) (group blocks : List Block) :
    ∃ behind more, cutGroups context (group ++ [block]) blocks = (block :: behind) :: more := by
  induction blocks generalizing group with
  | nil =>
    cases group with
    | nil => exact ⟨[], [], by rw [List.nil_append, cutGroups, lastGroups, hchanged]; rfl⟩
    | cons last group =>
      refine ⟨(last :: group).reverse, [], ?_⟩
      cases group <;> simp [cutGroups, lastGroups]
  | cons next blocks ih =>
    rw [cutGroups]
    split
    · dsimp only
      rw [List.reverse_cons, List.reverse_append]
      exact ⟨_, _, rfl⟩
    · exact ih (next :: group)

theorem exists_cutGroups_concat (hchanged : block.unchanged = false)
    (group front : List Block) :
    ∃ more before, cutGroups context group (front ++ [block]) = more ++ [before ++ [block]] := by
  induction front generalizing group with
  | nil =>
    refine ⟨[], group.reverse, ?_⟩
    rw [List.nil_append, cutGroups, hchanged]
    cases group <;> simp [cutGroups, lastGroups, hchanged]
  | cons next front ih =>
    rw [List.cons_append, cutGroups]
    split
    · dsimp only
      obtain ⟨more, before, hmore⟩ := ih [_]
      exact ⟨_ :: more, before, by rw [hmore, List.cons_append]⟩
    · exact ih (next :: group)

/-- A changed first block is the first one of the groups. -/
theorem exists_exactGroups_cons (context : Nat) (hchanged : block.unchanged = false)
    (rest : List Block) :
    ∃ group more, exactGroups context (block :: rest) = (block :: group) :: more := by
  obtain ⟨trimmed, htrimmed⟩ : ∃ trimmed, trimLast context (block :: rest) = block :: trimmed := by
    cases rest using List.reverseRecOn with
    | nil => exact ⟨[], by rw [trimLast, hchanged]; rfl⟩
    | append_singleton front last => exact ⟨_, trimLast_concat context (block :: front) last⟩
  -- Only unchanged blocks are shortened.
  have hfirst : trimFirst context (block :: rest) = block :: rest := by
    rw [trimFirst, hchanged]
    rfl
  rw [exactGroups, hfirst, htrimmed, cutGroups, hchanged]
  exact exists_cutGroups_cons hchanged [] trimmed

/-- A changed last block is the last one of the groups. -/
theorem exists_exactGroups_concat (context : Nat) (hchanged : block.unchanged = false)
    (front : List Block) :
    ∃ more group, exactGroups context (front ++ [block]) = more ++ [group ++ [block]] := by
  obtain ⟨trimmed, htrimmed⟩ : ∃ trimmed,
      trimFirst context (front ++ [block]) = trimmed ++ [block] := by
    cases front with
    | nil => exact ⟨[], by rw [List.nil_append, trimFirst, hchanged]; rfl⟩
    | cons first front =>
      rw [List.cons_append, trimFirst]
      split
      · exact ⟨_ :: front, rfl⟩
      · exact ⟨first :: front, rfl⟩
  rw [exactGroups, htrimmed, trimLast_concat, trimLast, hchanged]
  exact exists_cutGroups_concat hchanged [] trimmed

/-- A single unchanged block is in no group. -/
theorem exactGroups_singleton (hunchanged : block.unchanged = true) :
    exactGroups context [block] = [] := by
  -- It is shortened to the context, so it is not long enough to be cut.
  have hshort : ¬ 2 * context <
      min (block.oldCount - (block.oldCount - context)) context := by omega
  rw [exactGroups, trimFirst, if_pos hunchanged, trimLast, if_pos rfl, cutGroups]
  simp [cutGroups, hshort, lastGroups]

end ExactEdit.Diff
