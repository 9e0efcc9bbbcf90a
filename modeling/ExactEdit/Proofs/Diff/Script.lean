import ExactEdit.Diff.Script
import Mathlib.Data.List.Infix

/-! # Edit scripts as walks

An edit script is read from a place in the old and a place in the new sequence. An equal run goes
on in both over elements that are the same, a deletion goes on in the old one and an insertion in
the new one. Where a deletion says that it stands in the new sequence, and an insertion in the old
one, does not matter for this.

## Main definitions

* `Walk` — steps one behind the other
* `Agree` — two sequences have the same elements from some places on
* `Run.Leads` — a run leads from one place to another

## Main results

* `walk_script` — the script of two sequences leads through both of them
* `script_self` — two equal sequences have one equal run
-/

namespace ExactEdit.Diff

variable {α : Type}

/-! ## Walks -/

section Walk

variable {ι β : Type} {step : ι → β → ι → Prop} {start stop : ι} {label : β} {front back : List β}

/-- Steps with the given labels lead from one place to another. -/
def Walk (step : ι → β → ι → Prop) : ι → List β → ι → Prop
  | start, [], stop => start = stop
  | start, label :: labels, stop => ∃ next, step start label next ∧ Walk step next labels stop

theorem walk_append :
    Walk step start (front ++ back) stop ↔
      ∃ middle, Walk step start front middle ∧ Walk step middle back stop := by
  induction front generalizing start with
  | nil => simp [Walk]
  | cons label front ih =>
    simp only [List.cons_append, Walk, ih]
    constructor
    · rintro ⟨next, hstep, middle, hfront, hback⟩
      exact ⟨middle, ⟨next, hstep, hfront⟩, hback⟩
    · rintro ⟨middle, ⟨next, hstep, hfront⟩, hback⟩
      exact ⟨next, hstep, middle, hfront, hback⟩

theorem walk_singleton : Walk step start [label] stop ↔ step start label stop := by
  simp [Walk]

theorem Walk.append {middle : ι} (hfront : Walk step start front middle)
    (hback : Walk step middle back stop) : Walk step start (front ++ back) stop :=
  walk_append.mpr ⟨middle, hfront, hback⟩

theorem Walk.congr_back {back' : List β} (h : Walk step start (front ++ back) stop)
    (hback : ∀ middle, Walk step middle back stop → Walk step middle back' stop) :
    Walk step start (front ++ back') stop := by
  obtain ⟨middle, hfront, hwalk⟩ := walk_append.mp h
  exact hfront.append (hback middle hwalk)

/-- Every label of a walk is the label of a step. -/
theorem Walk.exists_step (h : Walk step start front stop) (hmem : label ∈ front) :
    ∃ place next, step place label next := by
  induction front generalizing start with
  | nil => cases hmem
  | cons head front ih =>
    obtain ⟨next, hstep, hrest⟩ := h
    rcases List.mem_cons.mp hmem with rfl | hmem
    · exact ⟨start, next, hstep⟩
    · exact ih hrest hmem

end Walk

/-! ## Agreement -/

/-- An old and a new index. -/
abbrev Place := Nat × Nat

variable {allOld allNew old new : List α} {i j count : Nat}

/-- From a place on, two sequences have the same elements, for so many of them. -/
def Agree (old new : List α) (place : Place) (count : Nat) : Prop :=
  ∀ index < count, old[place.1 + index]? = new[place.2 + index]?

theorem agree_zero (old new : List α) (place : Place) : Agree old new place 0 :=
  fun _ hlt => absurd hlt (Nat.not_lt_zero _)

theorem agree_one (h : old[i]? = new[j]?) : Agree old new (i, j) 1 := by
  intro index hlt
  obtain rfl := Nat.lt_one_iff.mp hlt
  exact h

theorem Agree.append {more : Nat} (h : Agree old new (i, j) count)
    (hmore : Agree old new (i + count, j + count) more) :
    Agree old new (i, j) (count + more) := by
  intro index hlt
  by_cases hfront : index < count
  · exact h index hfront
  · have hback := hmore (index - count) (by omega)
    have hindex : ∀ start, start + count + (index - count) = start + index := by omega
    simpa only [hindex] using hback

theorem Agree.left {more : Nat} (h : Agree old new (i, j) (count + more)) :
    Agree old new (i, j) count :=
  fun index hlt => h index (by omega)

theorem Agree.right {more : Nat} (h : Agree old new (i, j) (count + more)) :
    Agree old new (i + count, j + count) more := by
  intro index hlt
  have hback := h (count + index) (by omega)
  simpa only [Nat.add_assoc] using hback

/-- Sequences that both go on with the same elements agree. -/
theorem agree_of_prefix {shared : List α} (hold : shared <+: allOld.drop i)
    (hnew : shared <+: allNew.drop j) : Agree allOld allNew (i, j) shared.length := by
  obtain ⟨oldRest, hold⟩ := hold
  obtain ⟨newRest, hnew⟩ := hnew
  intro index hlt
  rw [← List.getElem?_drop, ← List.getElem?_drop, ← hold, ← hnew,
    List.getElem?_append_left hlt, List.getElem?_append_left hlt]

/-- What a part leaves of its first elements goes on behind them. -/
theorem drop_prefix_drop {part all : List α} (h : part <+: all.drop i) (count : Nat) :
    part.drop count <+: all.drop (i + count) := by
  rw [← List.drop_drop]
  exact h.drop count

theorem prefix_drop_of_append {front back all : List α} (h : front ++ back <+: all.drop i) :
    back <+: all.drop (i + front.length) := by
  have hdrop := drop_prefix_drop h front.length
  rwa [List.drop_left] at hdrop

/-! ## Runs -/

/-- A run leads from a place to the place behind its elements. What it says about a sequence of
which it has no elements is left open. -/
inductive Run.Leads (old new : List α) : Place → Run → Place → Prop
  | equal {i j length : Nat} (agree : Agree old new (i, j) length) :
    Leads old new (i, j) ⟨.equal, i, j, length⟩ (i + length, j + length)
  | delete (i j newStart length : Nat) :
    Leads old new (i, j) ⟨.delete, i, newStart, length⟩ (i + length, j)
  | insert (i j oldStart length : Nat) :
    Leads old new (i, j) ⟨.insert, oldStart, j, length⟩ (i, j + length)

theorem walk_runOf_equal (h : Agree allOld allNew (i, j) count) :
    Walk (Run.Leads allOld allNew) (i, j) (runOf .equal i j count) (i + count, j + count) := by
  rw [runOf]
  split
  · next hzero => rw [hzero]; rfl
  · exact walk_singleton.mpr (.equal h)

/-- Old elements that go and new ones that come. -/
theorem walk_replace (allOld allNew : List α) (i j oldCount newCount : Nat) :
    Walk (Run.Leads allOld allNew) (i, j)
      (runOf .delete i j oldCount ++ runOf .insert i j newCount) (i + oldCount, j + newCount) := by
  have hdelete : Walk (Run.Leads allOld allNew) (i, j) (runOf .delete i j oldCount)
      (i + oldCount, j) := by
    rw [runOf]
    split
    · next hzero => rw [hzero]; rfl
    · exact walk_singleton.mpr (.delete i j j oldCount)
  refine hdelete.append ?_
  rw [runOf]
  split
  · next hzero => rw [hzero]; rfl
  · exact walk_singleton.mpr (.insert _ j i newCount)

/-! ## Scripts -/

section Script

variable [BEq α] [LawfulBEq α]

/-- What two sequences share in front can be cut off both. -/
theorem exists_shared (left right : List α) :
    ∃ front left' right', left = front ++ left' ∧ right = front ++ right' ∧
      front.length = sharedLength left right := by
  -- The count starts anywhere, so that the induction can go on behind a shared element.
  have hgo : ∀ count, ∃ front left' right', left = front ++ left' ∧ right = front ++ right' ∧
      count + front.length = sharedLength.go count left right := by
    induction left generalizing right with
    | nil => exact fun count => ⟨[], [], right, rfl, rfl, rfl⟩
    | cons a left ih =>
      intro count
      cases right with
      | nil => exact ⟨[], a :: left, [], rfl, rfl, rfl⟩
      | cons b right =>
        rw [sharedLength.go]
        by_cases hab : a = b
        · obtain rfl := hab
          obtain ⟨front, left', right', rfl, rfl, hlength⟩ := ih right (count + 1)
          refine ⟨a :: front, left', right', rfl, rfl, ?_⟩
          rw [if_pos BEq.rfl, ← hlength, List.length_cons, Nat.add_right_comm, Nat.add_assoc]
        · exact ⟨[], a :: left, b :: right, rfl, rfl, by rw [if_neg (by simpa using hab)]; rfl⟩
  obtain ⟨front, left', right', hleft, hright, hlength⟩ := hgo 0
  exact ⟨front, left', right', hleft, hright, by rw [sharedLength, ← hlength, Nat.zero_add]⟩

/-- Two sequences are their cores between ends that they share. -/
theorem exists_ends (old new : List α) :
    ∃ front back, old = front ++ (coreOf old new).old ++ back ∧
      new = front ++ (coreOf old new).new ++ back ∧
      front.length = (coreOf old new).front ∧ back.length = (coreOf old new).back := by
  obtain ⟨front, oldRest, newRest, hold, hnew, hfront⟩ := exists_shared old new
  have holdRest : old.drop (sharedLength old new) = oldRest := by
    rw [← hfront, hold, List.drop_left]
  have hnewRest : new.drop (sharedLength old new) = newRest := by
    rw [← hfront, hnew, List.drop_left]
  -- The shared end is the shared front of the reversed rests.
  obtain ⟨back, oldCore, newCore, holdCore, hnewCore, hback⟩ :=
    exists_shared oldRest.reverse newRest.reverse
  rw [List.reverse_eq_iff, List.reverse_append] at holdCore hnewCore
  refine ⟨front, back.reverse, ?_, ?_, hfront, ?_⟩
  · rw [coreOf, holdRest, hnewRest, ← hback, holdCore, hold, holdCore]
    simp
  · rw [coreOf, holdRest, hnewRest, ← hback, hnewCore, hnew, hnewCore]
    simp
  · rw [coreOf, holdRest, hnewRest, List.length_reverse, hback]

omit [BEq α] [LawfulBEq α] in
/-- A walk between ends that are shared is one of the whole. -/
theorem Walk.between_ends {front oldCore newCore back : List α} {middle : List Run}
    (hold : front ++ oldCore ++ back <+: allOld.drop i)
    (hnew : front ++ newCore ++ back <+: allNew.drop j)
    (hmiddle : Walk (Run.Leads allOld allNew) (i + front.length, j + front.length) middle
      (i + front.length + oldCore.length, j + front.length + newCore.length)) :
    Walk (Run.Leads allOld allNew) (i, j)
      (runOf .equal i j front.length ++ middle ++
        runOf .equal (i + front.length + oldCore.length) (j + front.length + newCore.length)
          back.length)
      (i + (front ++ oldCore ++ back).length, j + (front ++ newCore ++ back).length) := by
  have hstart : Agree allOld allNew (i, j) front.length := by
    rw [List.append_assoc] at hold hnew
    exact agree_of_prefix ((List.prefix_append _ _).trans hold)
      ((List.prefix_append _ _).trans hnew)
  have hend : Agree allOld allNew
      (i + front.length + oldCore.length, j + front.length + newCore.length) back.length := by
    have hold := prefix_drop_of_append hold
    have hnew := prefix_drop_of_append hnew
    rw [List.length_append, ← Nat.add_assoc] at hold hnew
    exact agree_of_prefix hold hnew
  have hwalk := ((walk_runOf_equal hstart).append hmiddle).append (walk_runOf_equal hend)
  simpa only [List.length_append, Nat.add_assoc] using hwalk

/-- The script of two sequences that stand somewhere in longer ones leads through them. -/
theorem walk_scriptAt {i j : Nat} {old new : List α} (hold : old <+: allOld.drop i)
    (hnew : new <+: allNew.drop j) :
    Walk (Run.Leads allOld allNew) (i, j) (scriptAt i j old new)
      (i + old.length, j + new.length) := by
  fun_induction scriptAt i j old new with
  | case1 i j old new core _ oldAt newAt middle ihFront ihBack =>
    obtain ⟨front, back, hcut, hcut', hfront, hback⟩ := exists_ends old new
    have hold' : front ++ core.old ++ back <+: allOld.drop i := by rwa [← hcut]
    have hnew' : front ++ core.new ++ back <+: allNew.drop j := by rwa [← hcut']
    -- Behind the shared front the cores go on in the longer sequences, and so do their parts.
    have hoff : ∀ {part all : List α} {start : Nat}, front ++ part ++ back <+: all.drop start →
        part <+: all.drop (start + core.front) := by
      intro part all start hprefix
      rw [List.append_assoc] at hprefix
      rw [← hfront]
      exact (List.prefix_append _ _).trans (prefix_drop_of_append hprefix)
    have hmiddle : Walk (Run.Leads allOld allNew) (oldAt, newAt) middle
        (oldAt + core.old.length, newAt + core.new.length) := by
      unfold middle
      split
      · exact walk_replace ..
      · split
        · next cut hinside _ =>
          have hfrontHalf := ihFront cut hinside ((List.take_prefix _ _).trans (hoff hold'))
            ((List.take_prefix _ _).trans (hoff hnew'))
          have hbackHalf := ihBack cut hinside (drop_prefix_drop (hoff hold') cut.1)
            (drop_prefix_drop (hoff hnew') cut.2)
          -- The second half begins where the first one ends, and both together are as long as the
          -- core.
          obtain ⟨-, -, hle, hle'⟩ := hinside
          have hsize : ∀ {part : List α} {start size : Nat}, size ≤ part.length →
              start + size + (part.drop size).length = start + part.length := by
            intro part start size hle
            rw [List.length_drop, Nat.add_assoc, Nat.add_sub_cancel' hle]
          rw [List.length_take_of_le hle, List.length_take_of_le hle'] at hfrontHalf
          rw [hsize hle, hsize hle'] at hbackHalf
          exact hfrontHalf.append hbackHalf
        · exact walk_replace ..
    have hwalk := Walk.between_ends hold' hnew' (by rw [hfront]; exact hmiddle)
    rw [hfront, hback] at hwalk
    rwa [← hcut, ← hcut'] at hwalk

/-- The script of two sequences leads through both of them. -/
theorem walk_script (old new : List α) :
    Walk (Run.Leads old new) (0, 0) (script old new) (old.length, new.length) := by
  have hwalk := walk_scriptAt (List.prefix_refl (old.drop 0)) (List.prefix_refl (new.drop 0))
  rwa [Nat.zero_add, Nat.zero_add] at hwalk

theorem sharedLength_self (list : List α) : sharedLength list list = list.length := by
  have hgo : ∀ count, sharedLength.go count list list = count + list.length := by
    induction list with
    | nil => exact fun count => rfl
    | cons a list ih =>
      intro count
      rw [sharedLength.go, if_pos BEq.rfl, ih, List.length_cons, Nat.add_right_comm, Nat.add_assoc]
  rw [sharedLength, hgo, Nat.zero_add]

/-- Two equal sequences have one equal run, or none if they are empty. -/
theorem script_self (list : List α) : script list list = runOf .equal 0 0 list.length := by
  have hcore : coreOf list list = ⟨list.length, 0, [], []⟩ := by
    rw [coreOf, sharedLength_self, List.drop_length]
    rfl
  rw [script, scriptAt]
  simp only [hcore]
  simp [runOf]

end Script

end ExactEdit.Diff
