import ExactEdit.Diff.Compaction
import ExactEdit.Proofs.Diff.Script

/-! # Compaction keeps walks

Moving a deletion or an insertion past equal elements, past runs of the other kind, or into runs of
its own kind changes where the elements go or come, but not what is led to. The moves change the
place that a run has in a sequence only where the run has elements of it, so what a deletion says
about the new sequence, and an insertion about the old one, does not stay right.

## Main definitions

* `Zipper.runs` — the runs of a zipper, from front to back

## Main results

* `walk_moveUp`, `walk_moveDown` — a move of a run keeps a walk
* `walk_compact` — so does compaction
* `compact_runOf_equal` — one equal run is left alone
-/

namespace ExactEdit.Diff

variable {α : Type} {old new : List α} {start stop place : Place} {i j count : Nat}
variable {before after rest script : List Run} {run here previous next : Run} {kind : RunKind}

/-- The runs of a zipper, from front to back. -/
def Zipper.runs (zipper : Zipper) : List Run :=
  zipper.before.reverse ++ zipper.here :: zipper.after

/-! ## Neighbouring runs -/

namespace Run

/-- An equal run without elements leads nowhere. -/
theorem Leads.eq_of_length_eq_zero (h : Leads old new start run stop) (hkind : run.kind = .equal)
    (hlength : run.length = 0) : start = stop := by
  cases h with
  | equal =>
    obtain rfl := hlength
    rfl
  | delete => cases hkind
  | insert => cases hkind

/-- Two neighbours of a kind are one run. -/
theorem Leads.growRight (h : Leads old new start previous place)
    (h' : Leads old new place here stop) (hkind : previous.kind = here.kind) :
    Leads old new start (previous.growRight here.length) stop := by
  cases h with
  | equal hagree =>
    cases h' with
    | equal hmore =>
      have hjoined := Leads.equal (hagree.append hmore)
      rwa [← Nat.add_assoc, ← Nat.add_assoc] at hjoined
    | delete => cases hkind
    | insert => cases hkind
  | delete i j newStart length =>
    cases h' with
    | equal => cases hkind
    | delete _ _ _ more =>
      have hjoined : Leads old new (i, j) ⟨.delete, i, newStart, length + more⟩
          (i + (length + more), j) := .delete ..
      rwa [← Nat.add_assoc] at hjoined
    | insert => cases hkind
  | insert i j oldStart length =>
    cases h' with
    | equal => cases hkind
    | delete => cases hkind
    | insert _ _ _ more =>
      have hjoined : Leads old new (i, j) ⟨.insert, oldStart, j, length + more⟩
          (i, j + (length + more)) := .insert ..
      rwa [← Nat.add_assoc] at hjoined

/-- Equal elements in front of an equal run join it. -/
theorem Leads.growLeft (h : Leads old new (i + count, j + count) next stop)
    (hagree : Agree old new (i, j) count) (hkind : next.kind = .equal) :
    Leads old new (i, j) (next.growLeft count) stop := by
  cases h with
  | @equal _ _ length hmore =>
    have hjoined := Leads.equal (hagree.append hmore)
    simpa only [Run.growLeft, Run.shiftLeft, Nat.add_sub_cancel, Nat.add_comm length,
      Nat.add_assoc] using hjoined
  | delete => cases hkind
  | insert => cases hkind

/-- A deletion and an insertion can change places. What they say about the other sequence is kept
as it is. -/
theorem Leads.swap (h : Leads old new start previous place) (h' : Leads old new place here stop)
    (hprevious : previous.kind ≠ .equal) (hhere : here.kind ≠ .equal)
    (hkind : previous.kind ≠ here.kind) :
    ∃ between, Leads old new start here between ∧ Leads old new between previous stop := by
  cases h with
  | equal => exact absurd rfl hprevious
  | delete i j =>
    cases h' with
    | equal => exact absurd rfl hhere
    | delete => exact absurd rfl hkind
    | insert => exact ⟨_, .insert .., .delete ..⟩
  | insert i j =>
    cases h' with
    | equal => exact absurd rfl hhere
    | delete => exact ⟨_, .delete .., .insert ..⟩
    | insert => exact absurd rfl hkind

end Run

/-! ## Equal elements that change sides -/

/-- Equal elements behind a place can be put in front of what follows. -/
theorem walk_equalBehind (hagree : Agree old new (i, j) count)
    (hwalk : Walk (Run.Leads old new) (i + count, j + count) after stop) :
    Walk (Run.Leads old new) (i, j) (equalBehind count i j after) stop := by
  cases after with
  | nil => exact ⟨_, .equal hagree, hwalk⟩
  | cons next rest =>
    obtain ⟨middle, hnext, hrest⟩ := hwalk
    rw [equalBehind]
    by_cases hkind : next.kind = .equal
    · rw [if_pos hkind]
      exact ⟨middle, hnext.growLeft hagree hkind, hrest⟩
    · rw [if_neg hkind]
      exact ⟨_, .equal hagree, middle, hnext, hrest⟩

/-- Equal elements in front of a place can be put behind what is before. -/
theorem walk_equalInFront (hagree : Agree old new (i, j) count)
    (hwalk : Walk (Run.Leads old new) start before.reverse (i, j)) :
    Walk (Run.Leads old new) start (equalInFront count i j before).reverse
      (i + count, j + count) := by
  cases before with
  | nil =>
    obtain rfl := hwalk
    exact walk_singleton.mpr (.equal hagree)
  | cons previous rest =>
    rw [equalInFront]
    by_cases hkind : previous.kind = .equal
    · rw [List.reverse_cons, walk_append] at hwalk
      obtain ⟨middle, hrest, hprevious⟩ := hwalk
      have hjoined := (walk_singleton.mp hprevious).growRight (.equal hagree) hkind
      rw [if_pos hkind, List.reverse_cons]
      exact hrest.append (walk_singleton.mpr hjoined)
    · rw [if_neg hkind, List.reverse_cons]
      exact hwalk.append (walk_singleton.mpr (.equal hagree))

/-! ## Moves -/

section Moves

variable [BEq α] [LawfulBEq α]

/-- What is counted at the ends of two stretches is the same in both. -/
theorem sharedEnd_spec (old new : List α) (oldStart newStart oldCount newCount : Nat) :
    ∃ oldFront newFront,
      oldFront + sharedEnd old.toArray new.toArray oldStart newStart oldCount newCount =
        oldCount ∧
      newFront + sharedEnd old.toArray new.toArray oldStart newStart oldCount newCount =
        newCount ∧
      Agree old new (oldStart + oldFront, newStart + newFront)
        (sharedEnd old.toArray new.toArray oldStart newStart oldCount newCount) := by
  fun_induction sharedEnd old.toArray new.toArray oldStart newStart oldCount newCount with
  | case1 oldCount newCount a b hb ha hab ih =>
    obtain ⟨oldFront, newFront, hold, hnew, hagree⟩ := ih
    obtain rfl := eq_of_beq hab
    refine ⟨oldFront, newFront, by omega, by omega, hagree.append ?_⟩
    rw [Nat.add_assoc, Nat.add_assoc, hold, hnew]
    rw [List.getElem?_toArray] at ha hb
    exact agree_one (ha.trans hb.symm)
  | case2 => exact ⟨_, _, rfl, rfl, agree_zero _ _ _⟩
  | case3 => exact ⟨_, _, rfl, rfl, agree_zero _ _ _⟩
  | case4 => exact ⟨_, _, rfl, rfl, agree_zero _ _ _⟩

/-- What is counted at the starts of two stretches is the same in both. -/
theorem sharedStart_spec (old new : List α) (oldStart newStart oldCount newCount : Nat) :
    ∃ oldBack newBack,
      sharedStart old.toArray new.toArray oldStart newStart oldCount newCount + oldBack =
        oldCount ∧
      sharedStart old.toArray new.toArray oldStart newStart oldCount newCount + newBack =
        newCount ∧
      Agree old new (oldStart, newStart)
        (sharedStart old.toArray new.toArray oldStart newStart oldCount newCount) := by
  fun_induction sharedStart old.toArray new.toArray oldStart newStart oldCount newCount with
  | case1 oldStart newStart oldCount newCount a b hb ha hab ih =>
    obtain ⟨oldBack, newBack, hold, hnew, hagree⟩ := ih
    obtain rfl := eq_of_beq hab
    refine ⟨oldBack, newBack, by omega, by omega, ?_⟩
    rw [List.getElem?_toArray] at ha hb
    rw [Nat.add_comm]
    exact (agree_one (ha.trans hb.symm)).append hagree
  | case2 => exact ⟨_, _, Nat.zero_add _, Nat.zero_add _, agree_zero _ _ _⟩
  | case3 => exact ⟨_, _, Nat.zero_add _, Nat.zero_add _, agree_zero _ _ _⟩
  | case4 => exact ⟨_, _, Nat.zero_add _, Nat.zero_add _, agree_zero _ _ _⟩

/-- A run goes up past equal elements that are its own last ones. Only an insertion has such. -/
theorem walk_shiftUp (hprevious : previous.kind = .equal) (hhere : here.kind ≠ .equal)
    (hcount : sharedEnd old.toArray new.toArray previous.oldStart here.newStart previous.oldCount
      here.newCount = count) (hne : count ≠ 0)
    (hwalk : Walk (Run.Leads old new) place (previous :: here :: after) stop) :
    Walk (Run.Leads old new) place
      (previous.dropRight count :: here.shiftLeft count ::
        equalBehind count (previous.oldStart + previous.length - count)
          (here.newStart + here.newCount - count) after) stop := by
  obtain ⟨front, newFront, hfront, hnewFront, hagree⟩ := sharedEnd_spec old new previous.oldStart
    here.newStart previous.oldCount here.newCount
  rw [hcount] at hfront hnewFront hagree
  obtain ⟨middle, hfirst, last, hsecond, hafter⟩ := hwalk
  cases hfirst with
  | delete => cases hprevious
  | insert => cases hprevious
  | @equal i j length hequal =>
    cases hsecond with
    | equal => exact absurd rfl hhere
    | delete =>
      -- A deletion has no new elements, so none were counted.
      exact absurd (Nat.add_eq_zero_iff.mp hnewFront).2 hne
    | insert i j oldStart more =>
      obtain rfl : front + count = length := hfront
      obtain rfl : newFront + count = more := hnewFront
      have hplace : j + front + (newFront + count) = j + front + count + newFront := by omega
      simp only [← Nat.add_assoc] at hagree hafter
      simp only [Run.dropRight, Run.shiftLeft, Run.newCount, ← Nat.add_assoc, Nat.add_sub_cancel]
      -- The insertion is as long as before and begins earlier. What it takes from the front comes
      -- back behind it.
      refine ⟨_, .equal hequal.left, (i + front, j + front + count + newFront), ?_, ?_⟩
      · rw [← hplace]
        exact .insert ..
      · exact walk_equalBehind hagree hafter

/-- A run goes down past equal elements that are its own first ones. -/
theorem walk_shiftDown (hhere : here.kind ≠ .equal) (hnext : next.kind = .equal)
    (hcount : sharedStart old.toArray new.toArray next.oldStart here.newStart next.oldCount
      here.newCount = count) (hne : count ≠ 0)
    (hwalk : Walk (Run.Leads old new) start (before.reverse ++ here :: next :: after) stop) :
    Walk (Run.Leads old new) start
      ((equalInFront count next.oldStart here.newStart before).reverse ++
        here.shiftRight count :: next.dropLeft count :: after) stop := by
  obtain ⟨back, newBack, hback, hnewBack, hagree⟩ := sharedStart_spec old new next.oldStart
    here.newStart next.oldCount here.newCount
  rw [hcount] at hback hnewBack hagree
  obtain ⟨place, hbefore, middle, hfirst, last, hsecond, hafter⟩ := walk_append.mp hwalk
  cases hfirst with
  | equal => exact absurd rfl hhere
  | delete => exact absurd (Nat.add_eq_zero_iff.mp hnewBack).1 hne
  | insert i j oldStart more =>
    cases hsecond with
    | delete => cases hnext
    | insert => cases hnext
    | @equal _ _ length hequal =>
      obtain rfl : count + back = length := hback
      -- The insertion begins later, and what it passes stands in front of it.
      refine (walk_equalInFront hagree hbefore).append ⟨_, .insert .., ?_⟩
      have hplace : j + more + count = j + count + more := Nat.add_right_comm ..
      have hrest := Run.Leads.equal hequal.right
      rw [hplace] at hrest
      rw [← Nat.add_assoc, ← Nat.add_assoc, hplace] at hafter
      simp only [Run.dropLeft, Run.shiftRight, Nat.add_sub_cancel_left, hplace]
      exact ⟨_, hrest, hafter⟩

/-- Moving a run up keeps a walk. -/
theorem walk_moveUp (hkind : here.kind ≠ .equal)
    (hwalk : Walk (Run.Leads old new) start (before.reverse ++ here :: after) stop) :
    Walk (Run.Leads old new) start
      (moveUp old.toArray new.toArray before here after).runs stop := by
  fun_induction moveUp old.toArray new.toArray before here after with
  | case1 here after => exact hwalk
  | case2 here after previous rest hequal count _ hcount hlength ih =>
    -- An equal run without elements is dropped.
    rw [List.reverse_cons, List.append_assoc] at hwalk
    refine ih hkind (hwalk.congr_back fun middle hsuffix => ?_)
    obtain ⟨place, hprevious, hhere⟩ := hsuffix
    obtain rfl := hprevious.eq_of_length_eq_zero hequal hlength
    exact hhere
  | case3 here after previous rest => exact hwalk
  | case4 here after previous rest hequal count _ hcount moved hlength ih =>
    -- The whole equal run changes sides, and what is left of it is dropped.
    rw [List.reverse_cons, List.append_assoc] at hwalk
    refine ih hkind (hwalk.congr_back fun middle hsuffix => ?_)
    obtain ⟨place, hprevious, hhere⟩ := walk_shiftUp hequal hkind rfl hcount hsuffix
    have hzero : (previous.dropRight count).length = 0 := Nat.sub_eq_zero_of_le hlength.le
    obtain rfl := hprevious.eq_of_length_eq_zero hequal hzero
    exact hhere
  | case5 here after previous rest hequal count _ hcount moved hlength ih =>
    rw [List.reverse_cons, List.append_assoc] at hwalk ih
    refine ih hkind (hwalk.congr_back fun middle hsuffix => ?_)
    exact walk_shiftUp hequal hkind rfl hcount hsuffix
  | case6 here after previous rest hequal hsame ih =>
    -- Two neighbours of a kind become one.
    rw [List.reverse_cons, List.append_assoc] at hwalk
    refine ih hequal (hwalk.congr_back fun middle hsuffix => ?_)
    obtain ⟨place, hprevious, last, hhere, hafter⟩ := hsuffix
    exact ⟨last, hprevious.growRight hhere hsame, hafter⟩
  | case7 here after previous rest hequal hsame ih =>
    -- A deletion meets an insertion, or an insertion a deletion.
    rw [List.reverse_cons, List.append_assoc] at hwalk
    refine ih hkind (hwalk.congr_back fun middle hsuffix => ?_)
    obtain ⟨place, hprevious, last, hhere, hafter⟩ := hsuffix
    obtain ⟨between, hfirst, hsecond⟩ := hprevious.swap hhere hequal hkind hsame
    exact ⟨between, hfirst, last, hsecond, hafter⟩

/-- Moving a run down keeps a walk. -/
theorem walk_moveDown (hkind : here.kind ≠ .equal)
    (hwalk : Walk (Run.Leads old new) start (before.reverse ++ here :: after) stop) :
    Walk (Run.Leads old new) start
      (moveDown old.toArray new.toArray before here after).runs stop := by
  fun_induction moveDown old.toArray new.toArray before here after with
  | case1 before here => exact hwalk
  | case2 before here next rest hequal count _ hcount hlength ih =>
    refine ih hkind (hwalk.congr_back fun middle hsuffix => ?_)
    obtain ⟨place, hhere, last, hnext, hrest⟩ := hsuffix
    obtain rfl := hnext.eq_of_length_eq_zero hequal hlength
    exact ⟨_, hhere, hrest⟩
  | case3 before here next rest => exact hwalk
  | case4 before here next rest hequal count _ hcount moved hlength ih =>
    refine ih hkind ((walk_shiftDown hkind hequal rfl hcount hwalk).congr_back ?_)
    rintro middle ⟨place, hhere, last, hnext, hrest⟩
    have hzero : (next.dropLeft count).length = 0 := Nat.sub_eq_zero_of_le hlength.le
    obtain rfl := hnext.eq_of_length_eq_zero hequal hzero
    exact ⟨_, hhere, hrest⟩
  | case5 before here next rest hequal count _ hcount moved hlength ih =>
    exact ih hkind (walk_shiftDown hkind hequal rfl hcount hwalk)
  | case6 before here next rest hequal hsame ih =>
    refine ih hkind (hwalk.congr_back fun middle hsuffix => ?_)
    obtain ⟨place, hhere, last, hnext, hrest⟩ := hsuffix
    exact ⟨last, hhere.growRight hnext hsame.symm, hrest⟩
  | case7 before here next rest hequal hsame ih =>
    refine ih hkind ?_
    rw [List.reverse_cons, List.append_assoc]
    refine hwalk.congr_back fun middle hsuffix => ?_
    obtain ⟨place, hhere, last, hnext, hrest⟩ := hsuffix
    obtain ⟨between, hfirst, hsecond⟩ := hhere.swap hnext hkind hequal (Ne.symm hsame)
    exact ⟨between, hfirst, last, hsecond, hrest⟩

omit [LawfulBEq α] in
/-- A run stays of its kind. -/
theorem kind_moveUp (old new : List α) (before : List Run) (here : Run) (after : List Run) :
    (moveUp old.toArray new.toArray before here after).here.kind = here.kind := by
  fun_induction moveUp old.toArray new.toArray before here after with
  | case6 here after previous rest hequal hsame ih => exact ih.trans hsame
  | _ => first | rfl | assumption

/-- Moving all runs of a kind keeps a walk. -/
theorem walk_settleFrom (hkind : kind ≠ .equal) (steps : Nat)
    (hwalk : Walk (Run.Leads old new) start (before.reverse ++ after) stop) :
    Walk (Run.Leads old new) start
      (settleFrom old.toArray new.toArray kind steps before after) stop := by
  induction steps generalizing before after with
  | zero => exact hwalk
  | succ steps ih =>
    cases after with
    | nil => rwa [List.append_nil] at hwalk
    | cons here after =>
      rw [settleFrom]
      split
      · next hhere =>
        have hmove : here.kind ≠ .equal := hhere.trans_ne hkind
        have hup := walk_moveUp hmove hwalk
        -- Up as far as it goes, and then down from there.
        have hdown := walk_moveDown ((kind_moveUp old new before here after).trans_ne hmove) hup
        apply ih
        rwa [List.reverse_cons, List.append_assoc]
      · apply ih
        rwa [List.reverse_cons, List.append_assoc]

theorem walk_settle (hkind : kind ≠ .equal) (hwalk : Walk (Run.Leads old new) start script stop) :
    Walk (Run.Leads old new) start (settle old.toArray new.toArray kind script) stop := by
  have hempty : Walk (Run.Leads old new) start ([].reverse ++ script) stop := hwalk
  exact walk_settleFrom hkind _ hempty

/-- Compaction keeps a walk. -/
theorem walk_compact (hwalk : Walk (Run.Leads old new) start script stop) :
    Walk (Run.Leads old new) start (compact old.toArray new.toArray script) stop := by
  have hdeletions : Walk (Run.Leads old new) start
      (settle old.toArray new.toArray .delete script) stop := walk_settle nofun hwalk
  exact walk_settle nofun hdeletions

end Moves

/-- One equal run is left alone. -/
theorem compact_runOf_equal [BEq α] (old new : List α) (i j count : Nat) :
    compact old.toArray new.toArray (runOf .equal i j count) = runOf .equal i j count := by
  rw [runOf]
  split
  · rfl
  · rfl

end ExactEdit.Diff
