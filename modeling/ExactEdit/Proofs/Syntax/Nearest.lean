import ExactEdit.Proofs.Syntax.Path

/-! # The nearest path above another

Some nodes of a tree are kept in a list, in the order of their paths, and each of them hangs at the
nearest one above it. That one is found without looking at the tree: among the paths in the list it
is the last one above.

## Main definitions

* `nearestAbove?` — the number of the last path above another
* `parentAmong?` — the same with a number for the first path, and a parent for those without one
* `hung` — nodes in a list, each with the nearest one above it as its parent

## Main results

* `nearestAbove?_eq_some_iff`, `nearestAbove?_eq_none_iff` — the nearest path above another
* `hung_root`, `hung_append` — the nodes of a tree hang at the root, or as they hang in its parts
-/

namespace ExactEdit

variable {paths front back : List (List Nat)} {path outer other : List Nat}
variable {step index next : Nat} {parent : Option Nat}

/-- The number of the last path in a list that leads to a node above the end of another. -/
def nearestAbove? : List (List Nat) → List Nat → Option Nat
  | [], _ => none
  | outer :: rest, path =>
    match nearestAbove? rest path with
    | some index => some (index + 1)
    | none => if IsAbove outer path then some 0 else none

theorem nearestAbove?_eq_none_iff :
    nearestAbove? paths path = none ↔ ∀ outer ∈ paths, ¬ IsAbove outer path := by
  induction paths with
  | nil => simp [nearestAbove?]
  | cons outer rest ih =>
    rw [nearestAbove?, List.forall_mem_cons, ← ih]
    cases nearestAbove? rest path with
    | none => simp
    | some index => simp

theorem nearestAbove?_append (front back : List (List Nat)) :
    nearestAbove? (front ++ back) path =
      ((nearestAbove? back path).map (front.length + ·)).or (nearestAbove? front path) := by
  induction front with
  | nil => simp [nearestAbove?]
  | cons outer rest ih =>
    rw [List.cons_append, nearestAbove?, ih, nearestAbove?]
    cases nearestAbove? back path with
    | none => simp
    | some index =>
      simp only [Option.map_some, Option.some_or, List.length_cons]
      rw [Nat.add_right_comm]

theorem nearestAbove?_map_cons (paths : List (List Nat)) :
    nearestAbove? (paths.map (step :: ·)) (step :: path) = nearestAbove? paths path := by
  induction paths with
  | nil => rfl
  | cons outer rest ih =>
    rw [List.map_cons, nearestAbove?, ih, nearestAbove?]
    simp only [isAbove_cons_iff, true_and]

/-- A path whose number is given is above the other, and no later path is. -/
theorem exists_of_nearestAbove? (h : nearestAbove? paths path = some index) :
    ∃ outer, paths[index]? = some outer ∧ IsAbove outer path ∧
      ∀ later other, paths[later]? = some other → IsAbove other path → later ≤ index := by
  induction paths generalizing index with
  | nil => cases h
  | cons outer rest ih =>
    rw [nearestAbove?] at h
    split at h
    · rename_i found hfound
      obtain rfl := Option.some.inj h
      obtain ⟨nearest, hnearest, habove, hlast⟩ := ih hfound
      refine ⟨nearest, hnearest, habove, fun later other hother hother' => ?_⟩
      cases later with
      | zero => omega
      | succ later => exact Nat.succ_le_succ (hlast later other hother hother')
    · rename_i hnone
      split at h
      · rename_i habove
        obtain rfl := Option.some.inj h
        refine ⟨outer, rfl, habove, fun later other hother hother' => ?_⟩
        cases later with
        | zero => exact Nat.le_refl _
        | succ later =>
          exact absurd hother'
            (nearestAbove?_eq_none_iff.mp hnone other (List.mem_of_getElem? hother))
      · cases h

theorem getElem?_lt_of_lt {first second : Nat} (hsorted : paths.Pairwise (· < ·))
    (hpath : paths[first]? = some path) (hother : paths[second]? = some other)
    (hlt : first < second) : path < other := by
  obtain ⟨hfirst, rfl⟩ := List.getElem?_eq_some_iff.mp hpath
  obtain ⟨hsecond, rfl⟩ := List.getElem?_eq_some_iff.mp hother
  exact List.pairwise_iff_getElem.mp hsorted first second hfirst hsecond hlt

/-- In the order of paths each path comes once. -/
theorem getElem?_unique {first second : Nat} (hsorted : paths.Pairwise (· < ·))
    (hfirst : paths[first]? = some path) (hsecond : paths[second]? = some path) :
    first = second := by
  obtain ⟨hlt, -⟩ := List.getElem?_eq_some_iff.mp hfirst
  exact (List.getElem?_inj hlt (hsorted.imp ne_of_lt)).mp (hfirst.trans hsecond.symm)

/-- In the order of paths the last one above another is the nearest: all others are above it. -/
theorem nearestAbove?_eq_some_iff (hsorted : paths.Pairwise (· < ·)) :
    nearestAbove? paths path = some index ↔
      ∃ outer, paths[index]? = some outer ∧ IsAbove outer path ∧
        ∀ other ∈ paths, IsAbove other path → other <+: outer := by
  have hnearest : ∀ {index}, nearestAbove? paths path = some index →
      ∃ outer, paths[index]? = some outer ∧ IsAbove outer path ∧
        ∀ other ∈ paths, IsAbove other path → other <+: outer := by
    intro index h
    obtain ⟨outer, houter, habove, hlast⟩ := exists_of_nearestAbove? h
    refine ⟨outer, houter, habove, fun other hother hother' => ?_⟩
    -- Both lead to nodes above the same one, so one of the two is above the other.
    rcases List.prefix_or_prefix_of_prefix hother'.1 habove.1 with hbegins | hbegins
    · exact hbegins
    · by_cases heq : outer = other
      · rw [heq]
      · obtain ⟨later, hlater⟩ := List.getElem?_of_mem hother
        have hlt : outer < other := IsAbove.lt ⟨hbegins, heq⟩
        rcases Nat.lt_or_eq_of_le (hlast later other hlater hother') with hbefore | rfl
        · exact absurd hlt (lt_asymm (getElem?_lt_of_lt hsorted hlater houter hbefore))
        · exact absurd (Option.some.inj (houter.symm.trans hlater)) heq
  refine ⟨hnearest, ?_⟩
  rintro ⟨outer, houter, habove, hothers⟩
  -- Some path is found, and it and the given one are each a prefix of the other.
  cases hfound : nearestAbove? paths path with
  | none =>
    exact absurd habove (nearestAbove?_eq_none_iff.mp hfound outer (List.mem_of_getElem? houter))
  | some found =>
    obtain ⟨other, hother, hother', hpaths⟩ := hnearest hfound
    obtain rfl : other = outer :=
      antisymm (hothers other (List.mem_of_getElem? hother) hother')
        (hpaths outer (List.mem_of_getElem? houter) habove)
    rw [getElem?_unique hsorted hother houter]

/-- Of some nodes in the order of their paths the last one above a path is the nearest. -/
theorem nearestAbove?_map_eq_some_iff {α : Type} {pathOf : α → List Nat} {nodes : List α}
    (hsorted : nodes.Pairwise (pathOf · < pathOf ·)) :
    nearestAbove? (nodes.map pathOf) path = some index ↔
      ∃ outer, nodes[index]? = some outer ∧ IsAbove (pathOf outer) path ∧
        ∀ other ∈ nodes, IsAbove (pathOf other) path → pathOf other <+: pathOf outer := by
  rw [nearestAbove?_eq_some_iff (List.pairwise_map.mpr hsorted)]
  simp only [List.getElem?_map, Option.map_eq_some_iff, List.forall_mem_map]
  constructor
  · rintro ⟨_, ⟨outer, houter, rfl⟩, hnearest⟩
    exact ⟨outer, houter, hnearest⟩
  · rintro ⟨outer, houter, hnearest⟩
    exact ⟨pathOf outer, ⟨outer, houter, rfl⟩, hnearest⟩

/-- What is above a path in the list stands in front of it. -/
theorem nearestAbove?_lt (hsorted : paths.Pairwise (· < ·)) (hpath : paths[index]? = some path)
    {above : Nat} (hnearest : nearestAbove? paths path = some above) : above < index := by
  obtain ⟨outer, houter, habove, -⟩ := exists_of_nearestAbove? hnearest
  rcases Nat.lt_trichotomy above index with hlt | rfl | hlt
  · exact hlt
  · exact absurd (Option.some.inj (houter.symm.trans hpath)) habove.2
  · exact absurd habove.lt (lt_asymm (getElem?_lt_of_lt hsorted hpath houter hlt))

/-- With the root in the list, only the root has none of the paths above it. -/
theorem nearestAbove?_eq_none_iff_eq_zero (hsorted : paths.Pairwise (· < ·))
    (hroot : paths[0]? = some []) (hpath : paths[index]? = some path) :
    nearestAbove? paths path = none ↔ index = 0 := by
  rw [nearestAbove?_eq_none_iff]
  constructor
  · intro hnone
    by_contra hne
    have hlt : [] < path := getElem?_lt_of_lt hsorted hroot hpath (Nat.pos_of_ne_zero hne)
    exact hnone [] (List.mem_of_getElem? hroot) ⟨List.nil_prefix, hlt.ne⟩
  · rintro rfl
    obtain rfl := Option.some.inj (hroot.symm.trans hpath)
    exact fun _ _ => not_isAbove_nil

/-! ## Parents -/

/-- The number of the nearest path above another, where the first path has the number `next`. What
hangs at none of the paths hangs at `parent`. -/
def parentAmong? (parent : Option Nat) (next : Nat) (paths : List (List Nat)) (path : List Nat) :
    Option Nat :=
  ((nearestAbove? paths path).map (next + ·)).or parent

/-- Whether all paths begin with a step from a number on. -/
def BeginFrom (step : Nat) (paths : List (List Nat)) : Prop :=
  ∀ path ∈ paths, ∃ first rest, path = first :: rest ∧ step ≤ first

/-- The root hangs at none of the paths. -/
theorem parentAmong?_nil : parentAmong? parent next paths [] = parent := by
  rw [parentAmong?, nearestAbove?_eq_none_iff.mpr fun _ _ => not_isAbove_nil, Option.map_none,
    Option.none_or]

/-- What hangs at no path below the root hangs at the root. -/
theorem parentAmong?_root (hpath : path ≠ []) :
    parentAmong? parent next ([] :: paths) path =
      parentAmong? (some next) (next + 1) paths path := by
  obtain ⟨step, path, rfl⟩ := List.exists_cons_of_ne_nil hpath
  rw [parentAmong?, nearestAbove?, parentAmong?]
  cases nearestAbove? paths (step :: path) with
  | none => simp [isAbove_nil_cons]
  | some index =>
    simp only [Option.map_some, Option.some_or]
    rw [Nat.add_assoc, Nat.add_comm 1]

/-- In a child nothing hangs in a later child. -/
theorem parentAmong?_append_left (hback : BeginFrom (step + 1) back) :
    parentAmong? parent next (front.map (step :: ·) ++ back) (step :: path) =
      parentAmong? parent next front path := by
  have hnone : nearestAbove? back (step :: path) = none := by
    refine nearestAbove?_eq_none_iff.mpr fun other hother habove => ?_
    obtain ⟨first, rest, rfl, hlt⟩ := hback other hother
    exact absurd (isAbove_cons_iff.mp habove).1 (Nat.ne_of_gt hlt)
  rw [parentAmong?, nearestAbove?_append, hnone, nearestAbove?_map_cons]
  rfl

/-- In later children nothing hangs in a child. -/
theorem parentAmong?_append_right (hback : BeginFrom (step + 1) back) (hpath : path ∈ back) :
    parentAmong? parent next (front.map (step :: ·) ++ back) path =
      parentAmong? parent (next + front.length) back path := by
  obtain ⟨first, rest, rfl, hlt⟩ := hback path hpath
  have hnone : nearestAbove? (front.map (step :: ·)) (first :: rest) = none := by
    refine nearestAbove?_eq_none_iff.mpr fun other hother habove => ?_
    obtain ⟨below, -, rfl⟩ := List.mem_map.mp hother
    exact absurd (isAbove_cons_iff.mp habove).1 (Nat.ne_of_lt hlt)
  rw [parentAmong?, nearestAbove?_append, hnone, List.length_map, Option.or_none, Option.map_map,
    parentAmong?]
  simp [Function.comp_def, Nat.add_assoc]

/-! ## Hanging nodes -/

section Hung

variable {α β : Type} {pathOf : α → List Nat} {hang : α → Option Nat → β}
variable {node : α} {nodes : List α}

/-- Some nodes in a list, each hung at the nearest one above it. -/
def hung (pathOf : α → List Nat) (hang : α → Option Nat → β) (parent : Option Nat) (next : Nat)
    (nodes : List α) : List β :=
  nodes.map fun node =>
    hang node (parentAmong? parent next (nodes.map pathOf) (pathOf node))

/-- The root hangs at the parent, and what is below it hangs at the root. -/
theorem hung_root (hroot : pathOf node = []) (hbelow : ∀ below ∈ nodes, pathOf below ≠ []) :
    hung pathOf hang parent next (node :: nodes) =
      hang node parent :: hung pathOf hang (some next) (next + 1) nodes := by
  rw [hung, List.map_cons, hroot, parentAmong?_nil, hung, List.map_cons, hroot]
  refine congrArg _ (List.map_congr_left fun below hmem => ?_)
  rw [parentAmong?_root (hbelow below hmem)]

/-- What is below different children hangs apart. -/
theorem hung_append (under : α → α) (hunder : ∀ node, pathOf (under node) = step :: pathOf node)
    (hhang : ∀ node parent, hang (under node) parent = hang node parent)
    (hback : BeginFrom (step + 1) (nodes.map pathOf)) (front : List α) :
    hung pathOf hang parent next (front.map under ++ nodes) =
      hung pathOf hang parent next front ++
        hung pathOf hang parent (next + front.length) nodes := by
  have hpaths : (front.map under ++ nodes).map pathOf =
      (front.map pathOf).map (step :: ·) ++ nodes.map pathOf := by
    rw [List.map_append, List.map_map, List.map_map]
    exact congrArg (· ++ _) (List.map_congr_left fun node _ => hunder node)
  rw [hung, hpaths, List.map_append, List.map_map, hung, hung]
  congr 1
  · refine List.map_congr_left fun node _ => ?_
    rw [Function.comp_apply, hhang, hunder, parentAmong?_append_left hback]
  · refine List.map_congr_left fun node hnode => ?_
    rw [parentAmong?_append_right hback (List.mem_map_of_mem hnode), List.length_map]

end Hung

end ExactEdit
