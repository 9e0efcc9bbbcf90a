import ExactEdit.Proofs.Syntax.Nearest
import ExactEdit.Scope.Declaration

/-! # Sites of declarations

Where a tree declares scopes can be said without a table. A *site* is a named node that declares a
scope, with its path. The sites of a tree are found by going through its places, and of those at the
prefixes of a path the last one is the nearest.

## Main definitions

* `Site`, `Site.IsIn` — a node that declares a scope, and the tree it is a node of
* `ParseTree.sites` — the sites of a tree
* `nearest?` — the last site above a path

## Main results

* `ParseTree.mem_sites_iff` — the sites of a tree are all of its sites
* `ParseTree.pairwise_sites` — they are listed in the order of their paths
* `nearest?_eq_some_iff`, `nearest?_eq_none_iff` — the nearest site above another
-/

namespace ExactEdit

variable {rule : List Node → ParseTree → Option Declaration} {above : List Node}
variable {tree : ParseTree} {forest : List ParseTree} {path : List Nat} {step : Nat}

/-- A named node that declares a scope: its path, what the parser says of it, and what it
declares. -/
structure Site where
  path : List Nat
  label : Node
  declared : Declaration
  deriving DecidableEq, Repr

namespace Site

/-- The site of a child as one of its parent. -/
def under (step : Nat) (site : Site) : Site := { site with path := step :: site.path }

/-- Whether a site is one of a tree below some nodes. -/
def IsIn (site : Site) (rule : List Node → ParseTree → Option Declaration) (above : List Node)
    (tree : ParseTree) : Prop :=
  ∃ aboveSite found, tree.follow? site.path above = some (aboveSite, found) ∧
    found.label = site.label ∧ site.label.isNamed = true ∧
    rule aboveSite found = some site.declared

end Site

namespace ParseTree

mutual

/-- The sites of a tree, each in front of those below it. -/
def sites (rule : List Node → ParseTree → Option Declaration) (above : List Node) :
    ParseTree → List Site
  | .node label children =>
    let below := sitesBelow rule (label :: above) 0 children
    match label.isNamed, rule above (.node label children) with
    | true, some declared => ⟨[], label, declared⟩ :: below
    | _, _ => below

/-- The sites of the children of a node from a number on. -/
def sitesBelow (rule : List Node → ParseTree → Option Declaration) (above : List Node)
    (step : Nat) : List ParseTree → List Site
  | [] => []
  | tree :: rest =>
    (sites rule above tree).map (Site.under step) ++ sitesBelow rule above (step + 1) rest

end

/-! ## Sites and places -/

/-- The site at a place, if its node is named and declares a scope. -/
def siteAt? (rule : List Node → ParseTree → Option Declaration) (place : Place) : Option Site :=
  match place.tree.label.isNamed, rule place.above place.tree with
  | true, some declared => some ⟨place.path, place.tree.label, declared⟩
  | _, _ => none

theorem siteAt?_eq_some_iff {place : Place} {site : Site} :
    siteAt? rule place = some site ↔
      place.path = site.path ∧ place.tree.label = site.label ∧ site.label.isNamed = true ∧
        rule place.above place.tree = some site.declared := by
  obtain ⟨path, label, declared⟩ := site
  rw [siteAt?]
  split
  · next found hnamed hrule =>
    rw [Option.some_inj, Site.mk.injEq, hrule, Option.some_inj]
    constructor
    · rintro ⟨hpath, hlabel, hdeclared⟩
      exact ⟨hpath, hlabel, hlabel ▸ hnamed, hdeclared⟩
    · rintro ⟨hpath, hlabel, -, hdeclared⟩
      exact ⟨hpath, hlabel, hdeclared⟩
  · next hnone =>
    refine ⟨nofun, ?_⟩
    rintro ⟨-, hlabel, hnamed, hrule⟩
    exact absurd hrule (hnone declared (hlabel ▸ hnamed))

theorem siteAt?_under (place : Place) :
    siteAt? rule (place.under step) = (siteAt? rule place).map (Site.under step) := by
  rw [siteAt?, siteAt?]
  cases hnamed : place.tree.label.isNamed with
  | false => simp [Place.under, hnamed]
  | true =>
    cases hrule : rule place.above place.tree with
    | none => simp [Place.under, hnamed, hrule]
    | some declared => simp [Place.under, Site.under, hnamed, hrule]

theorem sitesBelow_eq (h : ∀ tree ∈ forest,
      sites rule above tree = (places above tree).filterMap (siteAt? rule)) :
    sitesBelow rule above step forest =
      (placesBelow above step forest).filterMap (siteAt? rule) := by
  induction forest generalizing step with
  | nil => rfl
  | cons tree rest ih =>
    rw [List.forall_mem_cons] at h
    rw [sitesBelow, placesBelow, List.filterMap_append, ih h.2, h.1, List.filterMap_map,
      List.map_filterMap]
    refine congrArg (· ++ _) (List.filterMap_congr fun place _ => ?_)
    exact (siteAt?_under place).symm

/-- The sites of a tree are found by going through its places. -/
theorem sites_eq (tree : ParseTree) : ∀ above : List Node,
    sites rule above tree = (places above tree).filterMap (siteAt? rule) := by
  induction tree using ParseTree.induction with
  | node label children ih =>
    intro above
    have hbelow : sitesBelow rule (label :: above) 0 children =
        (placesBelow (label :: above) 0 children).filterMap (siteAt? rule) :=
      sitesBelow_eq fun child hchild => ih child hchild (label :: above)
    rw [sites, places, List.filterMap_cons, hbelow, siteAt?]
    simp only [ParseTree.label]
    split <;> rfl

/-- The sites of a tree are all of its sites. -/
theorem mem_sites_iff (tree : ParseTree) (above : List Node) (site : Site) :
    site ∈ sites rule above tree ↔ site.IsIn rule above tree := by
  rw [sites_eq, List.mem_filterMap]
  constructor
  · rintro ⟨place, hplace, hsite⟩
    obtain ⟨hpath, hdeclares⟩ := siteAt?_eq_some_iff.mp hsite
    exact ⟨place.above, place.tree, hpath ▸ (mem_places_iff tree above place).mp hplace, hdeclares⟩
  · rintro ⟨aboveSite, found, hfollow, hdeclares⟩
    refine ⟨⟨site.path, aboveSite, found⟩, ?_, siteAt?_eq_some_iff.mpr ⟨rfl, hdeclares⟩⟩
    exact (mem_places_iff tree above _).mpr hfollow

/-- The sites of a tree are listed in the order of their paths. -/
theorem pairwise_sites (tree : ParseTree) (above : List Node) :
    (sites rule above tree).Pairwise (·.path < ·.path) := by
  rw [sites_eq, List.pairwise_filterMap]
  refine (pairwise_places tree above).imp fun hlt first hfirst second hsecond => ?_
  rw [← (siteAt?_eq_some_iff.mp hfirst).1, ← (siteAt?_eq_some_iff.mp hsecond).1]
  exact hlt

theorem exists_path_of_mem_sitesBelow {site : Site} (h : site ∈ sitesBelow rule above step forest) :
    ∃ first path, site.path = first :: path ∧ step ≤ first := by
  rw [sitesBelow_eq fun tree _ => sites_eq tree above, List.mem_filterMap] at h
  obtain ⟨place, hplace, hsite⟩ := h
  rw [← (siteAt?_eq_some_iff.mp hsite).1]
  exact exists_path_of_mem_placesBelow hplace

end ParseTree

/-! ## The nearest site above -/

/-- The number of the last site above a path. -/
def nearest? : List Site → List Nat → Option Nat
  | [], _ => none
  | site :: rest, path =>
    match nearest? rest path with
    | some index => some (index + 1)
    | none => if IsAbove site.path path then some 0 else none

variable {sites front back : List Site} {site other : Site} {index : Nat}

/-- The nearest site is told by the paths of the sites. -/
theorem nearest?_eq (sites : List Site) (path : List Nat) :
    nearest? sites path = nearestAbove? (sites.map (·.path)) path := by
  induction sites with
  | nil => rfl
  | cons site rest ih =>
    rw [nearest?, ih]
    rfl

theorem nearest?_eq_none_iff :
    nearest? sites path = none ↔ ∀ site ∈ sites, ¬ IsAbove site.path path := by
  rw [nearest?_eq, nearestAbove?_eq_none_iff, List.forall_mem_map]

theorem getElem?_map_path_eq_some_iff :
    (sites.map (·.path))[index]? = some path ↔
      ∃ site, sites[index]? = some site ∧ site.path = path := by
  rw [List.getElem?_map, Option.map_eq_some_iff]

/-- A site whose number is given is above the path, and no later site is. -/
theorem exists_of_nearest? (h : nearest? sites path = some index) :
    ∃ site, sites[index]? = some site ∧ IsAbove site.path path ∧
      ∀ later other, sites[later]? = some other → IsAbove other.path path → later ≤ index := by
  rw [nearest?_eq] at h
  obtain ⟨outer, houter, habove, hlast⟩ := exists_of_nearestAbove? h
  obtain ⟨site, hsite, rfl⟩ := getElem?_map_path_eq_some_iff.mp houter
  refine ⟨site, hsite, habove, fun later other hother => ?_⟩
  exact hlast later other.path (getElem?_map_path_eq_some_iff.mpr ⟨other, hother, rfl⟩)

theorem path_lt_of_getElem? {first second : Nat} (hsorted : sites.Pairwise (·.path < ·.path))
    (hsite : sites[first]? = some site) (hother : sites[second]? = some other)
    (hlt : first < second) : site.path < other.path :=
  getElem?_lt_of_lt (List.pairwise_map.mpr hsorted)
    (getElem?_map_path_eq_some_iff.mpr ⟨site, hsite, rfl⟩)
    (getElem?_map_path_eq_some_iff.mpr ⟨other, hother, rfl⟩) hlt

/-- In the order of paths the number of a site is told by its path. -/
theorem index_unique {first second : Nat} (hsorted : sites.Pairwise (·.path < ·.path))
    (hsite : sites[first]? = some site) (hother : sites[second]? = some other)
    (hpath : site.path = other.path) : first = second :=
  getElem?_unique (List.pairwise_map.mpr hsorted)
    (getElem?_map_path_eq_some_iff.mpr ⟨site, hsite, hpath⟩)
    (getElem?_map_path_eq_some_iff.mpr ⟨other, hother, rfl⟩)

/-- In the order of paths the last site above a path is the nearest one: all others are above it. -/
theorem nearest?_eq_some_iff (hsorted : sites.Pairwise (·.path < ·.path)) :
    nearest? sites path = some index ↔
      ∃ site, sites[index]? = some site ∧ IsAbove site.path path ∧
        ∀ other ∈ sites, IsAbove other.path path → other.path <+: site.path := by
  rw [nearest?_eq, nearestAbove?_map_eq_some_iff hsorted]

/-! ## All sites above -/

/-- No site behind another is above it, so that one comes last among those at its prefixes. -/
theorem filter_prefix_self (hsorted : (front ++ site :: back).Pairwise (·.path < ·.path)) :
    (front ++ site :: back).filter (·.path <+: site.path) =
      front.filter (·.path <+: site.path) ++ [site] := by
  have hback : back.filter (·.path <+: site.path) = [] := by
    refine List.filter_eq_nil_iff.mpr fun other hother hbegins => ?_
    have hlt : site.path < other.path :=
      List.rel_of_pairwise_cons (List.pairwise_append.mp hsorted).2.1 hother
    exact not_prefix_of_lt hlt (of_decide_eq_true hbegins)
  rw [List.filter_append, List.filter_cons_of_pos (by simp), hback]

/-- With none above it, a site is alone at the prefixes of its path. -/
theorem filter_prefix_of_nearest?_eq_none (hsorted : sites.Pairwise (·.path < ·.path))
    (hsite : site ∈ sites) (hnearest : nearest? sites site.path = none) :
    sites.filter (·.path <+: site.path) = [site] := by
  obtain ⟨front, back, rfl⟩ := List.append_of_mem hsite
  rw [filter_prefix_self hsorted, List.filter_eq_nil_iff.mpr, List.nil_append]
  intro other hother hbegins
  have hlt : other.path < site.path :=
    (List.pairwise_append.mp hsorted).2.2 other hother site List.mem_cons_self
  exact nearest?_eq_none_iff.mp hnearest other (List.mem_append_left _ hother)
    ⟨of_decide_eq_true hbegins, hlt.ne⟩

/-- The sites at the prefixes of a path are those at the prefixes of the nearest one above it, and
its own. -/
theorem filter_prefix_of_nearest? (hsorted : sites.Pairwise (·.path < ·.path))
    (hsite : site ∈ sites) (hnearest : nearest? sites site.path = some index)
    (hother : sites[index]? = some other) :
    sites.filter (·.path <+: site.path) = sites.filter (·.path <+: other.path) ++ [site] := by
  obtain ⟨nearest, hget, habove, hothers⟩ := (nearest?_eq_some_iff hsorted).mp hnearest
  obtain rfl := Option.some.inj (hother.symm.trans hget)
  obtain ⟨front, back, rfl⟩ := List.append_of_mem hsite
  have hbehind : (site :: back).filter (·.path <+: other.path) = [] := by
    refine List.filter_eq_nil_iff.mpr fun later hlater hbegins => ?_
    refine not_prefix_of_lt ?_ (of_decide_eq_true hbegins)
    rcases List.mem_cons.mp hlater with rfl | hlater
    · exact habove.lt
    · exact lt_trans habove.lt
        (List.rel_of_pairwise_cons (List.pairwise_append.mp hsorted).2.1 hlater)
  rw [filter_prefix_self hsorted, List.filter_append, hbehind, List.append_nil]
  refine congrArg (· ++ [site]) (List.filter_congr fun earlier hearlier => ?_)
  have hlt : earlier.path < site.path :=
    (List.pairwise_append.mp hsorted).2.2 earlier hearlier site List.mem_cons_self
  refine decide_eq_decide.mpr ⟨fun h => ?_, fun h => h.trans habove.1⟩
  exact hothers earlier (List.mem_append_left _ hearlier) ⟨h, hlt.ne⟩

end ExactEdit
