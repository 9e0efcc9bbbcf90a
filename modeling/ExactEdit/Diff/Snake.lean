/-! # Middle snakes

The linear-space method of Myers cuts two sequences where a shortest edit script crosses the
middle. Paths are extended from both ends by one edit at a time, each as far as equal
elements carry it, until a path from the start meets one from the end.

On diagonal `k` a path that has passed `x` old elements has passed `x - k` new ones. Both
searches keep the furthest `x` of every diagonal; the search from the end is the same search
on the reversed sequences.

## Main definitions

* `runEnd` — how far equal elements reach
* `Frontier` — the furthest point on each diagonal
* `middleSnake?` — the point at which to cut
-/

namespace ExactEdit.Diff

variable {α : Type} [BEq α]

/-- The old index at which the run of equal elements from `x` and `y` on ends. -/
def runEnd (old new : Array α) (x y : Nat) : Nat :=
  if h : x < old.size ∧ y < new.size then
    if old[x] == new[y] then runEnd old new (x + 1) (y + 1) else x
  else x
termination_by old.size - x

/-- The furthest old index on each diagonal from `-reach` to `reach`. -/
structure Frontier where
  reach : Nat
  furthest : Array Nat

namespace Frontier

/-- All diagonals at zero. -/
def start (reach : Nat) : Frontier := ⟨reach, Array.replicate (2 * reach + 1) 0⟩

/-- The furthest point of a diagonal. -/
def get (frontier : Frontier) (diagonal : Int) : Nat :=
  frontier.furthest.getD (diagonal + frontier.reach).toNat 0

/-- Records the furthest point of a diagonal. -/
def set (frontier : Frontier) (diagonal : Int) (x : Nat) : Frontier :=
  { frontier with
    furthest := frontier.furthest.setIfInBounds (diagonal + frontier.reach).toNat x }

/-- Where the path with `edits` edits enters a diagonal: from above, or from the left if that
diagonal has come further. -/
def entry (frontier : Frontier) (edits : Nat) (diagonal : Int) : Nat :=
  let above := frontier.get (diagonal + 1)
  let left := frontier.get (diagonal - 1)
  if diagonal = -(edits : Int) ∨ (diagonal ≠ edits ∧ left < above) then above else left + 1

end Frontier

/-- A path on a diagonal: where it entered it and how far it came. -/
structure Reach where
  entry : Nat
  entryNew : Nat
  stop : Nat
  stopNew : Nat

/-- The furthest path with `edits` edits on a diagonal. -/
def extend (old new : Array α) (frontier : Frontier) (edits : Nat) (diagonal : Int) : Reach :=
  let x := frontier.entry edits diagonal
  let y := (x - diagonal).toNat
  let stop := runEnd old new x y
  ⟨x, y, stop, y + (stop - x)⟩

/-- Extends the paths on the given diagonals in turn, up to one that `meets` the other
search. -/
def sweep (old new : Array α) (edits : Nat) (meets : Int → Nat → Bool) :
    List Int → Frontier → Option Reach × Frontier
  | [], frontier => (none, frontier)
  | diagonal :: rest, frontier =>
    let path := extend old new frontier edits diagonal
    let frontier := frontier.set diagonal path.stop
    if meets diagonal path.stop then (some path, frontier)
    else sweep old new edits meets rest frontier

/-- The diagonals that paths with this many edits end on, from the highest down. -/
def diagonals (edits : Nat) : List Int :=
  (List.range (edits + 1)).map fun (i : Nat) => (edits : Int) - 2 * i

/-- Raises the number of edits up to `rounds` more times. -/
def searchSnake (old new oldBack newBack : Array α) :
    Nat → Nat → Frontier → Frontier → Option (Nat × Nat)
  | 0, _, _, _ => none
  | rounds + 1, edits, forward, backward =>
    let n := old.size
    let m := new.size
    let delta : Int := n - m
    let odd := delta % 2 ≠ 0
    let meetsBackward := fun (k : Int) (x : Nat) =>
      odd && ((k - delta).natAbs : Int) ≤ (edits : Int) - 1 && n ≤ x + backward.get (delta - k)
    match sweep old new edits meetsBackward (diagonals edits) forward with
    | (some path, _) => some (path.entry, path.entryNew)
    | (none, forward) =>
      let meetsForward := fun (k : Int) (x : Nat) =>
        !odd && (k - delta).natAbs ≤ edits && n ≤ x + forward.get (delta - k)
      match sweep oldBack newBack edits meetsForward (diagonals edits) backward with
      | (some path, _) => some (n - path.stop, m - path.stopNew)
      | (none, backward) =>
        searchSnake old new oldBack newBack rounds (edits + 1) forward backward

/-- Where to cut two sequences, as the numbers of old and new elements in front. -/
def middleSnake? (old new : Array α) : Option (Nat × Nat) :=
  let rounds := (old.size + new.size + 1) / 2 + 1
  searchSnake old new old.reverse new.reverse rounds 0 (.start (rounds + 1)) (.start (rounds + 1))

end ExactEdit.Diff
