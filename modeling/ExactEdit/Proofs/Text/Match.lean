import ExactEdit.Proofs.Text.Boundary
import ExactEdit.Text.Search

/-! # Leftmost matches

The search takes matches from the left and goes on behind each. This module says what it finds
without the scan: every offset found is one where the pattern stands, between two of them the
pattern stands nowhere that does not overlap the first, and nothing is left out in front or behind.
A match that the search passes over therefore overlaps one that it takes, from the right; that is
the difference between the number of matches taken and the number of places.

## Main definitions

* `Text.Leftmost` — the offsets of the leftmost non-overlapping matches from an offset on
* `Text.IsFirst` — the first place of a pattern
* `Text.replaceFirst` — the text with the first match replaced

## Main results

* `Text.matchOffsets_leftmost` — the search finds the leftmost matches
* `Text.Leftmost.covers` — every place of the pattern is overlapped by a match from its left
* `Text.head?_matchOffsets_eq_some_iff` — the first match is the first place
* `Text.exists_of_matchCount_eq_one` — what a single match says of a place of the pattern
-/

namespace ExactEdit.Text

variable {pattern chars before rest : List Char} {start limit p q : Nat} {found : List Nat}

/-- The offsets of the matches that a reader takes who goes through the text from byte `start` on
and behind each match goes on after it. -/
inductive Leftmost (pattern chars : List Char) : Nat → List Nat → Prop
  | done {start : Nat} (none : ∀ p, start ≤ p → ¬ StandsAt pattern p chars) :
      Leftmost pattern chars start []
  | take {start p : Nat} {found : List Nat} (le : start ≤ p) (stands : StandsAt pattern p chars)
      (first : ∀ q, start ≤ q → q < p → ¬ StandsAt pattern q chars)
      (behind : Leftmost pattern chars (p + width pattern) found) :
      Leftmost pattern chars start (p :: found)

namespace Leftmost

/-- Bytes at which the pattern does not stand may be passed over. -/
theorem lower (h : Leftmost pattern chars start found) (hle : limit ≤ start)
    (hnone : ∀ q, limit ≤ q → q < start → ¬ StandsAt pattern q chars) :
    Leftmost pattern chars limit found := by
  cases h with
  | done none =>
    refine .done ?_
    intro p hp
    rcases Nat.lt_or_ge p start with hlt | hge
    · exact hnone p hp hlt
    · exact none p hge
  | take le stands first behind =>
    refine .take (Nat.le_trans hle le) stands ?_ behind
    intro q hq hlt
    rcases Nat.lt_or_ge q start with hbefore | hge
    · exact hnone q hq hbefore
    · exact first q hge hlt

theorem le_of_mem (h : Leftmost pattern chars start found) (hp : p ∈ found) : start ≤ p := by
  induction h with
  | done => cases hp
  | take le _ _ _ ih =>
    rcases List.mem_cons.mp hp with rfl | htail
    · exact le
    · have := ih htail
      omega

theorem standsAt_of_mem (h : Leftmost pattern chars start found) (hp : p ∈ found) :
    StandsAt pattern p chars := by
  induction h with
  | done => cases hp
  | take _ stands _ _ ih =>
    rcases List.mem_cons.mp hp with rfl | htail
    · exact stands
    · exact ih htail

/-- Matches do not overlap. -/
theorem add_width_le (h : Leftmost pattern chars start found) (hp : p ∈ found) (hq : q ∈ found)
    (hlt : p < q) : p + width pattern ≤ q := by
  induction h with
  | done => cases hp
  | take _ _ _ behind ih =>
    rcases List.mem_cons.mp hp with rfl | hpTail
    · rcases List.mem_cons.mp hq with rfl | hqTail
      · omega
      · exact behind.le_of_mem hqTail
    · rcases List.mem_cons.mp hq with rfl | hqTail
      · have := behind.le_of_mem hpTail
        omega
      · exact ih hpTail hqTail

/-- Matches are listed in the order of the text. -/
theorem pairwise_lt (h : Leftmost pattern chars start found) (hne : pattern ≠ []) :
    found.Pairwise (· < ·) := by
  induction h with
  | done => exact List.Pairwise.nil
  | take _ _ _ behind ih =>
    have := width_pos_of_ne_nil hne
    refine List.pairwise_cons.mpr ⟨fun q hq => ?_, ih⟩
    have := behind.le_of_mem hq
    omega

/-- A place of the pattern that is no match is overlapped by a match that begins before it. -/
theorem covers (h : Leftmost pattern chars start found) (hle : start ≤ p)
    (hp : StandsAt pattern p chars) : ∃ q ∈ found, q ≤ p ∧ p < q + width pattern := by
  -- In front of the match that is taken there is no place, and behind it the rest is searched.
  induction h with
  | done none => exact absurd hp (none p hle)
  | @take _ taken _ _ _ first _ ih =>
    rcases Nat.lt_or_ge p taken with hlt | hge
    · exact absurd hp (first p hle hlt)
    · rcases Nat.lt_or_ge p (taken + width pattern) with hinside | hbehind
      · exact ⟨taken, List.mem_cons_self, hge, hinside⟩
      · obtain ⟨q, hq, hcovers⟩ := ih hbehind
        exact ⟨q, List.mem_cons_of_mem _ hq, hcovers⟩

/-- A text is read in one way. -/
theorem unique {other : List Nat} (h : Leftmost pattern chars start found)
    (h' : Leftmost pattern chars start other) : found = other := by
  induction h generalizing other with
  | done none =>
    cases h' with
    | done => rfl
    | take le stands => exact absurd stands (none _ le)
  | @take _ taken _ le stands first _ ih =>
    cases h' with
    | done none => exact absurd stands (none _ le)
    | @take _ taken' _ le' stands' first' behind' =>
      -- Of two different places one would be in front of the other's match.
      obtain rfl : taken = taken' := by
        rcases Nat.lt_trichotomy taken taken' with hlt | heq | hgt
        · exact absurd stands (first' _ le hlt)
        · exact heq
        · exact absurd stands' (first _ le' hgt)
      rw [ih behind']

end Leftmost

/-! ## The search -/

/-- A character splits no place of a pattern. -/
theorem StandsAt.not_inside_char {c : Char} (h : StandsAt pattern q (before ++ c :: rest))
    (hgt : width before < q) : width before + c.utf8Size ≤ q := by
  obtain ⟨front, after, hcut, rfl⟩ := h
  obtain ⟨middle, rfl, hrest⟩ := exists_between hcut (Nat.le_of_lt hgt)
  cases middle with
  | nil => simp at hgt
  | cons d middle =>
    obtain ⟨rfl, -⟩ := List.cons.inj hrest
    rw [width_append, width_cons]
    omega

theorem standsAt_of_isPrefixOf (h : pattern.isPrefixOf rest = true) :
    StandsAt pattern (width before) (before ++ rest) := by
  obtain ⟨after, rfl⟩ := List.isPrefixOf_iff_prefix.mp h
  exact standsAt_append before pattern after

theorem StandsAt.isPrefixOf (h : StandsAt pattern (width before) (before ++ rest)) :
    pattern.isPrefixOf rest = true := by
  obtain ⟨front, after, hcut, hfront⟩ := h
  obtain ⟨-, rfl⟩ := front_eq_of_width_eq hcut hfront.symm
  exact List.isPrefixOf_iff_prefix.mpr (List.prefix_append pattern after)

/-- Scanning on behind some characters finds the leftmost matches from there. -/
theorem matchesFrom_leftmost (hne : pattern ≠ []) (before rest : List Char) :
    Leftmost pattern (before ++ rest) (width before) (matchesFrom pattern (width before) rest) := by
  -- The scan's offset is the width of what it has passed; it takes a step by a match or by a
  -- character, so the induction is on the scan with the front left open.
  generalize hstart : width before = start
  fun_induction matchesFrom pattern start rest generalizing before with
  | case1 start =>
    refine .done ?_
    intro p hp hstands
    have hwidth := hstands.add_width_le
    have hpos := width_pos_of_ne_nil hne
    rw [List.append_nil] at hwidth
    omega
  | case2 start c rest hprefix ih =>
    subst hstart
    obtain ⟨after, hafter⟩ := List.isPrefixOf_iff_prefix.mp hprefix
    have hdrop : rest.drop (pattern.length - 1) = after := by
      cases pattern with
      | nil => exact absurd rfl hne
      | cons d pattern =>
        obtain ⟨-, rfl⟩ := List.cons.inj hafter
        simp
    have hbehind := ih (before ++ pattern) (width_append before pattern)
    rw [hdrop] at hbehind ⊢
    rw [List.append_assoc, hafter] at hbehind
    refine .take (Nat.le_refl _) (standsAt_of_isPrefixOf hprefix) ?_ hbehind
    intro q hq hlt
    exact absurd hlt (Nat.not_lt.mpr hq)
  | case3 start c rest hprefix ih =>
    subst hstart
    have hbehind := ih (before ++ [c]) (by simp)
    rw [List.append_assoc, List.singleton_append] at hbehind
    refine hbehind.lower (Nat.le_add_right _ _) ?_
    intro q hq hlt hstands
    rcases Nat.lt_or_eq_of_le hq with hgt | rfl
    · exact absurd (hstands.not_inside_char hgt) (by omega)
    · exact hprefix hstands.isPrefixOf

/-- The search finds the leftmost matches. -/
theorem matchOffsets_leftmost (hne : pattern ≠ []) (chars : List Char) :
    Leftmost pattern chars 0 (matchOffsets pattern chars) := by
  have h := matchesFrom_leftmost hne [] chars
  rw [List.nil_append, width_nil] at h
  rw [matchOffsets, if_neg (by simpa using hne)]
  exact h

theorem standsAt_of_mem_matchOffsets (h : p ∈ matchOffsets pattern chars) :
    StandsAt pattern p chars := by
  by_cases hne : pattern = []
  · rw [matchOffsets, if_pos (by simpa using hne)] at h
    cases h
  · exact (matchOffsets_leftmost hne chars).standsAt_of_mem h

theorem pairwise_matchOffsets (pattern chars : List Char) :
    (matchOffsets pattern chars).Pairwise (· < ·) := by
  by_cases hne : pattern = []
  · rw [matchOffsets, if_pos (by simpa using hne)]
    exact List.Pairwise.nil
  · exact (matchOffsets_leftmost hne chars).pairwise_lt hne

theorem ne_nil_of_mem_matchOffsets (h : p ∈ matchOffsets pattern chars) : pattern ≠ [] := by
  rintro rfl
  cases h

/-! ## The first place -/

/-- The pattern stands at `p` and nowhere before. -/
def IsFirst (pattern : List Char) (p : Nat) (chars : List Char) : Prop :=
  StandsAt pattern p chars ∧ ∀ q, q < p → ¬ StandsAt pattern q chars

theorem IsFirst.unique (hp : IsFirst pattern p chars) (hq : IsFirst pattern q chars) : p = q := by
  rcases Nat.lt_trichotomy p q with hlt | heq | hgt
  · exact absurd hp.1 (hq.2 p hlt)
  · exact heq
  · exact absurd hq.1 (hp.2 q hgt)

/-- Whether a place is the first depends on nothing behind it. -/
theorem IsFirst.change_after {after : List Char}
    (h : IsFirst pattern (width before) (before ++ (pattern ++ after))) (after' : List Char) :
    IsFirst pattern (width before) (before ++ (pattern ++ after')) := by
  refine ⟨standsAt_append before pattern after', ?_⟩
  intro q hlt hstands
  apply h.2 q hlt
  -- A place further up ends in front of what was changed.
  have hfront : StandsAt (before ++ pattern) 0 (before ++ (pattern ++ after')) :=
    ⟨[], after', by simp, rfl⟩
  have hinside : StandsAt pattern q (before ++ pattern) :=
    hfront.inside (by rwa [Nat.zero_add]) (by rw [width_append]; omega)
  have hkept : StandsAt (before ++ pattern) 0 (before ++ (pattern ++ after)) :=
    ⟨[], after, by simp, rfl⟩
  have := hkept.trans hinside
  rwa [Nat.zero_add] at this

/-- The first match is the first place. -/
theorem head?_matchOffsets_eq_some_iff (hne : pattern ≠ []) :
    (matchOffsets pattern chars).head? = some p ↔ IsFirst pattern p chars := by
  have hmatches := matchOffsets_leftmost hne chars
  generalize matchOffsets pattern chars = found at hmatches
  constructor
  · intro h
    cases hmatches with
    | done => cases h
    | take _ stands first =>
      obtain rfl := Option.some.inj h
      exact ⟨stands, fun q hlt => first q (Nat.zero_le q) hlt⟩
  · intro h
    cases hmatches with
    | done none => exact absurd h.1 (none p (Nat.zero_le p))
    | take _ stands first =>
      rw [List.head?_cons, h.unique ⟨stands, fun q hlt => first q (Nat.zero_le q) hlt⟩]

/-- A pattern is found if it stands anywhere. -/
theorem exists_isFirst (hne : pattern ≠ []) (h : StandsAt pattern p chars) :
    ∃ q, IsFirst pattern q chars ∧ q ≤ p := by
  -- Some match covers the place, so there are matches at all, and the first has none before it.
  obtain ⟨q, hq, hle, -⟩ := (matchOffsets_leftmost hne chars).covers (Nat.zero_le p) h
  obtain ⟨first, hfirst⟩ := Option.isSome_iff_exists.mp
    (List.isSome_head?.mpr (List.ne_nil_of_mem hq))
  have hisFirst := (head?_matchOffsets_eq_some_iff hne).mp hfirst
  refine ⟨first, hisFirst, ?_⟩
  by_contra hgt
  exact hisFirst.2 p (by omega) h

/-- The text with the first match of `old` replaced; the text itself if there is none. -/
def replaceFirst (old new chars : List Char) : List Char :=
  match (matchOffsets old chars).head? with
  | some start => splice ⟨start, start + width old⟩ new chars
  | none => chars

theorem replaceFirst_eq {old new : List Char} (hne : old ≠ []) (h : IsFirst old p chars) :
    replaceFirst old new chars = splice ⟨p, p + width old⟩ new chars := by
  rw [replaceFirst, (head?_matchOffsets_eq_some_iff hne).mpr h]

/-! ## Counting matches -/

/-- Two places that do not overlap make two matches. -/
theorem two_le_matchCount (hne : pattern ≠ []) (hp : StandsAt pattern p chars)
    (hq : StandsAt pattern q chars) (hle : p + width pattern ≤ q) :
    2 ≤ matchCount pattern chars := by
  have hmatches := matchOffsets_leftmost hne chars
  -- Each place is covered by a match, and no match is wide enough for both.
  obtain ⟨a, ha, hap, hpa⟩ := hmatches.covers (Nat.zero_le p) hp
  obtain ⟨b, hb, hbq, hqb⟩ := hmatches.covers (Nat.zero_le q) hq
  have hab : a ≠ b := by omega
  rw [matchCount]
  -- One member alone would be both.
  rcases hoffsets : matchOffsets pattern chars with _ | ⟨only, _ | ⟨second, more⟩⟩
  · simp [hoffsets] at ha
  · rw [hoffsets, List.mem_singleton] at ha hb
    exact absurd (ha.trans hb.symm) hab
  · simp

/-- If there is a single match, every place of the pattern is overlapped by the first. -/
theorem exists_of_matchCount_eq_one (hne : pattern ≠ []) (hcount : matchCount pattern chars = 1)
    (hp : StandsAt pattern p chars) :
    ∃ first, IsFirst pattern first chars ∧ first ≤ p ∧ p < first + width pattern := by
  obtain ⟨first, hfirst, hle⟩ := exists_isFirst hne hp
  refine ⟨first, hfirst, hle, ?_⟩
  by_contra hfar
  have := two_le_matchCount hne hfirst.1 hp (by omega)
  omega

end ExactEdit.Text
