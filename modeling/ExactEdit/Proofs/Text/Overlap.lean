import ExactEdit.Proofs.Text.Match

/-! # Places that overlap

Matches are counted without overlaps, so a count of one does not say that a pattern stands at one
place. It says that the pattern stands somewhere and that any two of its places overlap. Two places
can overlap only if the pattern ends with a text that it also begins with; for every such pattern
there is a text in which a single match is counted at two places, and for no other.

## Main definitions

* `Text.Bordered` — a text that a copy of itself can begin in

## Main results

* `Text.matchCount_eq_one_iff` — what a single match says of all places
* `Text.bordered_of_overlap` — places overlap only if the pattern is bordered
* `Text.not_bordered_iff` — for which patterns a single match is a single place
-/

namespace ExactEdit.Text

variable {pattern chars : List Char} {p q : Nat}

/-- There is a single match exactly if the pattern stands somewhere and any two of its places
overlap. -/
theorem matchCount_eq_one_iff (hne : pattern ≠ []) :
    matchCount pattern chars = 1 ↔ (∃ p, StandsAt pattern p chars) ∧
      ∀ p q, StandsAt pattern p chars → StandsAt pattern q chars → q < p + width pattern := by
  constructor
  · intro hcount
    have hmatch : ∃ p, p ∈ matchOffsets pattern chars :=
      List.exists_mem_of_length_pos (by rw [matchCount] at hcount; omega)
    obtain ⟨p, hp⟩ := hmatch
    refine ⟨⟨p, standsAt_of_mem_matchOffsets hp⟩, ?_⟩
    intro p q hp hq
    by_contra hapart
    have := two_le_matchCount hne hp hq (by omega)
    omega
  · rintro ⟨⟨p, hp⟩, hoverlap⟩
    have hmatches := matchOffsets_leftmost hne chars
    rw [matchCount]
    -- Two matches would be places that do not overlap.
    rcases hoffsets : matchOffsets pattern chars with _ | ⟨first, _ | ⟨second, more⟩⟩
    · obtain ⟨q, hq, -⟩ := hmatches.covers (Nat.zero_le p) hp
      rw [hoffsets] at hq
      cases hq
    · rfl
    · rw [hoffsets] at hmatches
      have hfirst := hmatches.standsAt_of_mem List.mem_cons_self
      have hsecond := hmatches.standsAt_of_mem (List.mem_cons_of_mem _ List.mem_cons_self)
      cases hmatches with
      | take _ _ _ behind =>
        have := behind.le_of_mem List.mem_cons_self
        have := hoverlap first second hfirst hsecond
        omega

/-- A text that ends with a text that it also begins with, other than nothing and itself. -/
def Bordered (pattern : List Char) : Prop :=
  ∃ head border tail, pattern = head ++ border ∧ pattern = border ++ tail ∧ head ≠ [] ∧ border ≠ []

/-- Only a bordered pattern has places that overlap. -/
theorem bordered_of_overlap (hp : StandsAt pattern p chars) (hq : StandsAt pattern q chars)
    (hlt : p < q) (hoverlap : q < p + width pattern) : Bordered pattern := by
  obtain ⟨front, back, rfl, rfl⟩ := hp
  obtain ⟨front', back', hcut, rfl⟩ := hq
  -- What is in front of the second place and not of the first is a part of the pattern, and the
  -- rest of the pattern is where the second place begins.
  obtain ⟨head, rfl, hhead⟩ := exists_between hcut (Nat.le_of_lt hlt)
  rw [width_append] at hlt hoverlap
  obtain ⟨border, hpattern, hborder⟩ := exists_between hhead.symm (by omega)
  have hwidth : width head + width border = width pattern := by
    rw [hpattern, width_append]
  obtain ⟨tail, htail, -⟩ := exists_between hborder.symm (by omega)
  refine ⟨head, border, tail, hpattern, htail, ?_, ?_⟩
  · rintro rfl
    simp at hlt
  · rintro rfl
    rw [width_nil] at hwidth
    omega

/-- A copy of a bordered pattern behind its first part makes two places, but one match. -/
theorem Bordered.exists_two_places (h : Bordered pattern) :
    ∃ chars place, matchCount pattern chars = 1 ∧ 0 < place ∧ StandsAt pattern 0 chars ∧
      StandsAt pattern place chars := by
  obtain ⟨head, border, tail, hhead, htail, hne, hne'⟩ := h
  have hpos := width_pos_of_ne_nil hne
  have hpos' := width_pos_of_ne_nil hne'
  have hwidth : width pattern = width head + width border := by
    rw [hhead, width_append]
  have hpattern : pattern ≠ [] := by
    rw [hhead]
    simp [hne]
  have hfirst : StandsAt pattern 0 (head ++ pattern) :=
    ⟨[], tail, by rw [List.nil_append, hhead, List.append_assoc, ← htail, ← hhead], rfl⟩
  have hsecond : StandsAt pattern (width head) (head ++ pattern) :=
    ⟨head, [], by rw [List.append_nil], rfl⟩
  refine ⟨head ++ pattern, width head, ?_, hpos, hfirst, hsecond⟩
  refine (matchCount_eq_one_iff hpattern).mpr ⟨⟨0, hfirst⟩, ?_⟩
  intro p q _ hq
  have hend := hq.add_width_le
  rw [width_append] at hend
  omega

/-- The patterns for which a single match is a single place, in whatever text, are those without
a border. -/
theorem not_bordered_iff (hne : pattern ≠ []) :
    ¬ Bordered pattern ↔
      ∀ chars, matchCount pattern chars = 1 → ∃! place, StandsAt pattern place chars := by
  constructor
  · intro hborder chars hcount
    obtain ⟨⟨p, hp⟩, hoverlap⟩ := (matchCount_eq_one_iff hne).mp hcount
    refine ⟨p, hp, ?_⟩
    intro q hq
    have hpq := hoverlap p q hp hq
    have hqp := hoverlap q p hq hp
    rcases Nat.lt_trichotomy p q with hlt | heq | hgt
    · exact absurd (bordered_of_overlap hp hq hlt hpq) hborder
    · exact heq.symm
    · exact absurd (bordered_of_overlap hq hp hgt hqp) hborder
  · intro hunique hborder
    obtain ⟨chars, place, hcount, hpos, hfirst, hsecond⟩ := hborder.exists_two_places
    have := (hunique chars hcount).unique hfirst hsecond
    omega

end ExactEdit.Text
