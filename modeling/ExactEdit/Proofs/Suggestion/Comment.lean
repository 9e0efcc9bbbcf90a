import ExactEdit.Proofs.Suggestion.Widening

/-! # The nearest comment

An ambiguous occurrence can be told by a comment next to it. The comment is looked for above and
below at growing distances, and from the line that is found the block is extended away from the
occurrence as long as comment lines follow. Here the line is said by its distance alone, and the
block by what is on its lines and on the first line behind it.

## Main definitions

* `SuggestionBasis.distance` — how far a line is from some others
* `SuggestionBasis.IsNearest` — no comment line outside some lines is nearer to them
* `SuggestionBasis.IsCommentBlock` — the lines of a comment with those of an occurrence

## Main results

* `SuggestionBasis.nearestComment?_eq_some_iff`, `SuggestionBasis.nearestComment?_eq_none_iff` —
  which comment line is found, and when there is none
* `SuggestionBasis.isCommentBlock_commentBlock` — the block is extended as far as it goes
* `comment_block_nearest` — the comment of an occurrence that was found
-/

namespace ExactEdit

open Text Result

variable {chars : List Char} {basis : SuggestionBasis} {first last line anchor : Nat}

/-- The first number from one on that gives something. -/
theorem exists_of_findSome?_range' {found : Nat → Option Nat} {count result : Nat}
    (h : (List.range' 1 count).findSome? found = some result) :
    ∃ number, 0 < number ∧ number ≤ count ∧ found number = some result ∧
      ∀ earlier, 0 < earlier → earlier < number → found earlier = none := by
  obtain ⟨front, number, back, hcut, hfound, hnone⟩ := List.findSome?_eq_some_iff.mp h
  have hmem : ∀ other, other ∈ front ++ number :: back ↔ 0 < other ∧ other ≤ count := by
    intro other
    rw [← hcut, List.mem_range'_1]
    omega
  obtain ⟨hpos, hle⟩ := (hmem number).mp (by simp)
  refine ⟨number, hpos, hle, hfound, fun earlier hearlier hlt => ?_⟩
  have hsorted : (front ++ number :: back).Pairwise (· < ·) := hcut ▸ List.pairwise_lt_range'
  rcases List.mem_append.mp ((hmem earlier).mpr ⟨hearlier, by omega⟩) with hfront | hback
  · exact hnone earlier hfront
  · rcases List.mem_cons.mp hback with rfl | hback
    · exact absurd hlt (Nat.lt_irrefl _)
    · have := List.rel_of_pairwise_cons (List.pairwise_append.mp hsorted).2.1 hback
      exact absurd hlt (Nat.lt_asymm this)

namespace SuggestionBasis

/-! ## Comment lines -/

theorem isComment_iff : basis.isComment line = true ↔
    ∃ text, basis.source.line line = .ok text ∧
      Language.isCommentLine basis.language text = true := by
  rw [isComment]
  cases basis.source.line line with
  | error refusal => simp
  | ok text => simp

/-- A comment line is one of the lines there are. -/
theorem bounds_of_isComment (hsource : basis.source = Source.ofChars chars)
    (h : basis.isComment line = true) : 1 ≤ line ∧ line ≤ basis.source.lineCount := by
  obtain ⟨text, hline, -⟩ := isComment_iff.mp h
  rw [hsource, Source.line, Source.lines, map_eq_ok_iff] at hline
  obtain ⟨span, hspan, -⟩ := hline
  obtain ⟨hfirst, -, hlast⟩ := Source.bounds_of_lineSpan_eq_ok hspan
  rw [hsource]
  exact ⟨hfirst, hlast⟩

/-! ## Looking for the nearest one -/

/-- How far a line is from the lines `first` to `last`, above or below; those are at no
distance. -/
def distance (first last line : Nat) : Nat := (first - line) + (line - last)

/-- No comment line outside the lines `first` to `last` is nearer to them than `anchor`, within the
radius, and with another one as near it is the one above. -/
structure IsNearest (basis : SuggestionBasis) (first last anchor : Nat) : Prop where
  isComment : basis.isComment anchor = true
  outside : 0 < distance first last anchor
  inside : distance first last anchor ≤ basis.commentRadius
  nearest : ∀ line, basis.isComment line = true → 0 < distance first last line →
    distance first last anchor ≤ distance first last line
  above : ∀ line, basis.isComment line = true → line < first →
    distance first last line = distance first last anchor → anchor < first

section Looking

variable {away : Nat} (hsource : basis.source = Source.ofChars chars) (hle : first ≤ last)
include hsource hle

/-- At a distance there are two lines, and those that are looked at are the comment lines among
them. -/
theorem isComment_and_distance_iff (hpos : 0 < away) :
    basis.isComment line = true ∧ distance first last line = away ↔
      (away < first ∧ basis.isComment (first - away) = true) ∧ line = first - away ∨
      (last + away ≤ basis.source.lineCount ∧ basis.isComment (last + away) = true) ∧
        line = last + away := by
  constructor
  · -- Whether it is above or below, the line is told by its distance.
    rintro ⟨hcomment, hdistance⟩
    obtain ⟨hline, hcount⟩ := bounds_of_isComment hsource hcomment
    rw [distance] at hdistance
    rcases Nat.lt_or_ge line first with habove | hbelow
    · obtain rfl : line = first - away := by omega
      exact .inl ⟨⟨by omega, hcomment⟩, rfl⟩
    · obtain rfl : line = last + away := by omega
      exact .inr ⟨⟨hcount, hcomment⟩, rfl⟩
  · rintro (⟨⟨hlt, hcomment⟩, rfl⟩ | ⟨⟨-, hcomment⟩, rfl⟩)
    · exact ⟨hcomment, by rw [distance]; omega⟩
    · exact ⟨hcomment, by rw [distance]; omega⟩

theorem commentAtDistance?_eq_none_iff (hpos : 0 < away) :
    basis.commentAtDistance? first last away = none ↔
      ∀ line, basis.isComment line = true → distance first last line ≠ away := by
  rw [commentAtDistance?]
  constructor
  · intro hnone line hcomment hdistance
    rcases (isComment_and_distance_iff hsource hle hpos).mp ⟨hcomment, hdistance⟩ with
      ⟨habove, -⟩ | ⟨hbelow, -⟩
    · rw [if_pos habove] at hnone
      cases hnone
    · rw [if_pos hbelow] at hnone
      split at hnone <;> cases hnone
  · intro hall
    rw [if_neg, if_neg]
    · intro hbelow
      obtain ⟨hcomment, hdistance⟩ :=
        (isComment_and_distance_iff hsource hle hpos).mpr (.inr ⟨hbelow, rfl⟩)
      exact hall _ hcomment hdistance
    · intro habove
      obtain ⟨hcomment, hdistance⟩ :=
        (isComment_and_distance_iff hsource hle hpos).mpr (.inl ⟨habove, rfl⟩)
      exact hall _ hcomment hdistance

/-- What is found at a distance is a comment line there, the first of them. -/
theorem of_commentAtDistance?_eq_some (hpos : 0 < away)
    (h : basis.commentAtDistance? first last away = some anchor) :
    (basis.isComment anchor = true ∧ distance first last anchor = away) ∧
      ∀ line, basis.isComment line = true → distance first last line = away → anchor ≤ line := by
  rw [commentAtDistance?] at h
  split at h
  · -- The line above has the smaller number of the two.
    next habove =>
    obtain rfl := Option.some.inj h
    refine ⟨(isComment_and_distance_iff hsource hle hpos).mpr (.inl ⟨habove, rfl⟩), ?_⟩
    intro line _ hdistance
    rw [distance] at hdistance
    omega
  · next habove =>
    split at h
    · next hbelow =>
      obtain rfl := Option.some.inj h
      refine ⟨(isComment_and_distance_iff hsource hle hpos).mpr (.inr ⟨hbelow, rfl⟩), ?_⟩
      intro line hcomment hdistance
      rcases (isComment_and_distance_iff hsource hle hpos).mp ⟨hcomment, hdistance⟩ with
        ⟨hline, -⟩ | ⟨-, rfl⟩
      · exact absurd hline habove
      · exact Nat.le_refl _
    · cases h

variable (hlast : last ≤ basis.source.lineCount)
include hlast

/-- Distances are tried up to the radius, and no comment line is further away than there are
lines. -/
theorem nearestComment?_eq_none_iff :
    basis.nearestComment? first last = none ↔ ∀ line, basis.isComment line = true →
      0 < distance first last line → basis.commentRadius < distance first last line := by
  rw [nearestComment?, List.findSome?_eq_none_iff]
  constructor
  · -- A comment line within the radius would have been found at its distance.
    intro hnone line hcomment hpos
    by_contra hinside
    obtain ⟨hline, hcount⟩ := bounds_of_isComment hsource hcomment
    have hmem : distance first last line ∈
        List.range' 1 (min basis.commentRadius basis.source.lineCount) := by
      rw [List.mem_range'_1]
      rw [distance] at *
      omega
    exact (commentAtDistance?_eq_none_iff hsource hle hpos).mp (hnone _ hmem) line hcomment rfl
  · intro hfar away haway
    rw [List.mem_range'_1] at haway
    refine (commentAtDistance?_eq_none_iff hsource hle haway.1).mpr fun line hcomment heq => ?_
    have := hfar line hcomment (by omega)
    omega

/-- What is found is the nearest comment line, and there is only one. -/
theorem nearestComment?_eq_some_iff :
    basis.nearestComment? first last = some anchor ↔ basis.IsNearest first last anchor := by
  have hnearest : ∀ {anchor}, basis.nearestComment? first last = some anchor →
      basis.IsNearest first last anchor := by
    intro anchor h
    obtain ⟨away, hpos, hinside, hfound, hnearer⟩ := exists_of_findSome?_range' h
    obtain ⟨⟨hcomment, rfl⟩, hfirst⟩ := of_commentAtDistance?_eq_some hsource hle hpos hfound
    refine ⟨hcomment, hpos, by omega, fun line hline hout => ?_, fun line hline habove heq => ?_⟩
    · -- Nothing was found at any smaller distance.
      by_contra hlt
      have hnone := hnearer _ hout (by omega)
      exact (commentAtDistance?_eq_none_iff hsource hle hout).mp hnone line hline rfl
    · exact Nat.lt_of_le_of_lt (hfirst line hline heq) habove
  refine ⟨hnearest, fun h => ?_⟩
  cases hfound : basis.nearestComment? first last with
  | none =>
    have := (nearestComment?_eq_none_iff hsource hle hlast).mp hfound anchor h.isComment h.outside
    exact absurd h.inside (by omega)
  | some other =>
    -- Both are at the least distance, and on the same side.
    have h' := hnearest hfound
    have := h.nearest other h'.isComment h'.outside
    have := h'.nearest anchor h.isComment h.outside
    have := h.above other h'.isComment
    have := h'.above anchor h.isComment
    rw [Option.some_inj]
    have hout := h.outside
    have hout' := h'.outside
    simp only [distance] at *
    omega

end Looking

/-! ## Extending the block -/

/-- Upwards the block takes in comment lines as long as there are any. -/
theorem commentStart_spec (basis : SuggestionBasis) (hpos : 1 ≤ line) :
    1 ≤ basis.commentStart line ∧
      (∀ other, basis.commentStart line ≤ other → other < line → basis.isComment other = true) ∧
        (basis.commentStart line = 1 ∨ basis.isComment (basis.commentStart line - 1) = false) := by
  induction line with
  | zero => omega
  | succ line ih =>
    -- Either one more line is taken in, or there is none or none that may be.
    rw [commentStart]
    split
    · next htaken =>
      obtain ⟨hone, hall, hedge⟩ := ih (by omega)
      refine ⟨hone, fun other hle hlt => ?_, hedge⟩
      rcases Nat.lt_or_eq_of_le (Nat.le_of_lt_succ hlt) with hbefore | rfl
      · exact hall other hle hbefore
      · exact htaken.2
    · next hleft =>
      refine ⟨hpos, fun other hle hlt => absurd hle (by omega), ?_⟩
      by_cases hone : line = 0
      · exact .inl (by rw [hone])
      · exact .inr (by simpa [Nat.pos_of_ne_zero hone] using hleft)

/-- Downwards the block takes in comment lines as long as there are any, if it may take in all lines
that are left. -/
theorem commentStop_spec (basis : SuggestionBasis) {steps : Nat}
    (hsteps : basis.source.lineCount ≤ line + steps)
    (hline : line ≤ basis.source.lineCount) :
    basis.commentStop steps line ≤ basis.source.lineCount ∧
      (∀ other, line < other → other ≤ basis.commentStop steps line →
        basis.isComment other = true) ∧
        (basis.commentStop steps line = basis.source.lineCount ∨
          basis.isComment (basis.commentStop steps line + 1) = false) := by
  induction steps generalizing line with
  | zero =>
    rw [commentStop]
    exact ⟨hline, fun other hlt hle => absurd hlt (by omega), .inl (by omega)⟩
  | succ steps ih =>
    rw [commentStop]
    split
    · next htaken =>
      obtain ⟨hcount, hall, hedge⟩ := @ih (line + 1) (by omega) htaken.1
      refine ⟨hcount, fun other hlt hle => ?_, hedge⟩
      rcases Nat.lt_or_eq_of_le (Nat.succ_le_of_lt hlt) with hbehind | rfl
      · exact hall other hbehind hle
      · exact htaken.2
    · next hleft =>
      refine ⟨hline, fun other hlt hle => absurd hlt (by omega), ?_⟩
      by_cases hend : line = basis.source.lineCount
      · exact .inl hend
      · exact .inr (by simpa [Nat.lt_of_le_of_ne hline hend] using hleft)

/-- The lines `lo` to `hi` are the lines `first` to `last` with the comment at `anchor`. On the side
of the comment they end with its last comment line, and on the other side they end where the others
do. -/
structure IsCommentBlock (basis : SuggestionBasis) (first last anchor lo hi : Nat) : Prop where
  pos : 1 ≤ lo
  le_lineCount : hi ≤ basis.source.lineCount
  holds_lines : lo ≤ first ∧ last ≤ hi
  holds_anchor : lo ≤ anchor ∧ anchor ≤ hi
  above : anchor < first → hi = last ∧
    (∀ line, lo ≤ line → line ≤ anchor → basis.isComment line = true) ∧
      (lo = 1 ∨ basis.isComment (lo - 1) = false)
  below : last < anchor → lo = first ∧
    (∀ line, anchor ≤ line → line ≤ hi → basis.isComment line = true) ∧
      (hi = basis.source.lineCount ∨ basis.isComment (hi + 1) = false)

section Extending

variable {occurrence : Occurrence} (hle : occurrence.line ≤ occurrence.endLine)
include hle

theorem commentBlock_of_above (habove : anchor < occurrence.line) :
    basis.commentBlock occurrence anchor = (basis.commentStart anchor, occurrence.endLine) := by
  rw [commentBlock, if_pos habove, Nat.min_eq_left (by omega), Nat.max_eq_right (by omega)]

theorem commentBlock_of_below (hbelow : occurrence.endLine < anchor) :
    basis.commentBlock occurrence anchor =
      (occurrence.line, basis.commentStop basis.source.lineCount anchor) := by
  rw [commentBlock, if_neg (by omega), Nat.min_eq_right (by omega), Nat.max_eq_left (by omega)]

/-- The block of an occurrence is extended away from it as far as there are comment lines. -/
theorem isCommentBlock_commentBlock (hsource : basis.source = Source.ofChars chars)
    (hpos : 1 ≤ occurrence.line) (hlast : occurrence.endLine ≤ basis.source.lineCount)
    (hnearest : basis.IsNearest occurrence.line occurrence.endLine anchor) :
    basis.IsCommentBlock occurrence.line occurrence.endLine anchor
      (basis.commentBlock occurrence anchor).1 (basis.commentBlock occurrence anchor).2 := by
  have hanchor := bounds_of_isComment hsource hnearest.isComment
  have houtside := hnearest.outside
  rw [distance] at houtside
  by_cases habove : anchor < occurrence.line
  · rw [commentBlock_of_above hle habove]
    have hstart := basis.commentStart_le anchor
    obtain ⟨hone, hall, hedge⟩ := basis.commentStart_spec hanchor.1
    refine ⟨hone, hlast, ⟨by omega, Nat.le_refl _⟩, ⟨hstart, by omega⟩,
      fun _ => ⟨rfl, fun line hfrom hto => ?_, hedge⟩, fun hbelow => absurd hbelow (by omega)⟩
    rcases Nat.lt_or_eq_of_le hto with hbefore | rfl
    · exact hall line hfrom hbefore
    · exact hnearest.isComment
  · have hbelow : occurrence.endLine < anchor := by omega
    rw [commentBlock_of_below hle hbelow]
    have hstop := basis.le_commentStop basis.source.lineCount anchor
    obtain ⟨hcount, hall, hedge⟩ := basis.commentStop_spec
      (Nat.le_add_left basis.source.lineCount anchor) hanchor.2
    refine ⟨hpos, hcount, ⟨Nat.le_refl _, by omega⟩, ⟨by omega, hstop⟩,
      fun h => absurd h habove, fun _ => ⟨rfl, fun line hfrom hto => ?_, hedge⟩⟩
    rcases Nat.lt_or_eq_of_le hfrom with hbehind | rfl
    · exact hall line hbehind hto
    · exact hnearest.isComment

end Extending

/-- With a comment, what the strategy suggests is the block of the comment, widened. -/
theorem map_comment {occurrence : Occurrence} {old new : String}
    (h : basis.nearestComment? occurrence.line occurrence.endLine = some anchor) :
    (basis.comment old new occurrence).map
        (Option.map fun suggestion => (suggestion.oldText, suggestion.newText)) =
      basis.widen old new occurrence.range (basis.commentBlock occurrence anchor).1
        (basis.commentBlock occurrence anchor).2 := by
  rw [comment, h]
  dsimp only
  cases basis.widen old new occurrence.range (basis.commentBlock occurrence anchor).1
    (basis.commentBlock occurrence anchor).2 with
  | error fault => rfl
  | ok widened => cases widened <;> rfl

end SuggestionBasis

/-- For an occurrence that was found there is an anchor exactly if there is a comment line within
the radius above its first line or below its last one. The anchor is the nearest of them, and what
is widened is the block of the occurrence with all comment lines that follow the anchor. -/
theorem comment_block_nearest {old : String} {within : Option (List Nat)}
    {occurrences : List Occurrence} {occurrence : Occurrence}
    (hsource : basis.source = Source.ofChars chars)
    (hfound : findOccurrences basis.source basis.scopes basis.contextLines old within =
      .ok occurrences)
    (hmem : occurrence ∈ occurrences) (new : String) :
    ((basis.nearestComment? occurrence.line occurrence.endLine).isSome ↔
      ∃ line, basis.isComment line = true ∧
        (line < occurrence.line ∧ occurrence.line ≤ line + basis.commentRadius ∨
          occurrence.endLine < line ∧ line ≤ occurrence.endLine + basis.commentRadius)) ∧
    (basis.nearestComment? occurrence.line occurrence.endLine = none →
      basis.comment old new occurrence = .ok none) ∧
    ∀ anchor, basis.nearestComment? occurrence.line occurrence.endLine = some anchor →
      basis.IsNearest occurrence.line occurrence.endLine anchor ∧
      ∃ lo hi, basis.commentBlock occurrence anchor = (lo, hi) ∧
        basis.IsCommentBlock occurrence.line occurrence.endLine anchor lo hi ∧
        (basis.comment old new occurrence).map
            (Option.map fun suggestion => (suggestion.oldText, suggestion.newText)) =
          basis.widen old new occurrence.range lo hi := by
  rw [hsource] at hfound
  obtain ⟨before, after, hat⟩ := isAt_of_mem_findOccurrences hfound hmem
  have hne : old.toList ≠ [] :=
    ne_nil_of_mem_matchOffsets (start_mem_matchOffsets_of_mem_findOccurrences hfound hmem)
  have hle := hat.line_le_endLine
  have hlast : occurrence.endLine ≤ basis.source.lineCount := hsource ▸ hat.endLine_le hne
  refine ⟨?_, fun hnone => ?_, fun anchor hanchor => ?_⟩
  · rw [Option.isSome_iff_ne_none, ne_eq,
      SuggestionBasis.nearestComment?_eq_none_iff hsource hle hlast]
    push Not
    refine exists_congr fun line => and_congr_right fun _ => ?_
    rw [SuggestionBasis.distance]
    omega
  · rw [SuggestionBasis.comment, hnone]
  · have hnearest := (SuggestionBasis.nearestComment?_eq_some_iff hsource hle hlast).mp hanchor
    refine ⟨hnearest, _, _, rfl, ?_, SuggestionBasis.map_comment hanchor⟩
    exact SuggestionBasis.isCommentBlock_commentBlock hle hsource hat.line_pos hlast hnearest

/-- Two assignments in Python with comments between them. -/
def commentedText : String := "x = 0\n# first\n# second\nx = 0\n"

/-- What suggestions for that text are made from. -/
def commented : SuggestionBasis :=
  { source := Source.ofString commentedText
    scopes := ⟨[]⟩
    language := some .python
    contextLines := defaultContextLines
    commentRadius := defaultCommentRadius }

/-- The second assignment is anchored on the comment right above it, and its block goes up to the
first comment. -/
theorem commented_anchored : ∃ occurrences, ∃ occurrence ∈ occurrences,
    commented.source = Source.ofChars commentedText.toList ∧
    findOccurrences commented.source commented.scopes commented.contextLines "x = 0" none =
      .ok occurrences ∧
    occurrence.line = 4 ∧ occurrence.endLine = 4 ∧
    commented.nearestComment? 4 4 = some 3 ∧ commented.IsNearest 4 4 3 ∧
    commented.IsCommentBlock 4 4 3 2 4 := by
  have hlines : (findOccurrences commented.source commented.scopes commented.contextLines "x = 0"
      none).toOption.map (·.map fun occurrence => (occurrence.line, occurrence.endLine)) =
        some [(1, 1), (4, 4)] := by
    decide +kernel
  obtain ⟨occurrences, hfound, hlines⟩ := toOption_map_eq_some_iff.mp hlines
  have hfour : (4, 4) ∈
      occurrences.map fun occurrence => (occurrence.line, occurrence.endLine) := by
    rw [hlines]
    decide
  obtain ⟨occurrence, hmem, hline⟩ := List.mem_map.mp hfour
  obtain ⟨hline, hendLine⟩ := Prod.mk.inj hline
  have hsource : commented.source = Source.ofChars commentedText.toList := rfl
  have hanchor : commented.nearestComment? 4 4 = some 3 := by decide +kernel
  obtain ⟨-, -, hcomment⟩ := comment_block_nearest hsource hfound hmem "y"
  rw [hline, hendLine] at hcomment
  obtain ⟨hnearest, lo, hi, hblock, hextent, -⟩ := hcomment 3 hanchor
  rw [SuggestionBasis.commentBlock_of_above (by omega) (by omega), hendLine] at hblock
  obtain ⟨rfl, rfl⟩ := Prod.mk.inj hblock
  have hstart : commented.commentStart 3 = 2 := by decide +kernel
  rw [hstart] at hextent
  exact ⟨occurrences, occurrence, hmem, hsource, hfound, hline, hendLine, hanchor, hnearest,
    hextent⟩

end ExactEdit
