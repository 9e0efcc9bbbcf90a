import ExactEdit.Text.Offset

/-! # Literal search

A search text is never a pattern: a match is an exact run of characters. Matches are taken
from the left, and the next one is looked for behind the end of the last, so they never
overlap. Since UTF-8 is self-synchronising, matching characters and matching bytes find
the same places.
-/

namespace ExactEdit.Text

/-- Matches of `pattern` in the text that starts at byte `offset`. After a match the scan
goes on behind it, else one character further. -/
def matchesFrom (pattern : List Char) (offset : Nat) : List Char → List Nat
  | [] => []
  | c :: rest =>
    if pattern.isPrefixOf (c :: rest) then
      offset :: matchesFrom pattern (offset + width pattern) (rest.drop (pattern.length - 1))
    else
      matchesFrom pattern (offset + c.utf8Size) rest
termination_by chars => chars.length
decreasing_by
  · simp only [List.length_drop, List.length_cons]; omega
  · simp

/-- Byte offsets of the leftmost non-overlapping matches; an empty pattern has none. -/
def matchOffsets (pattern chars : List Char) : List Nat :=
  if pattern.isEmpty then [] else matchesFrom pattern 0 chars

/-- Number of leftmost non-overlapping matches. -/
def matchCount (pattern chars : List Char) : Nat :=
  (matchOffsets pattern chars).length

/-- Whether `pattern` stands anywhere in the text. -/
def holds (pattern : List Char) : List Char → Bool
  | [] => pattern.isEmpty
  | c :: rest => pattern.isPrefixOf (c :: rest) || holds pattern rest

end ExactEdit.Text
