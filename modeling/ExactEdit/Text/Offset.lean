/-! # Byte offsets in a text

A text is handled as its list of characters. Positions that come from outside, or are
shown outside, are byte offsets of its UTF-8 form, so every cut of a text is described by
the number of bytes in front of it. An offset that splits no character is a *boundary*;
cutting at a boundary loses nothing, and `takeBytes` and `dropBytes` are its two sides.

## Main definitions

* `ByteRange` — a half-open run of byte offsets
* `Text.width` — the bytes a list of characters takes
* `Text.takeBytes`, `Text.dropBytes` — the text before and after an offset
* `Text.isBoundary` — whether an offset splits no character
* `Text.slice`, `Text.splice` — the text of a range, and its replacement
* `Text.slice?` — the text of a range that does not split a character
-/

namespace ExactEdit

/-- The bytes from `start` up to but not including `stop`. -/
structure ByteRange where
  start : Nat
  stop : Nat
  deriving DecidableEq, Repr, Inhabited

namespace ByteRange

/-- Number of bytes in a range. -/
def length (range : ByteRange) : Nat := range.stop - range.start

/-- Whether every byte of `inner` is one of `outer`, ends included. -/
def contains (outer inner : ByteRange) : Bool :=
  outer.start ≤ inner.start && inner.stop ≤ outer.stop

end ByteRange

namespace Text

/-- Bytes that the characters take in UTF-8. -/
def width (chars : List Char) : Nat :=
  chars.foldl (fun bytes c => bytes + c.utf8Size) 0

/-- How many leading characters fit into the first `bytes` bytes. -/
def charsWithin (bytes : Nat) (chars : List Char) : Nat :=
  go 0 bytes chars
where
  /-- Counts on from `count` characters already passed. -/
  go (count bytes : Nat) : List Char → Nat
    | [] => count
    | c :: rest => if c.utf8Size ≤ bytes then go (count + 1) (bytes - c.utf8Size) rest else count

/-- The characters that end at or before byte `offset`. -/
def takeBytes (offset : Nat) (chars : List Char) : List Char :=
  chars.take (charsWithin offset chars)

/-- The characters after those of `takeBytes`. -/
def dropBytes (offset : Nat) (chars : List Char) : List Char :=
  chars.drop (charsWithin offset chars)

/-- Whether byte `offset` lies in the text or at its end and splits no character. -/
def isBoundary (offset : Nat) (chars : List Char) : Bool :=
  width (takeBytes offset chars) == offset

/-- The character that starts at byte `offset`. -/
def charAt? (offset : Nat) (chars : List Char) : Option Char :=
  if isBoundary offset chars then (dropBytes offset chars).head? else none

/-- The characters of a byte range. -/
def slice (range : ByteRange) (chars : List Char) : List Char :=
  takeBytes range.length (dropBytes range.start chars)

/-- The characters of a byte range, if it lies in the text and cuts it between characters. -/
def slice? (range : ByteRange) (chars : List Char) : Option (List Char) :=
  if range.start ≤ range.stop && isBoundary range.start chars && isBoundary range.stop chars then
    some (slice range chars)
  else none

/-- The text with a byte range replaced. -/
def splice (range : ByteRange) (replacement chars : List Char) : List Char :=
  takeBytes range.start chars ++ (replacement ++ dropBytes range.stop chars)

theorem foldl_utf8Size (bytes : Nat) (chars : List Char) :
    chars.foldl (fun bytes c => bytes + c.utf8Size) bytes = bytes + width chars := by
  induction chars generalizing bytes with
  | nil => rfl
  | cons c rest ih =>
    have first := ih (bytes + c.utf8Size)
    have second := ih (0 + c.utf8Size)
    simp only [width, List.foldl_cons] at *
    omega

@[simp] theorem width_nil : width [] = 0 := rfl

@[simp] theorem width_cons (c : Char) (rest : List Char) :
    width (c :: rest) = c.utf8Size + width rest := by
  simpa [width] using foldl_utf8Size (0 + c.utf8Size) rest

@[simp] theorem width_append (left right : List Char) :
    width (left ++ right) = width left + width right := by
  induction left with
  | nil => simp
  | cons c rest ih => simp [ih, Nat.add_assoc]

/-- Cutting a text at any offset loses nothing. -/
theorem takeBytes_append_dropBytes (offset : Nat) (chars : List Char) :
    takeBytes offset chars ++ dropBytes offset chars = chars :=
  List.take_append_drop _ _

end Text

end ExactEdit
