import ExactEdit.Fault
import ExactEdit.Source.LineIndex
import ExactEdit.Source.Position

/-! # Source texts

A source is a text together with its line index. It translates between byte offsets and
positions, and gives the text of lines.

## Main definitions

* `Source` — a text and its line index
* `Source.lineSpan`, `Source.lines`, `Source.line` — bytes and text of lines
* `Source.offsetOf`, `Source.positionOf` — from position to offset and back
* `SourceFailure` — a coordinate that names no place, or a stop
* `Source.window` — the lines around a run of lines
-/

namespace ExactEdit

/-- A text and the index of its lines. -/
structure Source where
  chars : List Char
  index : LineIndex
  deriving DecidableEq, Repr, Inhabited

namespace Source

/-- A text with its index. -/
def ofChars (chars : List Char) : Source := ⟨chars, LineIndex.ofChars chars⟩

/-- A string with its index. -/
def ofString (s : String) : Source := ofChars s.toList

/-- The text of a source. -/
def text (source : Source) : String := String.ofList source.chars

/-- Size of the text in bytes. -/
def size (source : Source) : Nat := source.index.size

/-- Whether the text has no bytes. -/
def isEmpty (source : Source) : Bool := source.size == 0

/-- Number of lines. -/
def lineCount (source : Source) : Nat := source.index.lineCount

/-- Bytes of the lines `first` to `last` without the terminator of the last. -/
def lineSpan (source : Source) (first last : Nat) : Except PositionError ByteRange :=
  let total := source.lineCount
  if first = 0 ∨ total < first then .error (.lineOutOfBounds first total)
  else if last = 0 ∨ total < last then .error (.lineOutOfBounds last total)
  else if last < first then .error (.lineOutOfBounds first total)
  else
    match source.index.byteRange? source.chars first last with
    | some range => .ok range
    | none => .error (.lineOutOfBounds last total)

/-- Text of the lines `first` to `last` with the terminators between them. -/
def lines (source : Source) (first last : Nat) : Except PositionError (List Char) :=
  (source.lineSpan first last).map fun span => Text.slice span source.chars

/-- Content of one line. -/
def line (source : Source) (number : Nat) : Except PositionError (List Char) :=
  source.lines number number

/-- Byte offset of a position. The column behind the last character is the end of the
line's content. -/
def offsetOf (source : Source) (position : Position) : Except PositionError Nat := do
  let span ← source.lineSpan position.line position.line
  let content := Text.slice span source.chars
  if position.column = 0 ∨ content.length + 1 < position.column then
    .error (.columnOutOfBounds position.line position.column content.length)
  else
    .ok (span.start + Text.width (content.take (position.column - 1)))

/-- The line that a byte lies on. -/
def lineOfOffset (source : Source) (offset : Nat) : Except PositionError Nat :=
  match source.index.lineOfOffset? offset with
  | some line => .ok line
  | none => .error (.offsetOutOfBounds offset source.size)

/-- The position of a byte offset. -/
def positionOf (source : Source) (offset : Nat) : Except PositionError Position :=
  if source.size < offset ∨ source.size = 0 then .error (.offsetOutOfBounds offset source.size)
  else if Text.isBoundary offset source.chars then do
    let line ← source.lineOfOffset offset
    match source.index.startOfLine? line with
    | some start => .ok ⟨line, (Text.slice ⟨start, offset⟩ source.chars).length + 1⟩
    | none => .error (.offsetOutOfBounds offset source.size)
  else .error (.notCharBoundary offset)

end Source

/-- How a look-up in a source ends without an answer. -/
inductive SourceFailure where
  /-- A coordinate names no place. -/
  | position (error : PositionError)
  /-- The program stopped. -/
  | stopped (fault : Fault)
  deriving DecidableEq, Repr, Inhabited

/-- The lines `line` to `endLine` with up to `radius` lines on both sides. Above, the subtraction
stops at the first line. Below, the program adds before it clips, and stops if the sum is no word;
a release shows the lines up to the sum modulo 2^64 instead, or refuses line 0. -/
def Source.window (source : Source) (line endLine radius : Nat) :
    Except SourceFailure (List Char) := do
  let last ← (checkedSum endLine radius).mapError .stopped
  (source.lines (max (line - radius) 1) (min last source.lineCount)).mapError .position

end ExactEdit
