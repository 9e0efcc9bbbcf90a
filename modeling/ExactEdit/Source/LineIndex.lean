import ExactEdit.Text.Offset

/-! # Line index

The line index of a text records where its line feeds are. Lines are numbered from one. An
empty text has no lines; any other has one more line than line feeds, so a feed at the end
opens a last, empty line. A line feed belongs to the line it ends, and the content of a line
leaves out the feed together with a carriage return before it.

## Main definitions

* `LineIndex` — the offsets of the line feeds and the size of the text
* `LineIndex.startOfLine?`, `LineIndex.endOfLine?`, `LineIndex.endWithTerminator?`
* `LineIndex.lineOfOffset?` — the line that a byte lies on
-/

namespace ExactEdit

/-- Byte offsets of the line feeds of a text, in order, and its size in bytes. -/
structure LineIndex where
  feeds : List Nat
  size : Nat
  deriving DecidableEq, Repr, Inhabited

namespace LineIndex

/-- Scans on from byte `offset`; `seen` holds the feeds found so far, last first. -/
def scan (seen : List Nat) (offset : Nat) : List Char → LineIndex
  | [] => ⟨seen.reverse, offset⟩
  | c :: rest => scan (if c = '\n' then offset :: seen else seen) (offset + c.utf8Size) rest

/-- The index of a text. -/
def ofChars (chars : List Char) : LineIndex := scan [] 0 chars

/-- Number of lines. -/
def lineCount (index : LineIndex) : Nat :=
  if index.size = 0 then 0 else index.feeds.length + 1

/-- Whether there is a line of this number. -/
def hasLine (index : LineIndex) (line : Nat) : Bool :=
  line != 0 && line ≤ index.lineCount

/-- First byte of a line. -/
def startOfLine? (index : LineIndex) (line : Nat) : Option Nat :=
  if index.hasLine line then
    if line = 1 then some 0 else index.feeds[line - 2]?.map (· + 1)
  else none

/-- End of the content of a line. The carriage return is looked up in the text itself. -/
def endOfLine? (index : LineIndex) (chars : List Char) (line : Nat) : Option Nat :=
  if index.hasLine line then
    match index.feeds[line - 1]? with
    | some feed =>
      if 0 < feed ∧ Text.charAt? (feed - 1) chars = some '\r' then some (feed - 1) else some feed
    | none => some index.size
  else none

/-- End of a line together with its terminator. -/
def endWithTerminator? (index : LineIndex) (line : Nat) : Option Nat :=
  if index.hasLine line then
    match index.feeds[line - 1]? with
    | some feed => some (feed + 1)
    | none => some index.size
  else none

/-- Bytes from the start of one line to the end of the content of another. -/
def byteRange? (index : LineIndex) (chars : List Char) (first last : Nat) : Option ByteRange :=
  if first = 0 ∨ last < first ∨ index.lineCount < last then none
  else do
    let start ← index.startOfLine? first
    let stop ← index.endOfLine? chars last
    if start ≤ stop ∧ stop ≤ index.size then some ⟨start, stop⟩ else none

/-- The line of a byte; the offset at the end of the text is on the last line. -/
def lineOfOffset? (index : LineIndex) (offset : Nat) : Option Nat :=
  if index.size = 0 ∨ index.size < offset then none
  else some (index.feeds.countP (· < offset) + 1)

end LineIndex

end ExactEdit
