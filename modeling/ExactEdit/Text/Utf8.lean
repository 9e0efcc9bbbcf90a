/-! # Decoding UTF-8

Bytes that are no UTF-8 text are refused at the first sequence that encodes no character. Such a
sequence is as long as the bytes in it could still have become one; at the end of the bytes it may
be merely incomplete. For showing, every such sequence becomes a replacement character.

## Main definitions

* `Utf8.step` — one character or one faulty sequence
* `Utf8.fault?` — the first faulty sequence
* `Utf8.decodeLossy` — the text with replacement characters
-/

namespace ExactEdit.Utf8

/-- What stands at the start of some bytes: a character of `width` bytes, or a faulty sequence,
incomplete if the bytes end in it. -/
inductive Step where
  | char (c : Char) (width : Nat)
  | fault (width : Nat) (incomplete : Bool)
  deriving Repr

/-- Whether a byte continues a sequence. -/
def isContinuation (byte : UInt8) : Bool := 0x80 ≤ byte && byte ≤ 0xBF

/-- Number of bytes of a sequence that starts with this byte; zero if none does. -/
def sequenceWidth (first : UInt8) : Nat :=
  if first < 0x80 then 1
  else if 0xC2 ≤ first && first ≤ 0xDF then 2
  else if 0xE0 ≤ first && first ≤ 0xEF then 3
  else if 0xF0 ≤ first && first ≤ 0xF4 then 4
  else 0

/-- Whether a byte may stand second after the first: this keeps out overlong forms, surrogates and
code points that are too large. -/
def maySecond (first second : UInt8) : Bool :=
  if first == 0xE0 then 0xA0 ≤ second && second ≤ 0xBF
  else if first == 0xED then 0x80 ≤ second && second ≤ 0x9F
  else if first == 0xF0 then 0x90 ≤ second && second ≤ 0xBF
  else if first == 0xF4 then 0x80 ≤ second && second ≤ 0x8F
  else isContinuation second

/-- The low bits of a byte. -/
def lowBits (byte : UInt8) (modulus : Nat) : Nat := byte.toNat % modulus

/-- The sequence of the given width that starts with `first`. -/
def stepWidth (width : Nat) (first : UInt8) (rest : List UInt8) : Step :=
  match width, rest with
  | 1, _ => .char (Char.ofNat first.toNat) 1
  | 2, second :: _ =>
    if maySecond first second then .char (Char.ofNat (lowBits first 32 * 64 + lowBits second 64)) 2
    else .fault 1 false
  | 3, second :: third :: _ =>
    if !maySecond first second then .fault 1 false
    else if !isContinuation third then .fault 2 false
    else
      .char (Char.ofNat ((lowBits first 16 * 64 + lowBits second 64) * 64 + lowBits third 64)) 3
  | 4, second :: third :: fourth :: _ =>
    if !maySecond first second then .fault 1 false
    else if !isContinuation third then .fault 2 false
    else if !isContinuation fourth then .fault 3 false
    else
      .char
        (Char.ofNat
          (((lowBits first 8 * 64 + lowBits second 64) * 64 + lowBits third 64) * 64
            + lowBits fourth 64)) 4
  | 0, _ => .fault 1 false
  | _, [] => .fault 1 true
  | _, [second] => if maySecond first second then .fault 2 true else .fault 1 false
  | _, second :: third :: _ =>
    if !maySecond first second then .fault 1 false
    else if !isContinuation third then .fault 2 false
    else .fault 3 true

/-- The character or faulty sequence that starts with `first`. -/
def step (first : UInt8) (rest : List UInt8) : Step := stepWidth (sequenceWidth first) first rest

/-- The first sequence that encodes no character: where it starts, and how long it is unless it is
incomplete. -/
structure Fault where
  start : Nat
  width : Option Nat
  deriving DecidableEq, Repr, Inhabited

/-- The message for a reader. -/
def Fault.message (fault : Fault) : String :=
  match fault.width with
  | some width => s!"invalid utf-8 sequence of {width} bytes from index {fault.start}"
  | none => s!"incomplete utf-8 byte sequence from index {fault.start}"

/-- The first faulty sequence of the bytes from byte `offset` on. -/
def faultFrom? (offset : Nat) : List UInt8 → Option Fault
  | [] => none
  | first :: rest =>
    match step first rest with
    | .char _ width => faultFrom? (offset + width) (rest.drop (width - 1))
    | .fault width incomplete => some ⟨offset, if incomplete then none else some width⟩
termination_by bytes => bytes.length
decreasing_by simp only [List.length_drop, List.length_cons]; omega

/-- The first faulty sequence. -/
def fault? (bytes : List UInt8) : Option Fault := faultFrom? 0 bytes

/-- Decodes on behind the characters in `seen`, last first. -/
def decodeLossyFrom (seen : List Char) : List UInt8 → List Char
  | [] => seen.reverse
  | first :: rest =>
    match step first rest with
    | .char c width => decodeLossyFrom (c :: seen) (rest.drop (width - 1))
    | .fault width _ => decodeLossyFrom ('\uFFFD' :: seen) (rest.drop (width - 1))
termination_by bytes => bytes.length
decreasing_by all_goals simp only [List.length_drop, List.length_cons]; omega

/-- The text with a replacement character for every faulty sequence. -/
def decodeLossy (bytes : ByteArray) : String :=
  match String.fromUTF8? bytes with
  | some text => text
  | none => String.ofList (decodeLossyFrom [] bytes.toList)

end ExactEdit.Utf8
