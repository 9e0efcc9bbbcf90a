/-! # Content ids

The content id of a text names its exact bytes: the 64-bit xxHash of its UTF-8 form with
seed zero, as sixteen hexadecimal digits. Two texts with different ids are different, and an
editor takes a file with the id it last saw to be unchanged.

## Main definitions

* `xxHash64` — the hash of a list of bytes
* `contentId` — the written id of a string
-/

namespace ExactEdit

namespace XxHash

/-- First multiplier of the hash. -/
def prime1 : UInt64 := 0x9E3779B185EBCA87

/-- Second multiplier of the hash. -/
def prime2 : UInt64 := 0xC2B2AE3D27D4EB4F

/-- Third multiplier of the hash. -/
def prime3 : UInt64 := 0x165667B19E3779F9

/-- Fourth multiplier of the hash. -/
def prime4 : UInt64 := 0x85EBCA77C2B2AE63

/-- Fifth multiplier of the hash. -/
def prime5 : UInt64 := 0x27D4EB2F165667C5

/-- Rotates a word to the left. -/
def rotateLeft (x amount : UInt64) : UInt64 :=
  (x <<< amount) ||| (x >>> (64 - amount))

/-- The little-endian word of some bytes. -/
def word (bytes : List UInt8) : UInt64 :=
  bytes.foldr (fun byte rest => (rest <<< 8) ||| byte.toUInt64) 0

/-- Mixes one word into a lane. -/
def round (lane input : UInt64) : UInt64 :=
  rotateLeft (lane + input * prime2) 31 * prime1

/-- The four lanes that take the words of a stripe of 32 bytes in turn. -/
structure Lanes where
  a : UInt64
  b : UInt64
  c : UInt64
  d : UInt64

/-- The lanes before the first stripe. -/
def Lanes.start : Lanes := ⟨prime1 + prime2, prime2, 0, 0 - prime1⟩

/-- The lanes after one stripe. -/
def Lanes.stripe (lanes : Lanes) (bytes : List UInt8) : Lanes :=
  { a := round lanes.a (word (bytes.take 8))
    b := round lanes.b (word ((bytes.drop 8).take 8))
    c := round lanes.c (word ((bytes.drop 16).take 8))
    d := round lanes.d (word ((bytes.drop 24).take 8)) }

/-- The lanes after `count` stripes. -/
def Lanes.stripes : Nat → Lanes → List UInt8 → Lanes
  | 0, lanes, _ => lanes
  | count + 1, lanes, bytes => stripes count (lanes.stripe bytes) (bytes.drop 32)

/-- Mixes a lane into the joined hash. -/
def mergeLane (hash lane : UInt64) : UInt64 :=
  (hash ^^^ round 0 lane) * prime1 + prime4

/-- Joins the four lanes. -/
def Lanes.join (lanes : Lanes) : UInt64 :=
  let sum := rotateLeft lanes.a 1 + rotateLeft lanes.b 7 + rotateLeft lanes.c 12
    + rotateLeft lanes.d 18
  [lanes.a, lanes.b, lanes.c, lanes.d].foldl mergeLane sum

/-- Mixes in `count` words of eight bytes. -/
def mixWords : Nat → UInt64 → List UInt8 → UInt64
  | 0, hash, _ => hash
  | count + 1, hash, bytes =>
    let mixed := hash ^^^ round 0 (word (bytes.take 8))
    mixWords count (rotateLeft mixed 27 * prime1 + prime4) (bytes.drop 8)

/-- Mixes in half a word. -/
def mixHalf (hash : UInt64) (bytes : List UInt8) : UInt64 :=
  rotateLeft (hash ^^^ (word bytes * prime1)) 23 * prime2 + prime3

/-- Mixes in one byte. -/
def mixByte (hash : UInt64) (byte : UInt8) : UInt64 :=
  rotateLeft (hash ^^^ (byte.toUInt64 * prime5)) 11 * prime1

/-- Spreads the bits of the finished hash. -/
def avalanche (hash : UInt64) : UInt64 :=
  let first := (hash ^^^ (hash >>> 33)) * prime2
  let second := (first ^^^ (first >>> 29)) * prime3
  second ^^^ (second >>> 32)

end XxHash

open XxHash in
/-- The 64-bit xxHash with seed zero: whole stripes go through four lanes, the rest is mixed
in by words, a half word and bytes. -/
def xxHash64 (bytes : List UInt8) : UInt64 :=
  let size := bytes.length
  let stripes := size / 32
  let start := if stripes = 0 then prime5 else (Lanes.stripes stripes Lanes.start bytes).join
  let tail := bytes.drop (32 * stripes)
  let words := size % 32 / 8
  let mixed := mixWords words (start + UInt64.ofNat size) tail
  let rest := tail.drop (8 * words)
  if 4 ≤ rest.length then
    avalanche ((rest.drop 4).foldl mixByte (mixHalf mixed (rest.take 4)))
  else
    avalanche (rest.foldl mixByte mixed)

/-- Lower-case hexadecimal digits, filled up with zeros to `digits` places. -/
def paddedHex (digits value : Nat) : String :=
  let written := Nat.toDigits 16 value
  String.ofList (List.replicate (digits - written.length) '0' ++ written)

/-- The content id of a text. -/
def contentId (text : String) : String :=
  paddedHex 16 (xxHash64 text.toUTF8.toList).toNat

end ExactEdit
