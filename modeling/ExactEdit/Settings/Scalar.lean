import ExactEdit.Settings.Value

/-! # Scalars in settings

Words that stand for numbers and truth values. A decimal is read as the nearest double.

## Main definitions

* `Scalar.integer?` — a 64-bit integer
* `Scalar.real?` — a decimal, with a fraction or an exponent if need be
* `Scalar.ofWord` — the value of an environment variable
-/

namespace ExactEdit.Scalar

/-- Value of a digit in a base up to sixteen. -/
def digit? (base : Nat) (c : Char) : Option Nat :=
  let value :=
    if c.isDigit then c.toNat - '0'.toNat
    else if 'a' ≤ c ∧ c ≤ 'f' then c.toNat - 'a'.toNat + 10
    else if 'A' ≤ c ∧ c ≤ 'F' then c.toNat - 'A'.toNat + 10
    else base
  if value < base then some value else none

/-- Value of one or more digits in a base. -/
def digits? (base : Nat) (chars : List Char) : Option Nat :=
  if chars.isEmpty then none
  else chars.foldlM (fun value c => (digit? base c).map (base * value + ·)) 0

/-- Whether an integer fits into 64 bits. -/
def fits (value : Int) : Bool :=
  -(Nat.pow 2 63 : Int) ≤ value && value < (Nat.pow 2 63 : Int)

/-- An integer that fits into 64 bits. -/
def fitting? (value : Int) : Option Int := if fits value then some value else none

/-- Takes a sign off: whether it was a minus, and the rest. -/
def splitSign : List Char → Bool × List Char
  | '-' :: rest => (true, rest)
  | '+' :: rest => (false, rest)
  | chars => (false, chars)

/-- A number with a sign. -/
def signed (isNegative : Bool) (value : Nat) : Int := if isNegative then -(value : Int) else value

/-- A decimal integer of 64 bits. -/
def integer? (chars : List Char) : Option Int := do
  let (isNegative, digits) := splitSign chars
  fitting? (signed isNegative (← digits? 10 digits))

/-- The double nearest to `mantissa * 10 ^ exponent`. A number with more than four hundred digits
in front of the point is beyond all doubles, and one that starts so far behind it is nearer to
zero than any. -/
def nearest (mantissa : Nat) (exponent : Int) : Float :=
  let magnitude : Int := (Nat.toDigits 10 mantissa).length + exponent
  if mantissa = 0 then 0
  else if 400 < magnitude then 1 / 0
  else if magnitude < -400 then 0
  else if exponent < 0 then Float.ofScientific mantissa true exponent.natAbs
  else Float.ofScientific mantissa false exponent.natAbs

/-- The exponent behind its letter, or zero if there is none. -/
def exponent? : List Char → Option Int
  | [] => some 0
  | letter :: rest => do
    guard (letter = 'e' ∨ letter = 'E')
    let (isNegative, digits) := splitSign rest
    return signed isNegative (← digits? 10 digits)

/-- The digits behind a decimal point, and the rest. -/
def fraction : List Char → List Char × List Char
  | '.' :: rest => (rest.takeWhile Char.isDigit, rest.dropWhile Char.isDigit)
  | chars => ([], chars)

/-- A decimal without a sign. There are digits in front of the point or behind it. -/
def decimal? (chars : List Char) : Option Float := do
  let whole := chars.takeWhile Char.isDigit
  let (part, rest) := fraction (chars.dropWhile Char.isDigit)
  let mantissa ← digits? 10 (whole ++ part)
  return nearest mantissa ((← exponent? rest) - part.length)

/-- A decimal or one of the words for infinity and for no number. -/
def real? (chars : List Char) : Option Float := do
  let (isNegative, rest) := splitSign chars
  let word := (String.ofList rest).toLower
  let value ←
    if word = "inf" ∨ word = "infinity" then some (1 / 0)
    else if word = "nan" then some (0 / 0)
    else decimal? rest
  return if isNegative then -value else value

/-- The value of a word: a truth value in any case, an integer, a decimal, else the word. -/
def ofWord (word : String) : SettingValue :=
  let lower := word.toLower
  if lower = "true" then .truth true
  else if lower = "false" then .truth false
  else
    match integer? word.toList with
    | some value => .integer value
    | none =>
      match real? word.toList with
      | some value => .real value
      | none => .text word

end ExactEdit.Scalar
