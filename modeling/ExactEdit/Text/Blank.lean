/-! # Blank characters

The characters with the Unicode property `White_Space`, and trimming by that property.
-/

namespace ExactEdit.Text

/-- The property `White_Space`: five controls, the space, next line, no-break space and the
spaces and separators of the general planes. -/
def isBlank (c : Char) : Bool :=
  let code := c.toNat
  (0x9 ≤ code && code ≤ 0xD) || code == 0x20 || code == 0x85 || code == 0xA0 || code == 0x1680
    || (0x2000 ≤ code && code ≤ 0x200A) || code == 0x2028 || code == 0x2029 || code == 0x202F
    || code == 0x205F || code == 0x3000

/-- The text without its leading blanks. -/
def trimStart (chars : List Char) : List Char := chars.dropWhile isBlank

/-- The text without its trailing blanks. -/
def trimEnd (chars : List Char) : List Char := (chars.reverse.dropWhile isBlank).reverse

/-- The text without leading and trailing blanks. -/
def trim (chars : List Char) : List Char := trimEnd (trimStart chars)

/-- The leading blanks of a line. -/
def indentation (line : List Char) : List Char := line.takeWhile isBlank

/-- Whether a line has no character but blanks. -/
def isBlankLine (line : List Char) : Bool := line.all isBlank

/-- A string without leading and trailing blanks. -/
def trimmed (s : String) : String := String.ofList (trim s.toList)

end ExactEdit.Text
