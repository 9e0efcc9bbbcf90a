/-! # Balance of brackets

A replacement must be balanced on its own: no brace or parenthesis closes before it is
opened, and none stays open. Strings and comments are not told apart from code.

## Main definitions

* `Balance.scan` — net and lowest depth of a pair of delimiters
* `balanceWarnings` — what is said of an unbalanced replacement
-/

namespace ExactEdit

/-- Depth of a pair of delimiters at the end of a text, and the lowest depth on the way. -/
structure Balance where
  net : Int
  lowest : Int
  deriving DecidableEq, Repr, Inhabited

namespace Balance

/-- Depth after one more character. -/
def step (opening closing : Char) (balance : Balance) (c : Char) : Balance :=
  if c = opening then { balance with net := balance.net + 1 }
  else if c = closing then ⟨balance.net - 1, min balance.lowest (balance.net - 1)⟩
  else balance

/-- Depths over a text. -/
def scan (opening closing : Char) (chars : List Char) : Balance :=
  chars.foldl (step opening closing) ⟨0, 0⟩

end Balance

/-- What is said of one pair of delimiters. -/
def balanceWarning? (label : String) (opening closing : Char) (chars : List Char) :
    Option String :=
  let balance := Balance.scan opening closing chars
  if balance.lowest < 0 then
    some s!"unbalanced {label}: replacement closes `{closing}` before it is opened"
  else if balance.net ≠ 0 then
    let count := balance.net
    some s!"unbalanced {label}: replacement leaves {count} unclosed `{opening}`"
  else none

/-- What is said of the braces and of the parentheses of a replacement. -/
def balanceWarnings (replacement : String) : List String :=
  let chars := replacement.toList
  (balanceWarning? "braces" '\x7b' '\x7d' chars).toList
    ++ (balanceWarning? "parentheses" '(' ')' chars).toList

end ExactEdit
