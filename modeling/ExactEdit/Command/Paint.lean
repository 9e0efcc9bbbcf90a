/-! # Paint

Text on a terminal is set off by colour and weight. The codes stand around the text and are left
out where plain text is wanted.
-/

namespace ExactEdit

/-- Colours of text. -/
inductive Color where
  | red
  | green
  | yellow
  | cyan
  deriving DecidableEq, Repr, Inhabited

/-- The code of a colour. -/
def Color.code : Color → String
  | red => "31"
  | green => "32"
  | yellow => "33"
  | cyan => "36"

/-- How text is set off. -/
structure Paint where
  color : Option Color
  bold : Bool
  dimmed : Bool
  deriving DecidableEq, Repr, Inhabited

namespace Paint

/-- Not at all. -/
def none : Paint := ⟨.none, false, false⟩

/-- By colour. -/
def colored (color : Color) : Paint := ⟨some color, false, false⟩

/-- By colour and weight. -/
def strong (color : Color) : Paint := ⟨some color, true, false⟩

/-- By weight. -/
def heavy : Paint := ⟨.none, true, false⟩

/-- By less brightness. -/
def faint : Paint := ⟨.none, false, true⟩

/-- The codes, colour first. -/
def codes (paint : Paint) : List String :=
  (paint.color.map Color.code).toList ++ (if paint.bold then ["1"] else [])
    ++ (if paint.dimmed then ["2"] else [])

/-- A text that is set off, unless plain text is wanted. -/
def on (paint : Paint) (plain : Bool) (text : String) : String :=
  if plain || paint.codes.isEmpty then text
  else "\x1b[" ++ String.intercalate ";" paint.codes ++ "m" ++ text ++ "\x1b[0m"

end Paint

end ExactEdit
