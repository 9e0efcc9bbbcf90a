import ExactEdit.Text.Line
import ExactEdit.Text.Quoted

/-! # Indentation check

The lines of the old and the new text are compared in pairs. A pair of lines that both have
text must start with the same blanks; nothing is indented anew.
-/

namespace ExactEdit

/-- What is said of the pair of lines with this index, if their indentations differ. -/
def indentationIssue? (index : Nat) (old new : List Char) : Option String :=
  let before := Text.indentation old
  let after := Text.indentation new
  if Text.isBlankLine old || Text.isBlankLine new || before == after then none
  else
    let place := index + 1
    some (s!"line {place} of the edit: indentation changes from " ++ Text.quoted before ++ " to "
      ++ Text.quoted after)

/-- The pairs of lines whose indentations differ. -/
def indentationIssues (old new : String) : List String :=
  let pairs := (Text.lines old.toList).zip (Text.lines new.toList)
  pairs.zipIdx.filterMap fun ((before, after), index) => indentationIssue? index before after

end ExactEdit
