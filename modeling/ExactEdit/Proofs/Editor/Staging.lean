import ExactEdit.Editor.Edit
import ExactEdit.Proofs.Result

/-! # Staging

Making a request in memory gives the editor another text with the scopes of that text, and touches
nothing else it holds. A batch is staged request by request, so staging a list is staging its first
part and then the rest, and a batch that breaks has a first request that could not be made after
all those before it were.

## Main definitions

* `Editor.IsParsed` — the index and the scopes are those of the text
* `Editor.SameButText` — editors that differ in text and scopes alone

## Main results

* `Editor.restage_eq_ok_iff`, `Editor.stage_eq_ok_iff`, `Editor.stage_eq_refused_iff` — one request
* `Editor.stageAll_append_eq_done_iff` — a list is staged part by part
* `Editor.stageAll_eq_broken_iff` — a batch breaks at its first request that cannot be made
* `Editor.isParsed_of_stageAll_eq_done`, `Editor.sameButText_of_stageAll_eq_done`,
  `Editor.kept_of_stageAll_eq_broken` — what staging keeps
-/

namespace ExactEdit.Editor

open Result

variable {editor staged other : Editor} {request : Request} {requests before rest : List Request}
variable {chars : List Char} {cause : Refusal} {failure : Failure} {index : Nat}
variable {transaction finished : Transaction}

/-- What an editor derives from its text is up to date: the line index, and the scopes that its
parser finds. -/
structure IsParsed (editor : Editor) : Prop where
  source_eq : editor.source = Source.ofChars editor.source.chars
  scopes_eq : scopesOf editor.parser editor.language editor.source = .ok editor.scopes

/-- The other editor has another text and other scopes at most. -/
def SameButText (editor other : Editor) : Prop :=
  other = { editor with source := other.source, scopes := other.scopes }

theorem SameButText.refl (editor : Editor) : editor.SameButText editor := rfl

theorem SameButText.trans (h : editor.SameButText staged) (h' : staged.SameButText other) :
    editor.SameButText other := by
  rw [SameButText] at *
  rw [h', h]

theorem SameButText.parser_eq (h : editor.SameButText other) : other.parser = editor.parser := by
  rw [h]

theorem SameButText.language_eq (h : editor.SameButText other) :
    other.language = editor.language := by
  rw [h]

theorem SameButText.path_eq (h : editor.SameButText other) : other.path = editor.path := by
  rw [h]

theorem SameButText.settings_eq (h : editor.SameButText other) :
    other.settings = editor.settings := by
  rw [h]

theorem SameButText.contentId_eq (h : editor.SameButText other) :
    other.contentId = editor.contentId := by
  rw [h]

/-! ## One request -/

/-- A text is taken over if it can be parsed. -/
theorem restage_eq_ok_iff :
    editor.restage chars = .ok staged ↔
      ∃ scopes, scopesOf editor.parser editor.language (Source.ofChars chars) = .ok scopes ∧
        staged = { editor with source := Source.ofChars chars, scopes } := by
  rw [restage, bind_eq_ok_iff]
  refine exists_congr fun scopes => and_congr_right fun _ => ?_
  exact ⟨fun h => (Except.ok.inj h).symm, fun h => h ▸ rfl⟩

theorem restage_eq_error_iff :
    editor.restage chars = .error cause ↔
      scopesOf editor.parser editor.language (Source.ofChars chars) = .error cause :=
  bind_ok_eq_error_iff

theorem isParsed_of_restage_eq_ok (h : editor.restage chars = .ok staged) : staged.IsParsed := by
  obtain ⟨scopes, hscopes, rfl⟩ := restage_eq_ok_iff.mp h
  exact ⟨rfl, hscopes⟩

theorem sameButText_of_restage_eq_ok (h : editor.restage chars = .ok staged) :
    editor.SameButText staged := by
  obtain ⟨scopes, -, rfl⟩ := restage_eq_ok_iff.mp h
  rfl

/-- A request is made at the place where it is located. -/
theorem stage_eq_ok_iff :
    editor.stage request = .ok staged ↔ ∃ range, editor.locate request = .ok range ∧
      editor.restage (editor.splice range request.newText) = .ok staged := by
  rw [stage, bind_eq_ok_iff]
  simp only [mapError_eq_ok_iff]

/-- A request cannot be made if it has no place, or if its result cannot be parsed. -/
theorem stage_eq_refused_iff :
    editor.stage request = .error (.refused cause) ↔
      editor.locate request = .error (.refused cause) ∨
      ∃ range, editor.locate request = .ok range ∧
        scopesOf editor.parser editor.language
          (Source.ofChars (editor.splice range request.newText)) = .error cause := by
  rw [stage, bind_eq_error_iff]
  simp only [mapError_eq_error_iff, restage_eq_error_iff, Failure.refused.injEq, exists_eq_right]

theorem isParsed_of_stage_eq_ok (h : editor.stage request = .ok staged) : staged.IsParsed := by
  obtain ⟨_, -, hrestage⟩ := stage_eq_ok_iff.mp h
  exact isParsed_of_restage_eq_ok hrestage

theorem sameButText_of_stage_eq_ok (h : editor.stage request = .ok staged) :
    editor.SameButText staged := by
  obtain ⟨_, -, hrestage⟩ := stage_eq_ok_iff.mp h
  exact sameButText_of_restage_eq_ok hrestage

/-! ## A list of requests -/

theorem stageAll_cons_eq_done_iff :
    stageAll editor transaction index (request :: rest) = .done staged finished ↔
      ∃ next, editor.stage request = .ok next ∧
        stageAll next transaction.record (index + 1) rest = .done staged finished := by
  rw [stageAll]
  cases editor.stage request with
  | error cause => simp
  | ok next => simp

/-- A list is staged part by part. -/
theorem stageAll_append_eq_done_iff :
    stageAll editor transaction index (before ++ rest) = .done staged finished ↔
      ∃ middle recorded, stageAll editor transaction index before = .done middle recorded ∧
        stageAll middle recorded (index + before.length) rest = .done staged finished := by
  induction before generalizing editor transaction index with
  | nil => simp [stageAll]
  | cons request before ih =>
    rw [List.cons_append, stageAll_cons_eq_done_iff]
    constructor
    · rintro ⟨next, hnext, hrest⟩
      obtain ⟨middle, recorded, hbefore, hrest⟩ := ih.mp hrest
      refine ⟨middle, recorded, stageAll_cons_eq_done_iff.mpr ⟨next, hnext, hbefore⟩, ?_⟩
      rw [List.length_cons, ← Nat.add_assoc, Nat.add_right_comm]
      exact hrest
    · rintro ⟨middle, recorded, hbefore, hrest⟩
      obtain ⟨next, hnext, hbefore⟩ := stageAll_cons_eq_done_iff.mp hbefore
      rw [List.length_cons, ← Nat.add_assoc, Nat.add_right_comm] at hrest
      exact ⟨next, hnext, ih.mpr ⟨middle, recorded, hbefore, hrest⟩⟩

/-- A batch breaks at its first request that cannot be made: those before it were. -/
theorem stageAll_eq_broken_iff {number : Nat} :
    stageAll editor transaction index requests = .broken staged number failure ↔
      ∃ before request rest recorded, requests = before ++ request :: rest ∧
        number = index + before.length ∧
        stageAll editor transaction index before = .done staged recorded ∧
        staged.stage request = .error failure := by
  -- The induction is on the requests, with the editor and the number of the first left open.
  induction requests generalizing editor transaction index with
  | nil => simp [stageAll]
  | cons first requests ih =>
    rw [stageAll]
    constructor
    · intro h
      cases hfirst : editor.stage first with
      | error refusal =>
        rw [hfirst] at h
        obtain ⟨rfl, rfl, rfl⟩ := Staging.broken.inj h
        exact ⟨[], first, requests, transaction, rfl, rfl, rfl, hfirst⟩
      | ok next =>
        rw [hfirst] at h
        obtain ⟨before, request, rest, recorded, rfl, rfl, hbefore, hcause⟩ := ih.mp h
        refine ⟨first :: before, request, rest, recorded, rfl, ?_,
          stageAll_cons_eq_done_iff.mpr ⟨next, hfirst, hbefore⟩, hcause⟩
        rw [List.length_cons]
        omega
    · rintro ⟨before, request, rest, recorded, hcut, rfl, hbefore, hcause⟩
      cases before with
      | nil =>
        obtain ⟨rfl, -⟩ := List.cons.inj hcut
        obtain ⟨rfl, -⟩ := Staging.done.inj hbefore
        rw [hcause]
        rfl
      | cons _ before =>
        obtain ⟨rfl, rfl⟩ := List.cons.inj hcut
        obtain ⟨next, hnext, hbefore⟩ := stageAll_cons_eq_done_iff.mp hbefore
        rw [hnext]
        refine ih.mpr ⟨before, request, rest, recorded, rfl, ?_, hbefore, hcause⟩
        rw [List.length_cons]
        omega

/-- Staging keeps what is derived from the text up to date. -/
theorem isParsed_of_stageAll_eq_done (hparsed : editor.IsParsed)
    (h : stageAll editor transaction index requests = .done staged finished) :
    staged.IsParsed := by
  induction requests generalizing editor transaction index with
  | nil =>
    obtain ⟨rfl, -⟩ := Staging.done.inj h
    exact hparsed
  | cons request rest ih =>
    obtain ⟨next, hnext, hrest⟩ := stageAll_cons_eq_done_iff.mp h
    exact ih (isParsed_of_stage_eq_ok hnext) hrest

/-- Staging touches nothing but the text and its scopes. -/
theorem sameButText_of_stageAll_eq_done
    (h : stageAll editor transaction index requests = .done staged finished) :
    editor.SameButText staged := by
  induction requests generalizing editor transaction index with
  | nil =>
    obtain ⟨rfl, -⟩ := Staging.done.inj h
    exact SameButText.refl _
  | cons request rest ih =>
    obtain ⟨next, hnext, hrest⟩ := stageAll_cons_eq_done_iff.mp h
    exact (sameButText_of_stage_eq_ok hnext).trans (ih hrest)

/-- A batch that breaks has come as far as the request that broke it, so the same is kept. -/
theorem kept_of_stageAll_eq_broken {number : Nat} (hparsed : editor.IsParsed)
    (h : stageAll editor transaction index requests = .broken staged number failure) :
    staged.IsParsed ∧ editor.SameButText staged := by
  obtain ⟨_, _, _, _, -, -, hdone, -⟩ := stageAll_eq_broken_iff.mp h
  exact ⟨isParsed_of_stageAll_eq_done hparsed hdone, sameButText_of_stageAll_eq_done hdone⟩

/-- A transaction keeps the content that it was started with. -/
theorem snapshot_of_stageAll_eq_done
    (h : stageAll editor transaction index requests = .done staged finished) :
    finished.snapshot = transaction.snapshot ∧ finished.contentId = transaction.contentId := by
  induction requests generalizing editor transaction index with
  | nil =>
    obtain ⟨-, rfl⟩ := Staging.done.inj h
    exact ⟨rfl, rfl⟩
  | cons request rest ih =>
    obtain ⟨next, -, hrest⟩ := stageAll_cons_eq_done_iff.mp h
    have hkept := ih hrest
    exact hkept

/-- A transaction counts the requests that were made. -/
theorem applied_of_stageAll_eq_done
    (h : stageAll editor transaction index requests = .done staged finished) :
    finished.applied = transaction.applied + requests.length := by
  induction requests generalizing editor transaction index with
  | nil =>
    obtain ⟨-, rfl⟩ := Staging.done.inj h
    rfl
  | cons request rest ih =>
    obtain ⟨next, -, hrest⟩ := stageAll_cons_eq_done_iff.mp h
    have hrecorded : transaction.record.applied = transaction.applied + 1 := rfl
    rw [ih hrest, hrecorded, List.length_cons]
    omega

/-- A transaction that is started for a batch ends with the number of its requests. -/
theorem commit_of_stageAll_eq_done
    (h : stageAll (editor.inPhase .applying) (Transaction.start editor.source editor.contentId) 1
      requests = .done staged finished) : finished.commit = requests.length := by
  rw [Transaction.commit, applied_of_stageAll_eq_done h, Transaction.start, Nat.zero_add]

end ExactEdit.Editor
