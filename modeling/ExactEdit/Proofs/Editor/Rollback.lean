import ExactEdit.Proofs.Editor.Reachable
import ExactEdit.Proofs.Storage.Files

/-! # Batches that fail

A batch can fail before anything is changed, at any of its requests, when the file is looked at
again, and when it is written. Up to the write nothing but memory has changed, and memory is given
back by parsing the old text again. That cannot fail, because the parser has accepted this text
before and says the same of it now; so the editor is as it was, with the scopes it had, and the
files are untouched, provided that reading and failing to write leave them alone.

## Main results

* `Editor.takeBack_eq` — taking back gives the editor from before
* `Editor.planAll_eq_error_iff` — a batch is refused for its first request that has no plan
* `Editor.editAll_refused_unobservable` — nothing is left of a batch that fails, and the numbers in
  its refusal say where
-/

namespace ExactEdit

open Result

variable {σ α : Type}

/-- A refusal that says what is wrong with the file. -/
inductive Refusal.IsOfFile : Refusal → Prop
  | fileChanged (path : String) : IsOfFile (.fileChanged path)
  | io (action path message : String) : IsOfFile (.io action path message)

namespace Editor

variable {storage : Storage (StateM σ)} {files : σ → α} {editor staged edited : Editor}
variable {request : Request} {requests : List Request} {state state' : σ} {refusal : Refusal}
variable {failure : Failure} {transaction : Transaction} {index : Nat} {text expected path : String}

/-! ## Planning -/

theorem planAll_cons_of_ok {plan : Plan} {rest : List Request} (h : editor.plan request = .ok plan) :
    editor.planAll index (request :: rest) = (editor.planAll (index + 1) rest).map fun warnings =>
      plan.warnings.map (s!"operation {index}: " ++ ·) ++ warnings := by
  rw [planAll, h]
  cases editor.planAll (index + 1) rest with
  | error failure => rfl
  | ok warnings => rfl

/-- A batch is refused for its first request that has no plan. -/
theorem planAll_eq_error_iff :
    editor.planAll index requests = .error failure ↔
      ∃ before request rest cause, requests = before ++ request :: rest ∧
        (∀ earlier ∈ before, ∃ plan, editor.plan earlier = .ok plan) ∧
        editor.plan request = .error cause ∧
        failure = batchFailure (index + before.length) cause := by
  induction requests generalizing index with
  | nil => simp [planAll]
  | cons first requests ih =>
    constructor
    · intro h
      cases hfirst : editor.plan first with
      | error cause =>
        rw [planAll, hfirst] at h
        exact ⟨[], first, requests, cause, rfl, by simp, hfirst, (Except.error.inj h).symm⟩
      | ok plan =>
        rw [planAll_cons_of_ok hfirst, map_eq_error_iff] at h
        obtain ⟨before, request, rest, cause, rfl, hbefore, hcause, rfl⟩ := ih.mp h
        refine ⟨first :: before, request, rest, cause, rfl, ?_, hcause, ?_⟩
        · intro earlier hearlier
          rcases List.mem_cons.mp hearlier with rfl | hmem
          · exact ⟨plan, hfirst⟩
          · exact hbefore earlier hmem
        · rw [List.length_cons, Nat.add_assoc, Nat.add_comm 1]
    · rintro ⟨before, request, rest, cause, hcut, hbefore, hcause, rfl⟩
      cases before with
      | nil =>
        obtain ⟨rfl, -⟩ := List.cons.inj hcut
        rw [planAll, hcause]
        rfl
      | cons _ before =>
        obtain ⟨rfl, rfl⟩ := List.cons.inj hcut
        obtain ⟨plan, hfirst⟩ := hbefore _ List.mem_cons_self
        rw [planAll_cons_of_ok hfirst, map_eq_error_iff]
        refine ih.mpr ⟨before, request, rest, cause, rfl,
          fun earlier hmem => hbefore earlier (List.mem_cons_of_mem _ hmem), hcause, ?_⟩
        rw [List.length_cons, Nat.add_assoc, Nat.add_comm 1]

/-- Planning a batch refuses with the number of a request, and in no other way. -/
theorem exists_batch_of_planAll_eq_refused
    (h : editor.planAll index requests = .error (.refused refusal)) :
    ∃ number cause, refusal = .batch number cause := by
  obtain ⟨before, _, _, failure, -, -, -, hbatch⟩ := planAll_eq_error_iff.mp h
  cases failure with
  | stopped fault => cases hbatch
  | refused cause => exact ⟨index + before.length, cause, Failure.refused.inj hbatch⟩

theorem exists_planAll_eq_ok_iff :
    (∃ warnings, editor.planAll index requests = .ok warnings) ↔
      ∀ request ∈ requests, ∃ plan, editor.plan request = .ok plan := by
  induction requests generalizing index with
  | nil => simp [planAll]
  | cons first requests ih =>
    rw [List.forall_mem_cons, ← @ih (index + 1)]
    constructor
    · rintro ⟨warnings, h⟩
      cases hfirst : editor.plan first with
      | error cause =>
        rw [planAll, hfirst] at h
        cases h
      | ok plan =>
        rw [planAll_cons_of_ok hfirst, map_eq_ok_iff] at h
        obtain ⟨rest, hrest, -⟩ := h
        exact ⟨⟨plan, rfl⟩, rest, hrest⟩
    · rintro ⟨⟨plan, hfirst⟩, rest, hrest⟩
      rw [planAll_cons_of_ok hfirst, hrest]
      exact ⟨_, rfl⟩

/-! ## Taking back -/

/-- Taking back gives the editor from before: its text is parsed to the scopes it had. -/
theorem takeBack_eq (hparsed : editor.IsParsed)
    (hsame : (editor.inPhase .applying).SameButText staged)
    (hsnapshot : transaction.snapshot = editor.source.chars) :
    staged.takeBack transaction index refusal =
      (.error (.refused refusal), editor.inPhase .rejected) := by
  -- The same parser is asked about the same text as before.
  have hrestage : staged.restage transaction.rollback =
      .ok { staged with source := editor.source, scopes := editor.scopes } := by
    refine restage_eq_ok_iff.mpr ⟨editor.scopes, ?_, ?_⟩
    · rw [Transaction.rollback, hsnapshot, ← hparsed.source_eq, hsame.parser_eq,
        hsame.language_eq]
      exact hparsed.scopes_eq
    · rw [Transaction.rollback, hsnapshot, ← hparsed.source_eq]
  rw [takeBack, hrestage]
  rw [SameButText] at hsame
  rw [hsame]
  rfl

/-! ## Writing -/

theorem files_of_checkUnchanged (hstorage : storage.KeepsFiles files) :
    files (editor.checkUnchanged storage path expected state).2 = files state := by
  rw [checkUnchanged_run]
  split
  · have hread := hstorage.read path state
    split
    · next hfailed => rwa [hfailed] at hread
    · next honDisk => rwa [honDisk] at hread
  · rfl

/-- A text that is not written leaves the files alone, and the refusal says what is wrong with the
file. -/
theorem of_persist_eq_error (hstorage : storage.KeepsFiles files)
    (h : editor.persist storage text expected state = (.error refusal, state')) :
    files state' = files state ∧ refusal.IsOfFile := by
  rw [persist_run] at h
  split at h
  · cases h
  · next path _ =>
    have hlooked : files (editor.checkUnchanged storage path expected state).2 = files state :=
      files_of_checkUnchanged hstorage
    rcases hcheck : editor.checkUnchanged storage path expected state with ⟨reason | _, looked⟩
    · rw [hcheck] at h hlooked
      obtain ⟨hrefusal, rfl⟩ := Prod.mk.inj h
      obtain rfl := Except.error.inj hrefusal
      refine ⟨hlooked, ?_⟩
      -- The refusal is that of reading again, or that the file is another.
      rw [checkUnchanged_run] at hcheck
      split at hcheck
      · split at hcheck
        · obtain ⟨hrefusal, -⟩ := Prod.mk.inj hcheck
          obtain rfl := Except.error.inj hrefusal
          exact .io _ _ _
        · obtain ⟨hrefusal, -⟩ := Prod.mk.inj hcheck
          split at hrefusal
          · cases hrefusal
          · obtain rfl := Except.error.inj hrefusal
            exact .fileChanged _
      · cases hcheck
    · rw [hcheck] at h hlooked
      simp only at h
      split at h
      · next error written hwrite =>
        obtain ⟨hrefusal, rfl⟩ := Prod.mk.inj h
        obtain rfl := Except.error.inj hrefusal
        exact ⟨(hstorage.failedWrite _ _ _ _ _ hwrite).trans hlooked, .io _ _ _⟩
      · cases h

/-! ## Batches -/

/-- Where a batch was refused: before anything was looked at, at the plan of a request, at making
one in memory, or at the file. -/
inductive RefusedAt (editor : Editor) (requests : List Request) : Refusal → Prop
  | start (empty : requests = []) : RefusedAt editor requests (.input .emptyBatch)
  | planning {refusal : Refusal} (planned : editor.planAll 1 requests = .error (.refused refusal)) :
      RefusedAt editor requests refusal
  | staging {staged : Editor} {index : Nat} {cause : Refusal}
      (planned : ∃ warnings, editor.planAll 1 requests = .ok warnings)
      (broken : stageAll (editor.inPhase .applying)
        (Transaction.start editor.source editor.contentId) 1 requests =
          .broken staged index (.refused cause)) :
      RefusedAt editor requests (.transaction index cause.message)
  | writing {staged : Editor} {finished : Transaction} {refusal : Refusal}
      (planned : ∃ warnings, editor.planAll 1 requests = .ok warnings)
      (done : stageAll (editor.inPhase .applying)
        (Transaction.start editor.source editor.contentId) 1 requests = .done staged finished)
      (file : refusal.IsOfFile) :
      RefusedAt editor requests refusal

theorem refused_inj {refusal' : Refusal}
    (h : (((.error (.refused refusal), editor), state) : (Except Failure BatchReport × Editor) × σ) =
      ((.error (.refused refusal'), edited), state')) :
    refusal = refusal' ∧ editor = edited ∧ state = state' := by
  obtain ⟨hresult, hstate⟩ := Prod.mk.inj h
  obtain ⟨hrefusal, hedited⟩ := Prod.mk.inj hresult
  exact ⟨Failure.refused.inj (Except.error.inj hrefusal), hedited, hstate⟩

/-- A refused batch leaves the editor and the files as they were, wherever it was refused. -/
theorem refusedAt_of_editAll_eq_error (hstorage : storage.KeepsFiles files)
    (hparsed : editor.IsParsed)
    (h : editor.editAll storage requests state = ((.error (.refused refusal), edited), state')) :
    edited = editor.inPhase edited.phase ∧ files state' = files state ∧
      RefusedAt editor requests refusal := by
  rw [editAll_run] at h
  split at h
  · next hempty =>
    obtain ⟨rfl, rfl, rfl⟩ := refused_inj h
    exact ⟨rfl, rfl, .start (List.isEmpty_iff.mp hempty)⟩
  · split at h
    · cases h
    · next planned hplanned =>
      obtain ⟨rfl, rfl, rfl⟩ := refused_inj h
      exact ⟨rfl, rfl, .planning hplanned⟩
    · next warnings hplanned =>
      split at h
      · cases h
      · next staged index cause hbroken =>
        have hsame := (kept_of_stageAll_eq_broken (hparsed.inPhase .applying) hbroken).2
        rw [takeBack_eq hparsed hsame rfl] at h
        obtain ⟨rfl, rfl, rfl⟩ := refused_inj h
        exact ⟨rfl, rfl, .staging ⟨warnings, hplanned⟩ hbroken⟩
      · next staged finished hdone =>
        split at h
        · next reason written hpersist =>
          rw [takeBack_eq hparsed (sameButText_of_stageAll_eq_done hdone)
            (snapshot_of_stageAll_eq_done hdone).1] at h
          obtain ⟨rfl, rfl, rfl⟩ := refused_inj h
          obtain ⟨hfiles, hfile⟩ := of_persist_eq_error hstorage hpersist
          exact ⟨rfl, hfiles, .writing ⟨warnings, hplanned⟩ hdone hfile⟩
        · cases h

/-- A refusal with the number of a request says that this is the first one that has no plan. -/
theorem RefusedAt.eq_batch_iff {cause : Refusal} (h : RefusedAt editor requests refusal) :
    refusal = .batch index cause ↔ ∃ before request rest,
      requests = before ++ request :: rest ∧ index = before.length + 1 ∧
      (∀ earlier ∈ before, ∃ plan, editor.plan earlier = .ok plan) ∧
      editor.plan request = .error (.refused cause) := by
  constructor
  · rintro rfl
    cases h with
    | planning planned =>
      obtain ⟨before, request, rest, failure, hcut, hbefore, hfails, hbatch⟩ :=
        planAll_eq_error_iff.mp planned
      cases failure with
      | stopped fault => cases hbatch
      | refused reason =>
        obtain ⟨rfl, rfl⟩ := Refusal.batch.inj (Failure.refused.inj hbatch)
        exact ⟨before, request, rest, hcut, Nat.add_comm _ _, hbefore, hfails⟩
    | writing _ _ file => cases file
  · rintro ⟨before, request, rest, rfl, rfl, hbefore, hfails⟩
    -- Planning ends the batch before anything is staged.
    have hplanned : editor.planAll 1 (before ++ request :: rest) =
        .error (.refused (.batch (1 + before.length) cause)) :=
      planAll_eq_error_iff.mpr ⟨before, request, rest, .refused cause, rfl, hbefore, hfails, rfl⟩
    cases h with
    | start empty => simp at empty
    | planning planned =>
      rw [hplanned] at planned
      rw [← Failure.refused.inj (Except.error.inj planned), Nat.add_comm]
    | staging planned =>
      obtain ⟨_, planned⟩ := planned
      rw [hplanned] at planned
      cases planned
    | writing planned =>
      obtain ⟨_, planned⟩ := planned
      rw [hplanned] at planned
      cases planned

/-- A transaction that was taken back at a request says that all requests have plans, and that this
is the first one that has no place in the text as it is then, or whose result cannot be parsed. -/
theorem RefusedAt.eq_transaction_iff {reason : String} (h : RefusedAt editor requests refusal) :
    refusal = .transaction index reason ↔
      (∀ request ∈ requests, ∃ plan, editor.plan request = .ok plan) ∧
      ∃ before request rest staged recorded cause,
        requests = before ++ request :: rest ∧ index = before.length + 1 ∧
        stageAll (editor.inPhase .applying) (Transaction.start editor.source editor.contentId) 1
          before = .done staged recorded ∧
        (staged.locate request = .error (.refused cause) ∨
          ∃ range, staged.locate request = .ok range ∧
            scopesOf editor.parser editor.language
              (Source.ofChars (staged.splice range request.newText)) = .error cause) ∧
        reason = cause.message := by
  constructor
  · rintro rfl
    cases h with
    | planning planned =>
      obtain ⟨_, _, hbatch⟩ := exists_batch_of_planAll_eq_refused planned
      cases hbatch
    | @staging staged _ cause planned broken =>
      obtain ⟨before, request, rest, recorded, hcut, hindex, hdone, hfails⟩ :=
        stageAll_eq_broken_iff.mp broken
      have hsame := sameButText_of_stageAll_eq_done hdone
      have hfails := stage_eq_refused_iff.mp hfails
      rw [hsame.parser_eq, hsame.language_eq] at hfails
      exact ⟨exists_planAll_eq_ok_iff.mp planned, before, request, rest, staged, recorded, cause,
        hcut, by omega, hdone, hfails, rfl⟩
    | writing _ _ file => cases file
  · rintro ⟨hplans, before, request, rest, staged, recorded, cause, rfl, rfl, hdone, hfails, rfl⟩
    -- A batch ends in one way, and these requests tell in which.
    obtain ⟨warnings, hplanned⟩ : ∃ warnings,
        editor.planAll 1 (before ++ request :: rest) = .ok warnings :=
      exists_planAll_eq_ok_iff.mpr hplans
    have hsame := sameButText_of_stageAll_eq_done hdone
    have hstage : staged.stage request = .error (.refused cause) := by
      rw [stage_eq_refused_iff, hsame.parser_eq, hsame.language_eq]
      exact hfails
    have hbroken := stageAll_eq_broken_iff.mpr
      ⟨before, request, rest, recorded, rfl, rfl, hdone, hstage⟩
    cases h with
    | start empty => simp at empty
    | planning planned =>
      rw [hplanned] at planned
      cases planned
    | staging _ broken =>
      rw [hbroken] at broken
      obtain ⟨-, rfl, hcause⟩ := Staging.broken.inj broken
      obtain rfl := Failure.refused.inj hcause
      rw [Nat.add_comm]
    | writing _ done =>
      rw [hbroken] at done
      cases done

/-- A batch that fails is not to be seen. The editor has the text, the scopes and the content id
from before, and all else but its phase; the files are as they were; taking back does not fail. The
number in a refusal is that of the first request without a plan, or that of the first request that
has no place in the text made so far or whose result cannot be parsed. -/
theorem editAll_refused_unobservable (hstorage : storage.KeepsFiles files)
    (hreachable : editor.Reachable)
    (h : editor.editAll storage requests state = ((.error (.refused refusal), edited), state')) :
    (edited.source = editor.source ∧ edited.scopes = editor.scopes ∧
      edited.contentId = editor.contentId ∧ edited = editor.inPhase edited.phase) ∧
    files state' = files state ∧
    (∀ number reason, refusal ≠ .rollbackFailed number reason) ∧
    (∀ number cause, refusal = .batch number cause ↔ ∃ before request rest,
      requests = before ++ request :: rest ∧ number = before.length + 1 ∧
      (∀ earlier ∈ before, ∃ plan, editor.plan earlier = .ok plan) ∧
      editor.plan request = .error (.refused cause)) ∧
    ∀ number reason, refusal = .transaction number reason ↔
      (∀ request ∈ requests, ∃ plan, editor.plan request = .ok plan) ∧
      ∃ before request rest staged recorded cause,
        requests = before ++ request :: rest ∧ number = before.length + 1 ∧
        stageAll (editor.inPhase .applying) (Transaction.start editor.source editor.contentId) 1
          before = .done staged recorded ∧
        (staged.locate request = .error (.refused cause) ∨
          ∃ range, staged.locate request = .ok range ∧
            scopesOf editor.parser editor.language
              (Source.ofChars (staged.splice range request.newText)) = .error cause) ∧
        reason = cause.message := by
  obtain ⟨hedited, hfiles, hwhere⟩ :=
    refusedAt_of_editAll_eq_error hstorage hreachable.isParsed h
  refine ⟨⟨by rw [hedited]; rfl, by rw [hedited]; rfl, by rw [hedited]; rfl, hedited⟩, hfiles, ?_,
    fun _ _ => hwhere.eq_batch_iff, fun _ _ => hwhere.eq_transaction_iff⟩
  rintro number reason rfl
  cases hwhere with
  | planning planned =>
    obtain ⟨_, _, hbatch⟩ := exists_batch_of_planAll_eq_refused planned
    cases hbatch
  | writing _ _ file => cases file

/-- Both words are replaced by one, and then the second is not there any more. -/
def wordsThenWord : List Request := [⟨"a b", "c", .default⟩, ⟨"b", "d", .default⟩]

/-- A batch that is taken back at its second request. -/
theorem twoWords_taken_back : Disk.storage.KeepsFiles (id : Disk → Disk) ∧ twoWords.Reachable ∧
    ∃ refusal edited disk, twoWords.editAll Disk.storage wordsThenWord Disk.empty =
        ((.error (.refused refusal), edited), disk) ∧
      refusal.category = .transaction ∧ edited.source = twoWords.source ∧ disk = Disk.empty := by
  have hrun : (match (twoWords.editAll Disk.storage wordsThenWord Disk.empty).1.1 with
    | .ok _ => false
    | .error (.stopped _) => false
    | .error (.refused refusal) => refusal.category == .transaction) = true := by
    decide +kernel
  rcases hresult : twoWords.editAll Disk.storage wordsThenWord Disk.empty with
    ⟨⟨(refusal | fault) | report, edited⟩, disk⟩
  · obtain ⟨⟨hsource, -⟩, hfiles, -⟩ :=
      editAll_refused_unobservable Disk.keepsFiles_storage twoWords_reachable hresult
    rw [hresult] at hrun
    exact ⟨Disk.keepsFiles_storage, twoWords_reachable, refusal, edited, disk, rfl,
      beq_iff_eq.mp hrun, hsource, hfiles⟩
  · rw [hresult] at hrun
    cases hrun
  · rw [hresult] at hrun
    cases hrun

end Editor

end ExactEdit
