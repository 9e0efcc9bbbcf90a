import ExactEdit.Proofs.Editor.Plan
import ExactEdit.Proofs.Editor.Saving
import ExactEdit.Proofs.Text.Together
import ExactEdit.Storage.Disk
import Mathlib.Data.List.Induction

/-! # Where the requests of a batch land

The requests of a batch are planned against the text as it is, each on its own, and then made one
after the other. Making a request does not go to the place that was planned: it searches the text
made so far, and takes the first place there that the constraint allows. Between planning and
making, the requests before it may have brought in another copy of its old text, or other scopes.

A batch lands as it was planned exactly if, in the text with the ranges of the requests before it
replaced, the first place of each request is the one that its planned range was moved to. A batch
of requests without filters, listed from the back of the text to its front, always does.

## Main definitions

* `Editor.firstPlace?` — the first place in a text that a request may take
* `Editor.exchangeOf` — what a planned request is to replace
* `Editor.LandsAsPlanned` — a request lands where its planned range was moved to

## Main results

* `Editor.firstPlace?_of_locate` — making a request takes its first place
* `Editor.chars_of_stageAll` — the text made so far, as long as all requests land as planned
* `Editor.editAll_lands_iff` — when a batch lands as planned
* `Editor.editAll_back_to_front` — a batch from back to front does
-/

namespace ExactEdit.Editor

open Text Result

variable {σ : Type} {storage : Storage (StateM σ)} {editor staged edited : Editor}
variable {request : Request} {range : ByteRange} {plan : Plan} {chars : List Char}
variable {exchanges : List Exchange} {planned : List (Request × Plan)} {state state' : σ}
variable {report : BatchReport} {transaction recorded : Transaction} {index : Nat}

/-! ## The first place -/

/-- The first place in a text that a request may take: the first match of its old text on lines
that the scopes of this text allow. -/
def firstPlace? (parser : Parser) (language : Option Language) (request : Request)
    (chars : List Char) : Option Nat :=
  match scopesOf parser language (Source.ofChars chars) with
  | .error _ => none
  | .ok scopes =>
    match scopes.resolve request.constraint with
    | .error _ => none
    | .ok within =>
      ((matchOffsets request.oldText.toList chars).filter
        (allowsMatch scopes within request.oldText.toList chars)).head?

theorem of_locate_eq_ok (h : editor.locate request = .ok range) :
    ∃ within occurrences target, editor.scopes.resolve request.constraint = .ok within ∧
      findOccurrences editor.source editor.scopes editor.settings.contextLines request.oldText
        within = .ok occurrences ∧ occurrences.head? = some target ∧ range = target.range := by
  rw [locate] at h
  obtain ⟨occurrences, hfind, h⟩ := bind_eq_ok_iff.mp h
  obtain ⟨-, within, hwithin, hfound⟩ := find_eq_ok_iff.mp hfind
  cases occurrences with
  | nil => cases h
  | cons target rest =>
    exact ⟨within, target :: rest, target, hwithin, hfound, rfl, (Except.ok.inj h).symm⟩

/-- Making a request takes its first place. -/
theorem firstPlace?_of_locate (hparsed : editor.IsParsed) (h : editor.locate request = .ok range) :
    firstPlace? editor.parser editor.language request editor.source.chars = some range.start ∧
      StandsAt request.oldText.toList range.start editor.source.chars ∧
      range = ⟨range.start, range.start + width request.oldText.toList⟩ := by
  obtain ⟨within, occurrences, target, hwithin, hfound, hfirst, rfl⟩ := of_locate_eq_ok h
  have hscopes := hparsed.scopes_eq
  rw [hparsed.source_eq] at hfound hscopes
  obtain ⟨_, _, hat⟩ := isAt_of_mem_findOccurrences hfound (List.mem_of_head? hfirst)
  refine ⟨?_, hat.standsAt, by rw [← hat.stop_eq]⟩
  rw [firstPlace?, hscopes]
  simp only [hwithin]
  rw [← starts_of_findOccurrences hfound, List.head?_map, hfirst]
  rfl

/-! ## Requests that land as planned -/

/-- What a planned request is to replace. -/
def exchangeOf (planned : Request × Plan) : Exchange :=
  ⟨planned.2.range, planned.1.newText.toList⟩

/-- Plans whose ranges are apart spare each other. -/
theorem spares_of_planned {before rest : List (Request × Plan)} {next : Request × Plan}
    (hsource : editor.source = Source.ofChars chars)
    (hplanned : ∀ p ∈ before ++ next :: rest, editor.plan p.1 = .ok p.2)
    (hapart : (before ++ next :: rest).Pairwise fun p q => p.2.range.Apart q.2.range) :
    Spares (before.map exchangeOf) next.2.range.start next.2.range.stop := by
  intro exchange hmem
  obtain ⟨p, hp, rfl⟩ := List.mem_map.mp hmem
  have hplan := hplanned p (List.mem_append_left _ hp)
  obtain ⟨-, hstop⟩ := standsAt_of_plan_eq_ok hsource hplan
  have hpos := width_pos_of_ne_nil (oldText_ne_nil_of_plan_eq_ok hsource hplan)
  refine ⟨?_, (List.pairwise_append.mp hapart).2.2 p hp next List.mem_cons_self⟩
  simp only [exchangeOf]
  omega

theorem chars_of_stage_eq_ok (h : editor.stage request = .ok staged) :
    ∃ range, editor.locate request = .ok range ∧
      staged.source.chars = Text.splice range request.newText.toList editor.source.chars := by
  obtain ⟨range, hlocate, hrestage⟩ := stage_eq_ok_iff.mp h
  obtain ⟨scopes, -, rfl⟩ := restage_eq_ok_iff.mp hrestage
  exact ⟨range, hlocate, rfl⟩

/-- The text made so far, as long as every request lands where its planned range was moved to. -/
theorem chars_of_stageAll (hparsed : editor.IsParsed)
    (hplanned : ∀ p ∈ planned, editor.plan p.1 = .ok p.2)
    (hapart : planned.Pairwise fun p q => p.2.range.Apart q.2.range)
    (hlands : ∀ before next rest, planned = before ++ next :: rest → ∀ staged recorded,
      stageAll (editor.inPhase .applying) transaction index (before.map (·.1)) =
        .done staged recorded →
      staged.source.chars = replaceTogether (before.map exchangeOf) editor.source.chars →
      ∀ range, staged.locate next.1 = .ok range →
        range.start =
          movedTo (before.map exchangeOf) editor.source.chars next.2.range.start)
    {before rest : List (Request × Plan)} (hcut : planned = before ++ rest)
    (hdone : stageAll (editor.inPhase .applying) transaction index (before.map (·.1)) =
      .done staged recorded) :
    staged.source.chars = replaceTogether (before.map exchangeOf) editor.source.chars := by
  -- The induction takes the last of the requests made: it was located in the text that those
  -- before it left, of which the hypothesis speaks.
  induction before using List.reverseRecOn generalizing rest staged recorded with
  | nil =>
    obtain ⟨rfl, -⟩ := Staging.done.inj hdone
    exact (replaceFrom_nil 0 _).symm
  | append_singleton before next ih =>
    rw [List.map_append] at hdone
    obtain ⟨middle, between, hbefore, hnext⟩ := stageAll_append_eq_done_iff.mp hdone
    obtain ⟨after, hstage, hnil⟩ := stageAll_cons_eq_done_iff.mp hnext
    obtain ⟨rfl, -⟩ := Staging.done.inj hnil
    have hcut' : planned = before ++ next :: rest := by simpa using hcut
    have hmiddle := ih hcut' hbefore
    obtain ⟨range, hlocate, hspliced⟩ := chars_of_stage_eq_ok hstage
    have hstart := hlands before next rest hcut' middle between hbefore hmiddle range hlocate
    have hmiddleParsed := isParsed_of_stageAll_eq_done (hparsed.inPhase _) hbefore
    obtain ⟨-, -, hrange⟩ := firstPlace?_of_locate hmiddleParsed hlocate
    subst hcut'
    have hplan := hplanned next (by simp)
    have hstands : StandsAt next.1.oldText.toList (exchangeOf next).range.start
        editor.source.chars := (standsAt_of_plan_eq_ok hparsed.source_eq hplan).1
    rw [hspliced, hmiddle, hrange, hstart, List.map_append]
    exact splice_movedTo (oldText_ne_nil_of_plan_eq_ok hparsed.source_eq hplan) hstands
      (standsAt_of_plan_eq_ok hparsed.source_eq hplan).2
      (spares_of_planned hparsed.source_eq hplanned hapart)

/-! ## Batches -/

/-- A batch that is made is staged to its end, and the text staged is that of the editor. -/
theorem of_editAll_eq_ok {requests : List Request}
    (h : editor.editAll storage requests state = ((.ok report, edited), state')) :
    ∃ staged finished, stageAll (editor.inPhase .applying)
        (Transaction.start editor.source editor.contentId) 1 requests = .done staged finished ∧
      edited.source = staged.source := by
  obtain ⟨_, staged, finished, _, -, -, hdone, -, rfl, -⟩ := editAll_eq_ok_iff.mp h
  exact ⟨staged, finished, hdone, rfl⟩

/-- Where the requests of a batch land: the text before the next request is staged, and the place
of that request in it is the one that its planned range was moved to. -/
def LandsAsPlanned (editor : Editor) (before : List (Request × Plan)) (next : Request × Plan) :
    Prop :=
  ∃ staged recorded, stageAll (editor.inPhase .applying)
      (Transaction.start editor.source editor.contentId) 1 (before.map (·.1)) =
        .done staged recorded ∧
    staged.locate next.1 = .ok
      ⟨movedTo (before.map exchangeOf) editor.source.chars next.2.range.start,
        movedTo (before.map exchangeOf) editor.source.chars next.2.range.start +
          width next.1.oldText.toList⟩

/-- The place of a request in the text staged is its first place there. -/
theorem firstPlace?_of_stageAll (hparsed : editor.IsParsed) {requests : List Request}
    (hdone : stageAll (editor.inPhase .applying) transaction index requests = .done staged recorded)
    (hlocate : staged.locate request = .ok range) :
    firstPlace? editor.parser editor.language request staged.source.chars = some range.start ∧
      range = ⟨range.start, range.start + width request.oldText.toList⟩ := by
  have hsame := sameButText_of_stageAll_eq_done hdone
  obtain ⟨hfirst, -, hrange⟩ :=
    firstPlace?_of_locate (isParsed_of_stageAll_eq_done (hparsed.inPhase _) hdone) hlocate
  rw [hsame.parser_eq, hsame.language_eq] at hfirst
  exact ⟨hfirst, hrange⟩

/-- A batch that is made has the text with all planned ranges replaced, and every request landed
where its planned range was moved to, exactly if for every request that place is the first one that
it may take in the text with the ranges before it replaced. -/
theorem editAll_lands_iff (hreachable : editor.Reachable)
    (hplanned : ∀ p ∈ planned, editor.plan p.1 = .ok p.2)
    (hapart : planned.Pairwise fun p q => p.2.range.Apart q.2.range)
    (h : editor.editAll storage (planned.map (·.1)) state = ((.ok report, edited), state')) :
    (edited.source.chars = replaceTogether (planned.map exchangeOf) editor.source.chars ∧
      ∀ before next rest, planned = before ++ next :: rest →
        editor.LandsAsPlanned before next) ↔
    ∀ before next rest, planned = before ++ next :: rest →
      firstPlace? editor.parser editor.language next.1
          (replaceTogether (before.map exchangeOf) editor.source.chars) =
        some (movedTo (before.map exchangeOf) editor.source.chars next.2.range.start) := by
  have hparsed := hreachable.isParsed
  obtain ⟨staged, finished, hdone, hsource⟩ := of_editAll_eq_ok h
  constructor
  · rintro ⟨-, hlands⟩ before next rest hcut
    obtain ⟨middle, recorded, hbefore, hlocate⟩ := hlands before next rest hcut
    -- Staging has one outcome, so every request landed where this says.
    have hmiddle := chars_of_stageAll hparsed hplanned hapart
      (fun before' next' rest' hcut' staged' recorded' hdone' _ range hrange => by
        obtain ⟨middle', between, hmiddle', hlocate'⟩ := hlands before' next' rest' hcut'
        obtain ⟨rfl, -⟩ := Staging.done.inj (hdone'.symm.trans hmiddle')
        rw [← Except.ok.inj (hrange.symm.trans hlocate').symm]) hcut hbefore
    have hfirst := (firstPlace?_of_stageAll hparsed hbefore hlocate).1
    rw [hmiddle] at hfirst
    exact hfirst
  · intro hfirst
    -- The text before each request is known once those before it landed, so both are shown in one.
    have hchars : ∀ {before rest : List (Request × Plan)} {middle recorded},
        planned = before ++ rest →
        stageAll (editor.inPhase .applying) (Transaction.start editor.source editor.contentId) 1
          (before.map (·.1)) = .done middle recorded →
        middle.source.chars = replaceTogether (before.map exchangeOf) editor.source.chars :=
      fun hcut hbefore => chars_of_stageAll hparsed hplanned hapart
        (fun before' next' rest' hcut' staged' recorded' hdone' hsofar range hrange => by
          have hplace := (firstPlace?_of_stageAll hparsed hdone' hrange).1
          rw [hsofar, hfirst before' next' rest' hcut'] at hplace
          exact (Option.some.inj hplace).symm) hcut hbefore
    refine ⟨?_, fun before next rest hcut => ?_⟩
    · rw [hsource]
      exact hchars (List.append_nil planned).symm hdone
    · -- The whole batch was staged, so the part in front of a request and that request were.
      subst hcut
      rw [List.map_append] at hdone
      obtain ⟨middle, recorded, hbefore, hnext⟩ := stageAll_append_eq_done_iff.mp hdone
      obtain ⟨_, hstage, -⟩ := stageAll_cons_eq_done_iff.mp hnext
      obtain ⟨range, hlocate, -⟩ := stage_eq_ok_iff.mp hstage
      obtain ⟨hplace, hrange⟩ := firstPlace?_of_stageAll hparsed hbefore hlocate
      rw [hchars rfl hbefore, hfirst before next rest rfl] at hplace
      refine ⟨middle, recorded, hbefore, ?_⟩
      rw [hlocate, hrange, Option.some.inj hplace]

/-! ### A request that brings in the old text of the next

In the text `a b` both requests have one place. The first makes the text `b b`, and the second
takes the first `b`. -/

/-- The first request brings in the old text of the second. -/
def wordForWord : List Request := [⟨"a", "b", .default⟩, ⟨"b", "c", .default⟩]

theorem exists_twoWords_run :
    ∃ (planned : List (Request × Plan)) (report : BatchReport) (edited : Editor) (disk : Disk),
    planned.map (·.1) = wordForWord ∧
    (∀ p ∈ planned, p.1.constraint.requireUnique = true ∧ twoWords.plan p.1 = .ok p.2) ∧
    planned.Pairwise (fun p q => p.2.range.Apart q.2.range) ∧
    twoWords.editAll Disk.storage wordForWord Disk.empty = ((.ok report, edited), disk) ∧
    edited.source.chars = "c b".toList ∧
    replaceTogether (planned.map exchangeOf) twoWords.source.chars = "b c".toList := by
  have hfirst : (twoWords.plan ⟨"a", "b", .default⟩).toOption.map (·.range) = some ⟨0, 1⟩ := by
    decide +kernel
  have hsecond : (twoWords.plan ⟨"b", "c", .default⟩).toOption.map (·.range) = some ⟨2, 3⟩ := by
    decide +kernel
  have hmade : (twoWords.editAll Disk.storage wordForWord Disk.empty).1.1.toOption.map
      (·.editsApplied) = some 2 := by
    decide +kernel
  have hchars : (twoWords.editAll Disk.storage wordForWord Disk.empty).1.2.source.chars =
      "c b".toList := by
    decide +kernel
  obtain ⟨first, hfirst, hfirstRange⟩ := toOption_map_eq_some_iff.mp hfirst
  obtain ⟨second, hsecond, hsecondRange⟩ := toOption_map_eq_some_iff.mp hsecond
  obtain ⟨report, hreport, -⟩ := toOption_map_eq_some_iff.mp hmade
  refine ⟨[(⟨"a", "b", .default⟩, first), (⟨"b", "c", .default⟩, second)], report, _, _, rfl,
    ?_, ?_, Prod.ext (Prod.ext hreport rfl) rfl, hchars, ?_⟩
  · intro p hp
    simp only [List.mem_cons, List.not_mem_nil, or_false] at hp
    rcases hp with rfl | rfl
    · exact ⟨rfl, hfirst⟩
    · exact ⟨rfl, hsecond⟩
  · simp [ByteRange.Apart, hfirstRange, hsecondRange]
  · simp only [List.map_cons, List.map_nil, exchangeOf, hfirstRange, hsecondRange]
    decide

/-- A batch that does not land as planned, though every request has one place and the places are
apart. -/
theorem twoWords_batch_misses :
    ∃ (planned : List (Request × Plan)) (report : BatchReport) (edited : Editor) (disk : Disk),
    planned.map (·.1) = wordForWord ∧
    (∀ p ∈ planned, p.1.constraint.requireUnique = true ∧ twoWords.plan p.1 = .ok p.2) ∧
    planned.Pairwise (fun p q => p.2.range.Apart q.2.range) ∧
    twoWords.editAll Disk.storage wordForWord Disk.empty = ((.ok report, edited), disk) ∧
    edited.source.chars ≠ replaceTogether (planned.map exchangeOf) twoWords.source.chars := by
  obtain ⟨planned, report, edited, disk, hrequests, hplanned, hapart, hresult, hchars, htogether⟩ :=
    exists_twoWords_run
  refine ⟨planned, report, edited, disk, hrequests, hplanned, hapart, hresult, ?_⟩
  rw [hchars, htogether]
  decide

/-- In that batch some request has another first place. -/
theorem twoWords_batch_other_place : twoWords.Reachable ∧
    ∃ (planned : List (Request × Plan)) (report : BatchReport) (edited : Editor) (disk : Disk),
    (∀ p ∈ planned, twoWords.plan p.1 = .ok p.2) ∧
    planned.Pairwise (fun p q => p.2.range.Apart q.2.range) ∧
    twoWords.editAll Disk.storage (planned.map (·.1)) Disk.empty = ((.ok report, edited), disk) ∧
    ¬ ∀ before next rest, planned = before ++ next :: rest →
      firstPlace? twoWords.parser twoWords.language next.1
          (replaceTogether (before.map exchangeOf) twoWords.source.chars) =
        some (movedTo (before.map exchangeOf) twoWords.source.chars next.2.range.start) := by
  obtain ⟨planned, report, edited, disk, hrequests, hplanned, hapart, hresult, hchars, htogether⟩ :=
    exists_twoWords_run
  have hplans : ∀ p ∈ planned, twoWords.plan p.1 = .ok p.2 := fun p hp => (hplanned p hp).2
  rw [← hrequests] at hresult
  refine ⟨twoWords_reachable, planned, report, edited, disk, hplans, hapart, hresult, ?_⟩
  intro hplaces
  obtain ⟨hlanded, -⟩ :=
    (editAll_lands_iff twoWords_reachable hplans hapart hresult).mpr hplaces
  rw [hchars, htogether] at hlanded
  exact absurd hlanded (by decide)

/-! ## From back to front -/

/-- Without filters a request is made at the first place of its old text. -/
theorem isFirst_of_locate_eq_ok (hsource : editor.source = Source.ofChars chars)
    (hfree : request.constraint.filters = []) (h : editor.locate request = .ok range) :
    IsFirst request.oldText.toList range.start chars := by
  obtain ⟨within, occurrences, target, hwithin, hfound, hfirst, rfl⟩ := of_locate_eq_ok h
  rw [ScopeTable.resolve_of_filters_eq_nil hfree] at hwithin
  obtain rfl := Except.ok.inj hwithin
  rw [hsource] at hfound
  exact isFirst_of_findOccurrences hfound hfirst

/-- Replacing ranges behind a first place leaves it the first place, where it is. -/
theorem isFirst_replaceTogether {old : List Char} {stop : Nat}
    (hfirst : IsFirst old stop chars) (hspares : Spares exchanges 0 (stop + width old)) :
    IsFirst old stop (replaceTogether exchanges chars) ∧ movedTo exchanges chars stop = stop := by
  obtain ⟨⟨before, after, rfl, rfl⟩, -⟩ := id hfirst
  have hfront : Spares exchanges 0 (width before) := by
    intro exchange hmem
    obtain ⟨hpos, hapart⟩ := hspares exchange hmem
    refine ⟨hpos, ?_⟩
    rcases hapart with hbefore | hbehind
    · exact .inl hbefore
    · exact .inr (by simp only at hbehind ⊢; omega)
  constructor
  · have htogether : replaceTogether exchanges ((before ++ old) ++ after) =
        (before ++ old) ++ replaceFrom exchanges (width (before ++ old)) after :=
      replaceTogether_front _ _ (by rw [width_append]; exact hspares)
    rw [List.append_assoc, List.append_assoc] at htogether
    rw [htogether]
    exact hfirst.change_after _
  · have hkept := replaceTogether_front before [] hfront
    rw [List.append_nil, replaceFrom, List.append_nil] at hkept
    rw [movedTo_append, hkept]

/-- A batch of requests without filters, each planned in front of those listed before it, has the
text with all planned ranges replaced. -/
theorem editAll_back_to_front (hreachable : editor.Reachable)
    (hplanned : ∀ p ∈ planned, editor.plan p.1 = .ok p.2)
    (hback : planned.Pairwise fun p q => q.2.range.stop ≤ p.2.range.start)
    (hfree : ∀ p ∈ planned, p.1.constraint.filters = [])
    (h : editor.editAll storage (planned.map (·.1)) state = ((.ok report, edited), state')) :
    edited.source.chars = replaceTogether (planned.map exchangeOf) editor.source.chars := by
  have hparsed := hreachable.isParsed
  have hapart : planned.Pairwise fun p q => p.2.range.Apart q.2.range :=
    hback.imp fun hbefore => .inr hbefore
  obtain ⟨staged, finished, hdone, hsource⟩ := of_editAll_eq_ok h
  rw [hsource]
  refine chars_of_stageAll hparsed hplanned hapart ?_ (List.append_nil planned).symm hdone
  intro before next rest hcut middle recorded hbefore hsofar range hlocate
  subst hcut
  have hplan := hplanned next (by simp)
  obtain ⟨-, hstop⟩ := standsAt_of_plan_eq_ok hparsed.source_eq hplan
  have hspares : Spares (before.map exchangeOf) 0
      (next.2.range.start + width next.1.oldText.toList) := by
    intro exchange hmem
    refine ⟨(spares_of_planned hparsed.source_eq hplanned hapart exchange hmem).1, .inr ?_⟩
    obtain ⟨p, hp, rfl⟩ := List.mem_map.mp hmem
    rw [← hstop]
    exact (List.pairwise_append.mp hback).2.2 p hp next List.mem_cons_self
  -- The ranges replaced so far are all behind this one, which stays the first place.
  obtain ⟨hkept, hmoved⟩ := isFirst_replaceTogether
    (isFirst_of_plan_eq_ok hparsed.source_eq (hfree next (by simp)) hplan) hspares
  have hmiddleParsed := isParsed_of_stageAll_eq_done (hparsed.inPhase _) hbefore
  have hplace := isFirst_of_locate_eq_ok hmiddleParsed.source_eq (hfree next (by simp)) hlocate
  rw [hsofar] at hplace
  rw [hmoved, hplace.unique hkept]

end ExactEdit.Editor
