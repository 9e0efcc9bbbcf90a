import Mathlib.Data.List.Basic

/-! # Results of computations

Much of an editor is computation that may fail half way. The lemmas here take such a computation
apart where it is put together: a sequence gives a result exactly if its steps do, and fails with
the error of the step that failed; working through a list fails exactly if some member does.

## Main results

* `Result.bind_eq_ok_iff`, `Result.bind_eq_error_iff` — how a sequence of two steps ends
* `Result.exists_of_mapM_eq_ok`, `Result.exists_mem_of_mapM_eq_ok`,
  `Result.exists_mapM_eq_error_iff`, `Result.forM_eq_ok_iff` — how working through a list ends
* `Result.exists_filterMapM_eq_ok`, `Result.mem_filterMapM_iff`,
  `Result.map_key_of_filterMapM_eq_ok` — what is kept of a list
-/

namespace ExactEdit.Result

variable {α β ε ε' : Type} {a : α} {b : β} {e : ε}

section Sequence

variable {first : Except ε α} {next : α → Except ε β}

theorem bind_eq_ok_iff : (first >>= next) = .ok b ↔ ∃ a, first = .ok a ∧ next a = .ok b := by
  cases first with
  | error e => simp [bind, Except.bind]
  | ok a => simp [bind, Except.bind]

theorem bind_eq_error_iff :
    (first >>= next) = .error e ↔ first = .error e ∨ ∃ a, first = .ok a ∧ next a = .error e := by
  cases first with
  | error e => simp [bind, Except.bind]
  | ok a => simp [bind, Except.bind]

theorem pure_eq_ok_iff {a' : α} : (pure a : Except ε α) = .ok a' ↔ a' = a := by
  simp only [pure, Except.pure, Except.ok.injEq, eq_comm]

/-- A sequence gives a result if its first step and what follows that do. -/
theorem exists_bind_eq_ok (hfirst : first = .ok a) (hnext : ∃ b, next a = .ok b) :
    ∃ b, (first >>= next) = .ok b := by
  obtain ⟨b, hb⟩ := hnext
  exact ⟨b, bind_eq_ok_iff.mpr ⟨a, hfirst, hb⟩⟩

/-- A last step that only puts a result together does not fail. -/
theorem bind_ok_eq_error_iff {f : α → β} :
    (first >>= fun a => .ok (f a)) = .error e ↔ first = .error e := by
  cases first with
  | error e => simp [bind, Except.bind]
  | ok a => simp [bind, Except.bind]

theorem map_eq_ok_iff {f : α → β} : first.map f = .ok b ↔ ∃ a, first = .ok a ∧ f a = b := by
  cases first with
  | error e => simp [Except.map]
  | ok a => simp [Except.map]

theorem map_eq_error_iff {f : α → β} : first.map f = .error e ↔ first = .error e := by
  cases first with
  | error e => simp [Except.map]
  | ok a => simp [Except.map]

theorem mapError_eq_ok_iff {f : ε → ε'} : first.mapError f = .ok a ↔ first = .ok a := by
  cases first with
  | error e => simp [Except.mapError]
  | ok a => simp [Except.mapError]

theorem mapError_eq_error_iff {f : ε → ε'} {e' : ε'} :
    first.mapError f = .error e' ↔ ∃ e, first = .error e ∧ f e = e' := by
  cases first with
  | error e => simp [Except.mapError]
  | ok a => simp [Except.mapError]

theorem toOption_map_eq_some_iff {f : α → β} :
    first.toOption.map f = some b ↔ ∃ a, first = .ok a ∧ f a = b := by
  cases first with
  | error e => simp [Except.toOption]
  | ok a => simp [Except.toOption]

end Sequence

section Lists

variable {step : α → Except ε β} {list : List α} {results : List β}

/-- A list worked through holds results of its members only. -/
theorem exists_of_mapM_eq_ok (h : list.mapM step = .ok results) (hb : b ∈ results) :
    ∃ a ∈ list, step a = .ok b := by
  induction list generalizing results with
  | nil =>
    rw [List.mapM_nil] at h
    obtain rfl := Except.ok.inj h
    cases hb
  | cons a rest ih =>
    rw [List.mapM_cons] at h
    obtain ⟨first, hfirst, hrest⟩ := bind_eq_ok_iff.mp h
    obtain ⟨tail, htail, hresults⟩ := bind_eq_ok_iff.mp hrest
    obtain rfl := Except.ok.inj hresults
    rcases List.mem_cons.mp hb with rfl | hmem
    · exact ⟨a, List.mem_cons_self, hfirst⟩
    · obtain ⟨a', ha', hstep⟩ := ih htail hmem
      exact ⟨a', List.mem_cons_of_mem _ ha', hstep⟩

/-- A list worked through holds a result of each of its members. -/
theorem exists_mem_of_mapM_eq_ok (h : list.mapM step = .ok results) (ha : a ∈ list) :
    ∃ b ∈ results, step a = .ok b := by
  induction list generalizing results with
  | nil => cases ha
  | cons head rest ih =>
    rw [List.mapM_cons] at h
    obtain ⟨first, hfirst, hrest⟩ := bind_eq_ok_iff.mp h
    obtain ⟨tail, htail, hresults⟩ := bind_eq_ok_iff.mp hrest
    obtain rfl := Except.ok.inj hresults
    rcases List.mem_cons.mp ha with rfl | hmem
    · exact ⟨first, List.mem_cons_self, hfirst⟩
    · obtain ⟨b, hb, hstep⟩ := ih htail hmem
      exact ⟨b, List.mem_cons_of_mem _ hb, hstep⟩

/-- Working through a list fails exactly if some member does. -/
theorem exists_mapM_eq_error_iff :
    (∃ e, list.mapM step = .error e) ↔ ∃ a ∈ list, ∃ e, step a = .error e := by
  induction list with
  | nil => simp [pure, Except.pure]
  | cons a rest ih =>
    rw [List.mapM_cons, List.exists_mem_cons_iff, ← ih]
    constructor
    · rintro ⟨e, he⟩
      rcases bind_eq_error_iff.mp he with hfirst | ⟨b, -, hrest⟩
      · exact .inl ⟨e, hfirst⟩
      · exact .inr ⟨e, bind_ok_eq_error_iff.mp hrest⟩
    · intro h
      cases hfirst : step a with
      | error e => exact ⟨e, rfl⟩
      | ok b =>
        rw [hfirst] at h
        obtain ⟨e, htail⟩ := h.resolve_left (by simp)
        exact ⟨e, bind_eq_error_iff.mpr (.inr ⟨b, rfl, bind_ok_eq_error_iff.mpr htail⟩)⟩

/-- A list is checked without an error exactly if all its members are. -/
theorem forM_eq_ok_iff {check : α → Except ε Unit} :
    list.forM check = .ok () ↔ ∀ a ∈ list, check a = .ok () := by
  induction list with
  | nil => simp [List.forM, pure, Except.pure]
  | cons a rest ih =>
    rw [List.forM, bind_eq_ok_iff, List.forall_mem_cons]
    exact ⟨fun ⟨_, hfirst, hrest⟩ => ⟨hfirst, ih.mp hrest⟩,
      fun ⟨hfirst, hrest⟩ => ⟨(), hfirst, ih.mpr hrest⟩⟩

/-- If no step fails, something is kept of a list. -/
theorem exists_filterMapM_eq_ok {step : α → Except ε (Option β)}
    (h : ∀ a ∈ list, ∃ found, step a = .ok found) :
    ∃ results, list.filterMapM step = .ok results := by
  induction list with
  | nil => exact ⟨[], rfl⟩
  | cons a rest ih =>
    obtain ⟨results, hresults⟩ := ih fun a ha => h a (List.mem_cons_of_mem _ ha)
    obtain ⟨found, hfound⟩ := h a List.mem_cons_self
    rw [List.filterMapM_cons]
    cases found with
    | none => exact ⟨results, bind_eq_ok_iff.mpr ⟨none, hfound, hresults⟩⟩
    | some b =>
      exact ⟨b :: results, bind_eq_ok_iff.mpr ⟨some b, hfound,
        bind_eq_ok_iff.mpr ⟨results, hresults, rfl⟩⟩⟩

/-- What is kept of a list, told by a key that leads from a result back to its member. -/
theorem map_key_of_filterMapM_eq_ok {step : α → Except ε (Option β)} {key : β → α}
    {keep : α → Bool} (h : list.filterMapM step = .ok results)
    (hkey : ∀ a ∈ list, ∀ found, step a = .ok found →
      found.map key = if keep a then some a else none) : results.map key = list.filter keep := by
  induction list generalizing results with
  | nil =>
    rw [List.filterMapM_nil] at h
    obtain rfl := Except.ok.inj h
    rfl
  | cons a rest ih =>
    rw [List.filterMapM_cons] at h
    obtain ⟨found, hfound, hrest⟩ := bind_eq_ok_iff.mp h
    have hfirst := hkey a List.mem_cons_self found hfound
    -- The rest goes on in the same way whether or not something is kept of this member.
    have htail : ∀ {results : List β}, rest.filterMapM step = .ok results →
        results.map key = rest.filter keep :=
      fun h => ih h fun a ha => hkey a (List.mem_cons_of_mem _ ha)
    rw [List.filter_cons]
    cases found with
    | none =>
      rw [if_neg fun hkept => by simp [hkept] at hfirst]
      exact htail hrest
    | some b =>
      obtain ⟨tail, hresults, hcons⟩ := bind_eq_ok_iff.mp hrest
      obtain rfl := Except.ok.inj hcons
      cases hkept : keep a with
      | false => simp [hkept] at hfirst
      | true =>
        rw [hkept, if_pos rfl] at hfirst
        rw [if_pos rfl, List.map_cons, Option.some.inj hfirst, htail hresults]

theorem exists_of_filterMapM_eq_ok {step : α → Except ε (Option β)}
    (h : list.filterMapM step = .ok results) (hb : b ∈ results) :
    ∃ a ∈ list, step a = .ok (some b) := by
  induction list generalizing results with
  | nil =>
    rw [List.filterMapM_nil] at h
    obtain rfl := Except.ok.inj h
    cases hb
  | cons a rest ih =>
    rw [List.filterMapM_cons] at h
    obtain ⟨found, hfound, hrest⟩ := bind_eq_ok_iff.mp h
    cases found with
    | none =>
      obtain ⟨a', ha', hstep⟩ := ih hrest hb
      exact ⟨a', List.mem_cons_of_mem _ ha', hstep⟩
    | some b' =>
      obtain ⟨tail, htail, hresults⟩ := bind_eq_ok_iff.mp hrest
      obtain rfl := Except.ok.inj hresults
      rcases List.mem_cons.mp hb with rfl | hmem
      · exact ⟨a, List.mem_cons_self, hfound⟩
      · obtain ⟨a', ha', hstep⟩ := ih htail hmem
        exact ⟨a', List.mem_cons_of_mem _ ha', hstep⟩

/-- What is kept of a list is what comes of its members. -/
theorem mem_filterMapM_iff {step : α → Except ε (Option β)}
    (h : list.filterMapM step = .ok results) :
    b ∈ results ↔ ∃ a ∈ list, step a = .ok (some b) := by
  refine ⟨exists_of_filterMapM_eq_ok h, ?_⟩
  induction list generalizing results with
  | nil => rintro ⟨a, ⟨⟩, -⟩
  | cons a rest ih =>
    rw [List.filterMapM_cons] at h
    obtain ⟨found, hfound, hrest⟩ := bind_eq_ok_iff.mp h
    rintro ⟨a', ha', hstep⟩
    cases found with
    | none =>
      -- The head leaves nothing, so it is not the member.
      rcases List.mem_cons.mp ha' with rfl | hmem
      · rw [hfound] at hstep
        cases hstep
      · exact ih hrest ⟨a', hmem, hstep⟩
    | some b' =>
      obtain ⟨tail, htail, hresults⟩ := bind_eq_ok_iff.mp hrest
      obtain rfl := Except.ok.inj hresults
      rcases List.mem_cons.mp ha' with rfl | hmem
      · rw [hfound] at hstep
        obtain rfl := Option.some.inj (Except.ok.inj hstep)
        exact List.mem_cons_self
      · exact List.mem_cons_of_mem _ (ih htail ⟨a', hmem, hstep⟩)

/-- Where every step keeps less of what it finds, less is kept of the whole list. -/
theorem filterMapM_filter {step stricter : α → Except ε (Option β)} {keep : β → Bool}
    (h : list.filterMapM step = .ok results)
    (hstricter : ∀ a found, step a = .ok found → stricter a = .ok (found.filter keep)) :
    list.filterMapM stricter = .ok (results.filter keep) := by
  induction list generalizing results with
  | nil =>
    rw [List.filterMapM_nil] at h
    obtain rfl := Except.ok.inj h
    rfl
  | cons a rest ih =>
    rw [List.filterMapM_cons] at h
    obtain ⟨found, hfound, hrest⟩ := bind_eq_ok_iff.mp h
    rw [List.filterMapM_cons, hstricter a found hfound]
    cases found with
    | none => exact ih hrest
    | some b =>
      obtain ⟨tail, htail, hcons⟩ := bind_eq_ok_iff.mp hrest
      obtain rfl := Except.ok.inj hcons
      rw [Option.filter_some, List.filter_cons]
      by_cases hkeep : keep b = true
      · rw [if_pos hkeep, if_pos hkeep]
        exact bind_eq_ok_iff.mpr ⟨some b, rfl, bind_eq_ok_iff.mpr ⟨_, ih htail, rfl⟩⟩
      · rw [if_neg hkeep, if_neg hkeep]
        exact bind_eq_ok_iff.mpr ⟨none, rfl, ih htail⟩

end Lists

end ExactEdit.Result
