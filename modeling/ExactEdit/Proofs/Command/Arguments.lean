import ExactEdit.Command.Invocation
import ExactEdit.Proofs.Result
import Mathlib.Data.List.Find
import Mathlib.Data.List.TakeWhile

/-! # How to report, among the arguments

Every command has the same options that choose how to report, and takes them anywhere in front of
two dashes: in front of the name of the command, between its arguments, even behind an argument
whose value is not checked yet. Reading arguments without these options runs beside reading all of
them. What differs is only that such an option settles the argument in front of it, which otherwise
the next argument does, or the end.

## Main definitions

* `withoutStyle` — the arguments that do not choose how to report
* `ReportStyle.arguments` — the arguments that choose a style
* `Grammar.KnowsStyle` — the options for how to report are marks, and nothing else has their names
* `Grammar.Tracks` — what was read of all arguments, beside what was read without such options

## Main results

* `Grammar.Tracks.readArgument` — what one argument does on both sides
* `Grammar.read_withoutStyle` — what is given without the options is what was given, without them
* `Invocation.read_arguments_withoutStyle` — every style can be chosen for a command
-/

namespace ExactEdit

open Result

/-- The names of the options that choose how to report. -/
def ReportStyle.names : List String := ["quiet", "no-color", "json"]

theorem ReportStyle.names_plain :
    ∀ name ∈ ReportStyle.names, name.toList ≠ [] ∧ '=' ∉ name.toList := by
  decide

/-- The arguments that choose how to report. -/
def ReportStyle.marks : List String := ReportStyle.names.map ("--" ++ ·)

theorem ReportStyle.option_of_mem_marks :
    ∀ mark ∈ ReportStyle.marks, mark ≠ "--" ∧ mark.startsWith "-" ∧ mark ≠ "-" := by
  decide +kernel

/-- The names of the options that choose a style. -/
def ReportStyle.chosen (style : ReportStyle) : List String :=
  (if style.quiet then ["quiet"] else []) ++ (if style.plain then ["no-color"] else []) ++
    if style.json then ["json"] else []

/-- The arguments that choose a style. -/
def ReportStyle.arguments (style : ReportStyle) : List String := style.chosen.map ("--" ++ ·)

/-- The arguments that do not choose how to report. Behind two dashes none does. -/
def withoutStyle : List String → List String
  | [] => []
  | argument :: rest =>
    if argument = "--" then argument :: rest
    else if argument ∈ ReportStyle.marks then withoutStyle rest
    else argument :: withoutStyle rest

/-! ## What was given -/

namespace Matches

variable {found : Matches} {name : String}

/-- What was given, apart from how to report. -/
def withoutStyle (found : Matches) : Matches :=
  found.filter fun entry => entry.1 ∉ ReportStyle.names

@[simp]
theorem get?_withoutStyle (hname : name ∉ ReportStyle.names) :
    found.withoutStyle.get? name = found.get? name := by
  rw [get?, get?, withoutStyle, List.find?_filter]
  congr 2
  funext entry
  by_cases h : entry.1 = name
  · simp [h, hname]
  · simp [h]

@[simp]
theorem has_withoutStyle (hname : name ∉ ReportStyle.names) :
    found.withoutStyle.has name = found.has name := by
  rw [has, has, get?_withoutStyle hname]

@[simp]
theorem require_withoutStyle (hname : name ∉ ReportStyle.names) :
    found.withoutStyle.require name = found.require name := by
  rw [require, require, get?_withoutStyle hname]

theorem has_append {other value : String} :
    (found ++ [(other, value)]).has name = (found.has name || other == name) := by
  rw [has, has, get?, get?, List.find?_append]
  cases hfound : found.find? fun entry => entry.1 == name with
  | some entry => simp
  | none =>
    by_cases h : other = name
    · simp [h]
    · simp [h]

end Matches

namespace Grammar

variable {grammar : Grammar} {p q r : Progress} {option : OptionRule} {rule : ValueRule}
variable {name value argument : String} {arguments : List String}

/-- A grammar has the options for how to report as marks without a letter, and gives their names to
nothing else. -/
structure KnowsStyle (grammar : Grammar) : Prop where
  options : ∀ option ∈ grammar.options, option.name ∈ ReportStyle.names →
    option.role = .mark ∧ option.letter = none
  places : ∀ place ∈ grammar.places, place.name ∉ ReportStyle.names
  exclusive : ∀ pair ∈ grammar.exclusive,
    pair.1 ∉ ReportStyle.names ∧ pair.2 ∉ ReportStyle.names

instance (grammar : Grammar) : Decidable grammar.KnowsStyle :=
  decidable_of_iff
    ((∀ option ∈ grammar.options, option.name ∈ ReportStyle.names →
        option.role = .mark ∧ option.letter = none) ∧
      (∀ place ∈ grammar.places, place.name ∉ ReportStyle.names) ∧
      ∀ pair ∈ grammar.exclusive, pair.1 ∉ ReportStyle.names ∧ pair.2 ∉ ReportStyle.names)
    ⟨fun ⟨options, places, exclusive⟩ => ⟨options, places, exclusive⟩,
      fun ⟨options, places, exclusive⟩ => ⟨options, places, exclusive⟩⟩

/-- What was read, apart from how to report. -/
def Progress.withoutStyle (progress : Progress) : Progress :=
  { progress with found := progress.found.withoutStyle }

/-! ## Settling -/

theorem accept_withoutStyle (hname : name ∉ ReportStyle.names)
    (h : accept p name value rule = .ok r) :
    accept p.withoutStyle name value rule = .ok r.withoutStyle := by
  rw [accept] at h ⊢
  rw [show p.withoutStyle.found = p.found.withoutStyle from rfl, Matches.has_withoutStyle hname]
  split at h
  · cases h
  · rename_i hnew
    obtain ⟨_, hcheck, h⟩ := bind_eq_ok_iff.mp h
    obtain rfl := Except.ok.inj h
    rw [if_neg hnew, hcheck]
    simp [Progress.withoutStyle, Matches.withoutStyle, hname, bind, Except.bind, pure, Except.pure]

/-- To choose how to report leaves no trace apart from that. -/
theorem withoutStyle_of_accept (hname : name ∈ ReportStyle.names)
    (h : accept p name value rule = .ok r) :
    r.withoutStyle = { p.withoutStyle with pending := none } := by
  rw [accept] at h
  split at h
  · cases h
  · obtain ⟨_, -, h⟩ := bind_eq_ok_iff.mp h
    obtain rfl := Except.ok.inj h
    simp [Progress.withoutStyle, Matches.withoutStyle, hname]

/-- What is accepted is found, and nothing else happens. -/
theorem eq_of_accept (h : accept p name value rule = .ok r) :
    r = { p with found := p.found ++ [(name, value)], pending := none } := by
  rw [accept] at h
  split at h
  · cases h
  · obtain ⟨_, -, h⟩ := bind_eq_ok_iff.mp h
    exact (Except.ok.inj h).symm

/-- Behind an argument that is settled, places and dashes are what they were. -/
theorem frame_of_settle (h : settle p = .ok r) :
    r.pending = none ∧ r.places = p.places ∧ r.plain = p.plain := by
  rw [settle] at h
  split at h
  · rename_i hpending
    obtain rfl := Except.ok.inj h
    exact ⟨hpending, rfl, rfl⟩
  · cases h
  · obtain rfl := eq_of_accept h
    exact ⟨rfl, rfl, rfl⟩

theorem settle_of_pending_eq_none (h : p.pending = none) : settle p = .ok p := by
  rw [settle, h]

/-- To settle an argument does not depend on whether two dashes were met. -/
theorem settle_plain (plain : Bool) (h : settle p = .ok r) :
    settle { p with plain := plain } = .ok { r with plain := plain } := by
  rw [settle] at h ⊢
  split at h <;> rename_i hpending
  · obtain rfl := Except.ok.inj h
    simp [hpending]
  · cases h
  · obtain rfl := eq_of_accept h
    rw [accept] at h
    split at h
    · cases h
    · rename_i hnew
      obtain ⟨_, hcheck, -⟩ := bind_eq_ok_iff.mp h
      simp only [hpending, accept, if_neg hnew, hcheck]
      rfl

theorem settle_withoutStyle
    (hpending : ∀ pending ∈ p.pending, pending.name ∉ ReportStyle.names)
    (h : settle p = .ok r) : settle p.withoutStyle = .ok r.withoutStyle := by
  rw [settle] at h ⊢
  rw [show p.withoutStyle.pending = p.pending from rfl]
  split at h <;> rename_i hp
  · obtain rfl := Except.ok.inj h
    rfl
  · cases h
  · exact accept_withoutStyle (hpending _ hp) h

/-! ## Options -/

/-- An option that is read is a mark, to which nothing is attached, or has a value. -/
theorem role_of_readOption {attached : Option String}
    (h : readOption p option attached = .ok r) :
    option.role = .mark ∧ attached = none ∨ ∃ rule, option.role = .value rule := by
  cases hrole : option.role with
  | mark =>
    cases attached with
    | none => exact .inl ⟨rfl, rfl⟩
    | some value => simp [readOption, hrole] at h
  | value rule => exact .inr ⟨rule, rfl⟩
  | stop told =>
    cases attached with
    | none =>
      simp only [readOption, hrole] at h
      obtain ⟨_, -, h⟩ := bind_eq_ok_iff.mp h
      cases h
    | some value => simp [readOption, hrole] at h

/-- A long option is one of the grammar. It is its name alone if nothing is attached to it. -/
theorem exists_option_of_readLong {chars : List Char} (h : grammar.readLong p chars = .ok r) :
    ∃ option ∈ grammar.options, ∃ attached, ('=' ∉ chars → attached = none) ∧
      (attached = none → String.ofList chars = option.name) ∧
      ∀ q, grammar.readLong q chars = readOption q option attached := by
  simp only [readLong] at h ⊢
  split at h
  · rename_i option hfind
    have hname : option.name = String.ofList (chars.takeWhile (· != '=')) := by
      simpa using List.find?_some hfind
    refine ⟨option, List.mem_of_find?_eq_some hfind, _, ?_, ?_, fun _ => rfl⟩
    · intro hchars
      have hend : chars.dropWhile (· != '=') = [] := by
        rw [List.dropWhile_eq_nil_iff]
        rintro c hc
        simpa using fun h : c = '=' => hchars (h ▸ hc)
      rw [hend]
    · intro hnone
      have hend : chars.dropWhile (· != '=') = [] := by
        rcases hdrop : chars.dropWhile (· != '=') with _ | ⟨c, value⟩
        · rfl
        · have hc := List.head_dropWhile_not (· != '=') (l := chars) (by simp [hdrop])
          simp only [hdrop, List.head_cons, bne_eq_false_iff_eq] at hc
          simp [hdrop, hc] at hnone
      have hwhole : chars.takeWhile (· != '=') = chars := by
        simpa [hend] using List.takeWhile_append_dropWhile (p := (· != '=')) (l := chars)
      rw [hname, hwhole]
  · cases h

/-! ## Reading on both sides -/

/-- What was read of all arguments, beside what was read without those for how to report. Where
such an option came last, it settled an argument that waits on the other side. -/
structure Tracks (p q : Progress) : Prop where
  pending : ∀ pending ∈ p.pending, pending.name ∉ ReportStyle.names
  places : ∀ place ∈ p.places, place.name ∉ ReportStyle.names
  agree : q = p.withoutStyle ∨ p.pending = none ∧ settle q = .ok p.withoutStyle

namespace Tracks

/-- What was read of the same arguments. -/
theorem refl (hpending : ∀ pending ∈ p.pending, pending.name ∉ ReportStyle.names)
    (hplaces : ∀ place ∈ p.places, place.name ∉ ReportStyle.names) :
    Tracks p p.withoutStyle :=
  ⟨hpending, hplaces, .inl rfl⟩

theorem places_eq (h : Tracks p q) : q.places = p.places := by
  rcases h.agree with rfl | ⟨-, hsettle⟩
  · rfl
  · exact (frame_of_settle hsettle).2.1.symm

theorem plain_eq (h : Tracks p q) : q.plain = p.plain := by
  rcases h.agree with rfl | ⟨-, hsettle⟩
  · rfl
  · exact (frame_of_settle hsettle).2.2.symm

/-- Once the argument that waits is settled, both sides agree. -/
theorem settle (h : Tracks p q) (hp : settle p = .ok r) :
    Grammar.settle q = .ok r.withoutStyle := by
  rcases h.agree with rfl | ⟨hnone, hq⟩
  · exact settle_withoutStyle h.pending hp
  · rw [settle_of_pending_eq_none hnone] at hp
    obtain rfl := Except.ok.inj hp
    exact hq

theorem readPlace (h : Tracks p q) (hp : readPlace p argument = .ok r) :
    ∃ r', Grammar.readPlace q argument = .ok r' ∧ Tracks r r' := by
  rw [Grammar.readPlace] at hp
  split at hp
  · cases hp
  · rename_i place rest hplaces
    obtain ⟨settled, hsettled, hp⟩ := bind_eq_ok_iff.mp hp
    obtain rfl := Except.ok.inj hp
    have hnames := h.places
    rw [hplaces, List.forall_mem_cons] at hnames
    refine ⟨_, ?_, refl ?_ hnames.2⟩
    · rw [Grammar.readPlace, h.places_eq, hplaces]
      exact bind_eq_ok_iff.mpr ⟨_, h.settle hsettled, rfl⟩
    · intro pending hpending
      obtain rfl := Option.some.inj hpending
      exact hnames.1

/-- Nothing waits once something is accepted. -/
theorem of_accept (h : Tracks p q) {settled : Progress} (hsettled : Grammar.settle p = .ok settled)
    (hp : accept settled name value rule = .ok r) : Tracks r r.withoutStyle := by
  obtain rfl := eq_of_accept hp
  exact refl nofun ((frame_of_settle hsettled).2.1 ▸ h.places)

/-- An option that does not choose how to report is read alike. -/
theorem readOption (h : Tracks p q) (hname : option.name ∉ ReportStyle.names)
    {attached : Option String} (hp : readOption p option attached = .ok r) :
    ∃ r', Grammar.readOption q option attached = .ok r' ∧ Tracks r r' := by
  cases hrole : option.role with
  | mark =>
    cases attached with
    | some value => simp [Grammar.readOption, hrole] at hp
    | none =>
      simp only [Grammar.readOption, hrole] at hp ⊢
      obtain ⟨settled, hsettled, hp⟩ := bind_eq_ok_iff.mp hp
      exact ⟨_, bind_eq_ok_iff.mpr ⟨_, h.settle hsettled, accept_withoutStyle hname hp⟩,
        h.of_accept hsettled hp⟩
  | value rule =>
    cases attached with
    | some value =>
      simp only [Grammar.readOption, hrole] at hp ⊢
      obtain ⟨settled, hsettled, hp⟩ := bind_eq_ok_iff.mp hp
      exact ⟨_, bind_eq_ok_iff.mpr ⟨_, h.settle hsettled, accept_withoutStyle hname hp⟩,
        h.of_accept hsettled hp⟩
    | none =>
      simp only [Grammar.readOption, hrole] at hp ⊢
      obtain ⟨settled, hsettled, hp⟩ := bind_eq_ok_iff.mp hp
      obtain rfl := Except.ok.inj hp
      refine ⟨_, bind_eq_ok_iff.mpr ⟨_, h.settle hsettled, rfl⟩, refl ?_ ?_⟩
      · intro pending hpending
        obtain rfl := Option.some.inj hpending
        exact hname
      · exact (frame_of_settle hsettled).2.1 ▸ h.places
  | stop told =>
    cases attached with
    | some value => simp [Grammar.readOption, hrole] at hp
    | none =>
      simp only [Grammar.readOption, hrole] at hp
      obtain ⟨_, -, hp⟩ := bind_eq_ok_iff.mp hp
      cases hp

/-- An option that chooses how to report leaves the other side as it is. -/
theorem readOption_style (h : Tracks p q) (hname : option.name ∈ ReportStyle.names)
    (hrole : option.role = .mark) (hp : Grammar.readOption p option none = .ok r) :
    Tracks r q := by
  simp only [Grammar.readOption, hrole] at hp
  obtain ⟨settled, hsettled, hp⟩ := bind_eq_ok_iff.mp hp
  have hframe := frame_of_settle hsettled
  have heq := withoutStyle_of_accept hname hp
  obtain rfl := eq_of_accept hp
  refine ⟨nofun, hframe.2.1 ▸ h.places, .inr ⟨rfl, ?_⟩⟩
  rw [heq, h.settle hsettled, Progress.withoutStyle, hframe.1]

theorem readLetters (hgrammar : grammar.KnowsStyle) {letters : List Char} (h : Tracks p q)
    (hne : letters ≠ []) (hp : grammar.readLetters p letters = .ok r) :
    ∃ r', grammar.readLetters q letters = .ok r' ∧ Tracks r r' := by
  induction letters generalizing p q with
  | nil => exact absurd rfl hne
  | cons letter rest ih =>
    rw [Grammar.readLetters] at hp ⊢
    split at hp
    · rename_i option hfind
      obtain ⟨next, hnext, hp⟩ := bind_eq_ok_iff.mp hp
      have hname : option.name ∉ ReportStyle.names := by
        intro hname
        have hletter := (hgrammar.options option (List.mem_of_find?_eq_some hfind) hname).2
        simpa [hletter] using List.find?_some hfind
      obtain ⟨next', hnext', htracks⟩ := h.readOption hname hnext
      rcases eq_or_ne rest [] with rfl | hrest
      · rw [Grammar.readLetters] at hp
        obtain rfl := Except.ok.inj hp
        exact ⟨next', bind_eq_ok_iff.mpr ⟨next', hnext', rfl⟩, htracks⟩
      · obtain ⟨r', hr', hr⟩ := ih htracks hrest hp
        exact ⟨r', bind_eq_ok_iff.mpr ⟨next', hnext', hr'⟩, hr⟩
    · cases hp

theorem readWord (h : Tracks p q) (hp : readWord p argument = .ok r) :
    ∃ r', Grammar.readWord q argument = .ok r' ∧ Tracks r r' := by
  rw [Grammar.readWord] at hp
  split at hp
  · -- An option waits for its value, so none that chooses how to report came behind it.
    rename_i name rule hpending
    obtain rfl := Except.ok.inj hp
    rcases h.agree with rfl | ⟨hnone, -⟩
    · refine ⟨_, ?_, refl ?_ h.places⟩
      · rw [Grammar.readWord, show p.withoutStyle.pending = p.pending from rfl, hpending]
        rfl
      · intro pending hsome
        obtain rfl := Option.some.inj hsome
        exact h.pending ⟨name, rule, none⟩ hpending
    · rw [hnone] at hpending
      cases hpending
  · rename_i hpending
    obtain ⟨r', hr', hr⟩ := h.readPlace hp
    refine ⟨r', ?_, hr⟩
    rw [Grammar.readWord]
    split
    · rename_i name rule hq
      rcases h.agree with rfl | ⟨-, hsettle⟩
      · exact absurd hq (hpending name rule)
      · rw [Grammar.settle, hq] at hsettle
        cases hsettle
    · exact hr'

/-- A long option that chooses how to report leaves the other side as it is. -/
theorem readLong_style (hgrammar : grammar.KnowsStyle) (h : Tracks p q)
    (hname : name ∈ ReportStyle.names) (hp : grammar.readLong p name.toList = .ok r) :
    Tracks r q := by
  obtain ⟨option, hmem, attached, hnone, hwritten, hread⟩ := exists_option_of_readLong hp
  obtain rfl := hnone (ReportStyle.names_plain name hname).2
  rw [String.ofList_toList] at hwritten
  obtain rfl := hwritten rfl
  obtain ⟨hrole, -⟩ := hgrammar.options option hmem hname
  rw [hread] at hp
  exact h.readOption_style hname hrole hp

/-- Every other long option is read alike. -/
theorem readLong (hgrammar : grammar.KnowsStyle) (h : Tracks p q) {chars : List Char}
    (hname : String.ofList chars ∉ ReportStyle.names) (hp : grammar.readLong p chars = .ok r) :
    ∃ r', grammar.readLong q chars = .ok r' ∧ Tracks r r' := by
  obtain ⟨option, hmem, attached, -, hwritten, hread⟩ := exists_option_of_readLong hp
  rw [hread] at hp ⊢
  refine h.readOption (fun hstyle => hname ?_) hp
  -- Nothing can be attached to a mark, so such an option would be all that is written.
  rcases role_of_readOption hp with ⟨-, hnone⟩ | ⟨rule, hrule⟩
  · rwa [hwritten hnone]
  · rw [(hgrammar.options option hmem hstyle).1] at hrule
    cases hrule

/-- An argument that chooses how to report leaves the other side as it is. -/
theorem readArgument_style (hgrammar : grammar.KnowsStyle) (h : Tracks p q)
    (hplain : p.plain = false) (hstyle : argument ∈ ReportStyle.marks)
    (hp : grammar.readArgument p argument = .ok r) : Tracks r q := by
  obtain ⟨name, hname, rfl⟩ := List.mem_map.mp hstyle
  refine h.readLong_style hgrammar hname ?_
  rw [Grammar.readArgument, hplain, if_neg Bool.false_ne_true, String.toList_append] at hp
  obtain ⟨c, chars, hchars⟩ :=
    List.exists_cons_of_ne_nil (ReportStyle.names_plain name hname).1
  rw [hchars] at hp ⊢
  exact hp

/-- Every other argument does the same on both sides. -/
theorem readArgument (hgrammar : grammar.KnowsStyle) (h : Tracks p q)
    (hstyle : p.plain = true ∨ argument ∉ ReportStyle.marks)
    (hp : grammar.readArgument p argument = .ok r) :
    ∃ r', grammar.readArgument q argument = .ok r' ∧ Tracks r r' := by
  rw [Grammar.readArgument] at hp ⊢
  rw [h.plain_eq]
  cases hplain : p.plain with
  | true =>
    rw [hplain, if_pos rfl] at hp
    exact h.readPlace hp
  | false =>
    simp only [hplain, Bool.false_eq_true, if_false, false_or] at hp hstyle ⊢
    split at hp
    · obtain rfl := Except.ok.inj hp
      refine ⟨_, rfl, h.pending, h.places, ?_⟩
      rcases h.agree with rfl | ⟨hnone, hsettle⟩
      · exact .inl rfl
      · exact .inr ⟨hnone, settle_plain true hsettle⟩
    · rename_i rest _ hchars
      refine h.readLong hgrammar (fun hname => hstyle ?_) hp
      refine List.mem_map.mpr ⟨_, hname, String.toList_injective ?_⟩
      simp [hchars]
    · exact h.readLetters hgrammar (by simp) hp
    · exact h.readWord hp

end Tracks

/-! ## Reading all arguments -/

/-- An argument for a place leaves it as it is whether two dashes were met. -/
theorem plain_of_readPlace (h : readPlace p argument = .ok r) : r.plain = p.plain := by
  rw [readPlace] at h
  split at h
  · cases h
  · obtain ⟨settled, hsettled, h⟩ := bind_eq_ok_iff.mp h
    obtain rfl := Except.ok.inj h
    exact (frame_of_settle hsettled).2.2

theorem plain_of_readOption {attached : Option String}
    (h : readOption p option attached = .ok r) : r.plain = p.plain := by
  cases hrole : option.role <;> cases attached <;> simp only [readOption, hrole] at h
  case mark.none =>
    obtain ⟨settled, hsettled, h⟩ := bind_eq_ok_iff.mp h
    obtain rfl := eq_of_accept h
    exact (frame_of_settle hsettled).2.2
  case value.none =>
    obtain ⟨settled, hsettled, h⟩ := bind_eq_ok_iff.mp h
    obtain rfl := Except.ok.inj h
    exact (frame_of_settle hsettled).2.2
  case value.some =>
    obtain ⟨settled, hsettled, h⟩ := bind_eq_ok_iff.mp h
    obtain rfl := eq_of_accept h
    exact (frame_of_settle hsettled).2.2
  case stop.none =>
    obtain ⟨_, -, h⟩ := bind_eq_ok_iff.mp h
    cases h
  all_goals cases h

theorem plain_of_readLetters {letters : List Char} (h : grammar.readLetters p letters = .ok r) :
    r.plain = p.plain := by
  induction letters generalizing p with
  | nil =>
    obtain rfl := Except.ok.inj h
    rfl
  | cons letter rest ih =>
    rw [readLetters] at h
    split at h
    · obtain ⟨next, hnext, h⟩ := bind_eq_ok_iff.mp h
      rw [ih h, plain_of_readOption hnext]
    · cases h

/-- Nothing but two dashes changes whether they were met. -/
theorem plain_of_readArgument (hdashes : argument ≠ "--")
    (h : grammar.readArgument p argument = .ok r) : r.plain = p.plain := by
  rw [readArgument] at h
  split at h
  · exact plain_of_readPlace h
  · split at h
    · rename_i hchars
      exact absurd (String.toList_injective hchars) hdashes
    · simp only [readLong] at h
      split at h
      · exact plain_of_readOption h
      · cases h
    · exact plain_of_readLetters h
    · rw [readWord] at h
      split at h
      · obtain rfl := Except.ok.inj h
        rfl
      · exact plain_of_readPlace h

/-- Behind two dashes the arguments are the same on both sides. -/
theorem Tracks.foldlM_plain (hgrammar : grammar.KnowsStyle) (h : Tracks p q)
    (hplain : p.plain = true) (hp : arguments.foldlM grammar.readArgument p = .ok r) :
    ∃ r', arguments.foldlM grammar.readArgument q = .ok r' ∧ Tracks r r' := by
  induction arguments generalizing p q with
  | nil =>
    obtain rfl := Except.ok.inj hp
    exact ⟨q, rfl, h⟩
  | cons argument rest ih =>
    rw [List.foldlM_cons] at hp ⊢
    obtain ⟨next, hnext, hp⟩ := bind_eq_ok_iff.mp hp
    obtain ⟨next', hnext', htracks⟩ := h.readArgument hgrammar (.inl hplain) hnext
    have hstays : next.plain = true := by
      rw [Grammar.readArgument, if_pos hplain] at hnext
      rw [plain_of_readPlace hnext, hplain]
    obtain ⟨r', hr', hr⟩ := ih htracks hstays hp
    exact ⟨r', bind_eq_ok_iff.mpr ⟨next', hnext', hr'⟩, hr⟩

/-- Reading all arguments runs beside reading those that do not choose how to report. -/
theorem Tracks.foldlM (hgrammar : grammar.KnowsStyle) (h : Tracks p q) (hplain : p.plain = false)
    (hp : arguments.foldlM grammar.readArgument p = .ok r) :
    ∃ r', (ExactEdit.withoutStyle arguments).foldlM grammar.readArgument q = .ok r' ∧
      Tracks r r' := by
  induction arguments generalizing p q with
  | nil =>
    obtain rfl := Except.ok.inj hp
    exact ⟨q, rfl, h⟩
  | cons argument rest ih =>
    rw [List.foldlM_cons] at hp
    obtain ⟨next, hnext, hrest⟩ := bind_eq_ok_iff.mp hp
    rw [ExactEdit.withoutStyle]
    by_cases hdashes : argument = "--"
    · -- From here on all arguments are the same on both sides.
      subst hdashes
      rw [if_pos rfl, List.foldlM_cons]
      obtain ⟨next', hnext', htracks⟩ := h.readArgument hgrammar (.inr (by decide)) hnext
      have hmet : next.plain = true := by
        rw [Grammar.readArgument, hplain] at hnext
        obtain rfl := Except.ok.inj hnext
        rfl
      obtain ⟨r', hr', hr⟩ := htracks.foldlM_plain hgrammar hmet hrest
      exact ⟨r', bind_eq_ok_iff.mpr ⟨next', hnext', hr'⟩, hr⟩
    · have hstays : next.plain = false := by
        rw [plain_of_readArgument hdashes hnext, hplain]
      rw [if_neg hdashes]
      by_cases hstyle : argument ∈ ReportStyle.marks
      · rw [if_pos hstyle]
        exact ih (h.readArgument_style hgrammar hplain hstyle hnext) hstays hrest
      · rw [if_neg hstyle, List.foldlM_cons]
        obtain ⟨next', hnext', htracks⟩ := h.readArgument hgrammar (.inr hstyle) hnext
        obtain ⟨r', hr', hr⟩ := ih htracks hstays hrest
        exact ⟨r', bind_eq_ok_iff.mpr ⟨next', hnext', hr'⟩, hr⟩

/-- What is given without the options for how to report is what was given, apart from these. -/
theorem read_withoutStyle (hgrammar : grammar.KnowsStyle) {found : Matches}
    (h : grammar.read arguments = .ok found) :
    grammar.read (ExactEdit.withoutStyle arguments) = .ok found.withoutStyle := by
  obtain ⟨progress, hprogress, h⟩ := bind_eq_ok_iff.mp h
  obtain ⟨settled, hsettled, h⟩ := bind_eq_ok_iff.mp h
  have hstart : Tracks ⟨[], none, grammar.places, false⟩ ⟨[], none, grammar.places, false⟩ :=
    .refl nofun hgrammar.places
  obtain ⟨progress', hprogress', htracks⟩ := hstart.foldlM hgrammar rfl hprogress
  have hexcluded : grammar.excluded? settled.found.withoutStyle =
      grammar.excluded? settled.found := by
    refine List.find?_congr fun pair hpair => ?_
    obtain ⟨hone, hother⟩ := hgrammar.exclusive pair hpair
    simp [hone, hother]
  refine bind_eq_ok_iff.mpr ⟨progress', hprogress',
    bind_eq_ok_iff.mpr ⟨_, htracks.settle hsettled, ?_⟩⟩
  rw [show settled.withoutStyle.found = settled.found.withoutStyle from rfl, hexcluded]
  split at h
  · cases h
  · obtain rfl := Except.ok.inj h
    rfl

end Grammar

/-! ## Reading an invocation -/

namespace Invocation

variable {front : Matches} {name argument : String} {arguments rest : List String}
variable {invocation : Invocation}

theorem knowsStyle_of_mem_commands : ∀ entry ∈ commands, entry.2.1.KnowsStyle := by
  decide +kernel

/-- No command depends on how to report. -/
theorem make_withoutStyle (found : Matches) :
    ∀ entry ∈ commands, entry.2.2 found.withoutStyle = entry.2.2 found := by
  have hget : ∀ name ∉ ReportStyle.names, found.withoutStyle.get? name = found.get? name :=
    fun _ => Matches.get?_withoutStyle
  have hhas : ∀ name ∉ ReportStyle.names, found.withoutStyle.has name = found.has name :=
    fun _ => Matches.has_withoutStyle
  have hrequire : ∀ name ∉ ReportStyle.names,
      found.withoutStyle.require name = found.require name :=
    fun _ => Matches.require_withoutStyle
  simp (disch := decide) only [commands, List.forall_mem_cons, editArguments, batchCommand,
    scopesCommand, initCommand, completionsCommand, originOf, languageOf, constraintOf, hget, hhas,
    hrequire]
  simp

/-- What was given apart from how to report chooses no style. -/
theorem styleOf_withoutStyle (behind : Matches) :
    styleOf front behind.withoutStyle = styleOf front [] := by
  have hhas : ∀ name ∈ ReportStyle.names, behind.withoutStyle.has name = false := by
    intro name hname
    rw [Matches.has, Matches.get?, Matches.withoutStyle, Option.isSome_map, List.find?_filter,
      Option.isSome_eq_false_iff, Option.isNone_iff_eq_none, List.find?_eq_none]
    rintro entry -
    by_cases h : entry.1 = name
    · simp [h, hname]
    · simp [h]
  simp only [styleOf, hhas "quiet" (by decide), hhas "no-color" (by decide),
    hhas "json" (by decide)]
  rfl

/-- A command stays what it is without the options for how to report behind it. -/
theorem readCommand_withoutStyle (front' : Matches)
    (h : readCommand front name arguments = .ok invocation) :
    readCommand front' name (withoutStyle arguments) =
      .ok ⟨styleOf front' [], invocation.command⟩ := by
  rw [readCommand] at h ⊢
  split at h
  · rename_i entry grammar make hfind
    have hmem := List.mem_of_find?_eq_some hfind
    obtain ⟨behind, hbehind, h⟩ := bind_eq_ok_iff.mp h
    obtain ⟨command, hcommand, h⟩ := bind_eq_ok_iff.mp h
    obtain rfl := Except.ok.inj h
    refine bind_eq_ok_iff.mpr ⟨_,
      Grammar.read_withoutStyle (knowsStyle_of_mem_commands _ hmem) hbehind, ?_⟩
    rw [styleOf_withoutStyle]
    refine bind_eq_ok_iff.mpr ⟨command, ?_, rfl⟩
    rw [← hcommand]
    exact make_withoutStyle behind _ hmem
  · cases h

/-- Behind two dashes there is no command. -/
theorem readRoot_plain : readRoot front true arguments ≠ .ok invocation := by
  cases arguments with
  | nil => simp [readRoot]
  | cons argument rest => simp [readRoot]

/-- An option in front of a command that does not end the reading chooses how to report. -/
theorem of_readOption_root {p r : Grammar.Progress} {option : OptionRule}
    {attached : Option String} (hmem : option ∈ rootOptions)
    (h : Grammar.readOption p option attached = .ok r) :
    attached = none ∧ option.name ∈ ReportStyle.names ∧ option.letter = none := by
  have hroles : ∀ option ∈ rootOptions,
      option.role = .mark ∧ option.name ∈ ReportStyle.names ∧ option.letter = none ∨
        option.role = .stop .help ∨ option.role = .stop .version := by
    decide
  rcases Grammar.role_of_readOption h with ⟨hmark, hnone⟩ | ⟨rule, hrule⟩
  · rcases hroles option hmem with ⟨-, hoption⟩ | hstop | hstop
    · exact ⟨hnone, hoption⟩
    · simp [hmark] at hstop
    · simp [hmark] at hstop
  · rcases hroles option hmem with ⟨hmark, -⟩ | hstop | hstop
    · simp [hrule] at hmark
    · simp [hrule] at hstop
    · simp [hrule] at hstop

/-- In front of a command only arguments that choose how to report are read. -/
theorem mem_of_readArgument_root {progress : Grammar.Progress} (hdashes : argument ≠ "--")
    (h : rootGrammar.readArgument ⟨front, none, [], false⟩ argument = .ok progress) :
    argument ∈ ReportStyle.marks := by
  simp only [Grammar.readArgument, Bool.false_eq_true, if_false] at h
  split at h
  · rename_i hchars
    exact absurd (String.toList_injective hchars) hdashes
  · rename_i rest _ hchars
    obtain ⟨option, hmem, attached, -, hwritten, hread⟩ := Grammar.exists_option_of_readLong h
    rw [hread] at h
    obtain ⟨hnone, hname, -⟩ := of_readOption_root hmem h
    refine List.mem_map.mpr ⟨option.name, hname, String.toList_injective ?_⟩
    simp [hchars, ← hwritten hnone]
  · rename_i letter rest _ _ _
    rw [Grammar.readLetters] at h
    split at h
    · rename_i option hfind
      obtain ⟨next, hnext, -⟩ := bind_eq_ok_iff.mp h
      have hletter : option.letter = some letter := by simpa using List.find?_some hfind
      simp [(of_readOption_root (List.mem_of_find?_eq_some hfind) hnext).2.2] at hletter
    · cases h
  · simp [Grammar.readWord, Grammar.readPlace] at h

/-- An option for how to report in front of a command is found, the first time. -/
theorem readRoot_mark (hname : name ∈ ReportStyle.names) (hnew : front.has name = false) :
    readRoot front false (("--" ++ name) :: rest) =
      readRoot (front ++ [(name, "")]) false rest := by
  have hmark : rootGrammar.readArgument ⟨front, none, [], false⟩ ("--" ++ name) =
      Grammar.accept ⟨front, none, [], false⟩ name "" .text := by
    simp only [ReportStyle.names, List.mem_cons, List.not_mem_nil, or_false] at hname
    rcases hname with rfl | rfl | rfl <;> rfl
  have hread : rootGrammar.readArgument ⟨front, none, [], false⟩ ("--" ++ name) =
      .ok ⟨front ++ [(name, "")], none, [], false⟩ := by
    rw [hmark, Grammar.accept, hnew, if_neg Bool.false_ne_true]
    rfl
  obtain ⟨hdashes, hoption⟩ := ReportStyle.option_of_mem_marks _ (List.mem_map_of_mem hname)
  rw [readRoot, if_neg Bool.false_ne_true, if_neg hdashes, if_pos hoption, hread]
  rfl

/-- So are several of them. -/
theorem readRoot_marks {names : List String} (hnames : ∀ name ∈ names, name ∈ ReportStyle.names)
    (hnodup : names.Nodup) (hnew : ∀ name ∈ names, front.has name = false) :
    readRoot front false (names.map ("--" ++ ·) ++ rest) =
      readRoot (front ++ names.map (·, "")) false rest := by
  induction names generalizing front with
  | nil => simp
  | cons name names ih =>
    rw [List.forall_mem_cons] at hnames hnew
    rw [List.nodup_cons] at hnodup
    rw [List.map_cons, List.cons_append, readRoot_mark hnames.1 hnew.1,
      ih hnames.2 hnodup.2, List.append_assoc]
    · rfl
    · intro other hother
      have hne : name ≠ other := by
        rintro rfl
        exact hnodup.1 hother
      simp [Matches.has_append, hnew.2 other hother, hne]

/-- What stands in front of a command chooses a style, in any style. -/
theorem readRoot_arguments (style : ReportStyle) :
    readRoot [] false (style.arguments ++ rest) =
      readRoot (style.chosen.map (·, "")) false rest := by
  have hchosen : ∀ quiet plain json, ∀ name ∈ (⟨quiet, plain, json⟩ : ReportStyle).chosen,
      name ∈ ReportStyle.names := by
    decide
  have hnodup : ∀ quiet plain json, (⟨quiet, plain, json⟩ : ReportStyle).chosen.Nodup := by
    decide
  exact readRoot_marks (hchosen _ _ _) (hnodup _ _ _) fun _ _ => rfl

theorem styleOf_chosen (style : ReportStyle) : styleOf (style.chosen.map (·, "")) [] = style := by
  obtain ⟨quiet, plain, json⟩ := style
  revert quiet plain json
  decide

/-- The command in an invocation does not depend on the options for how to report. -/
theorem readRoot_withoutStyle (front' : Matches)
    (h : readRoot front false arguments = .ok invocation) :
    readRoot front' false (withoutStyle arguments) =
      .ok ⟨styleOf front' [], invocation.command⟩ := by
  induction arguments generalizing front with
  | nil => simp [readRoot] at h
  | cons argument rest ih =>
    simp only [readRoot, Bool.false_eq_true, if_false] at h
    rw [withoutStyle]
    split at h
    · exact absurd h readRoot_plain
    · rename_i hdashes
      rw [if_neg hdashes]
      split at h
      · obtain ⟨progress, hprogress, h⟩ := bind_eq_ok_iff.mp h
        rw [if_pos (mem_of_readArgument_root hdashes hprogress)]
        exact ih h
      · rename_i hoption
        have hstyle : argument ∉ ReportStyle.marks := by
          intro hstyle
          exact hoption (ReportStyle.option_of_mem_marks argument hstyle).2
        split at h
        · cases h
        · rename_i hhelp
          rw [if_neg hstyle, readRoot, if_neg Bool.false_ne_true, if_neg hdashes, if_neg hoption,
            if_neg hhelp]
          exact readCommand_withoutStyle front' h

/-- Every style can be chosen for the command in some arguments, whatever style they choose. -/
theorem read_arguments_withoutStyle (style : ReportStyle)
    (h : read arguments = .ok invocation) :
    read (style.arguments ++ withoutStyle arguments) = .ok ⟨style, invocation.command⟩ := by
  rw [read, readRoot_arguments, readRoot_withoutStyle _ h, styleOf_chosen]

end Invocation

end ExactEdit
