import ExactEdit.Proofs.Text.Boundary

/-! # Replacing ranges together

Several ranges of one text can be replaced at once: the text is passed from byte to byte, a new
text is put in where its range starts, and the characters of a range are left out. Nothing in this
depends on the order in which the ranges are listed. Ranges that are apart can also be replaced one
after the other, each at the place to which it was moved by those before it, and the outcome is the
same.

## Main definitions

* `ByteRange.Apart` — ranges without a common byte
* `Exchange` — a range and the text for it
* `Text.replaceTogether` — the text with all ranges replaced
* `Text.movedTo` — where an offset is after that

## Main results

* `Text.replaceTogether_perm` — ranges that are apart may be listed in any order
* `Text.replaceTogether_cut`, `Text.replaceTogether_cut_append` — replacing around one range, and
  with it
* `Text.standsAt_movedTo` — a text that is spared stands at the place it was moved to
* `Text.splice_movedTo` — one more range is replaced at the place it was moved to
-/

namespace ExactEdit

/-- Ranges without a common byte. -/
def ByteRange.Apart (a b : ByteRange) : Prop := a.stop ≤ b.start ∨ b.stop ≤ a.start

instance (a b : ByteRange) : Decidable (a.Apart b) :=
  inferInstanceAs (Decidable (a.stop ≤ b.start ∨ b.stop ≤ a.start))

theorem ByteRange.Apart.symm {a b : ByteRange} (h : a.Apart b) : b.Apart a := Or.symm h

/-- A range and the text for it. -/
structure Exchange where
  range : ByteRange
  new : List Char
  deriving DecidableEq, Repr, Inhabited

namespace Text

variable {exchanges others : List Exchange} {exchange : Exchange} {offset stop : Nat}
variable {chars before old after : List Char}

/-- What is put in at a byte. -/
def putInAt (exchanges : List Exchange) (offset : Nat) : List Char :=
  ((exchanges.find? fun exchange => exchange.range.start == offset).map (·.new)).getD []

/-- Whether the character at a byte is left out. -/
def leftOutAt (exchanges : List Exchange) (offset : Nat) : Bool :=
  exchanges.any fun exchange => exchange.range.start ≤ offset && offset < exchange.range.stop

/-- The characters that start at byte `offset`, with the ranges replaced. -/
def replaceFrom (exchanges : List Exchange) (offset : Nat) : List Char → List Char
  | [] => []
  | c :: rest =>
    putInAt exchanges offset ++ ((if leftOutAt exchanges offset then [] else [c]) ++
      replaceFrom exchanges (offset + c.utf8Size) rest)

/-- The text with all ranges replaced. -/
def replaceTogether (exchanges : List Exchange) (chars : List Char) : List Char :=
  replaceFrom exchanges 0 chars

/-- Where an offset is after the ranges were replaced: behind what became of the text before it. -/
def movedTo (exchanges : List Exchange) (chars : List Char) (offset : Nat) : Nat :=
  width (replaceTogether exchanges (takeBytes offset chars))

/-- The ranges are not empty, and none of their bytes is among those from `offset` to `stop`. -/
def Spares (exchanges : List Exchange) (offset stop : Nat) : Prop :=
  ∀ exchange ∈ exchanges, exchange.range.start < exchange.range.stop ∧
    exchange.range.Apart ⟨offset, stop⟩

/-! ## Byte by byte -/

theorem replaceFrom_append (exchanges : List Exchange) (offset : Nat) (before after : List Char) :
    replaceFrom exchanges offset (before ++ after) =
      replaceFrom exchanges offset before ++
        replaceFrom exchanges (offset + width before) after := by
  induction before generalizing offset with
  | nil => simp [replaceFrom]
  | cons c rest ih => simp [replaceFrom, ih, Nat.add_assoc]

/-- Only what the ranges say of the bytes of a text counts. -/
theorem replaceFrom_congr
    (h : ∀ byte, offset ≤ byte → byte < offset + width chars →
      putInAt exchanges byte = putInAt others byte ∧
        leftOutAt exchanges byte = leftOutAt others byte) :
    replaceFrom exchanges offset chars = replaceFrom others offset chars := by
  induction chars generalizing offset with
  | nil => rfl
  | cons c rest ih =>
    have hpos := c.utf8Size_pos
    rw [width_cons] at h
    obtain ⟨hput, hleft⟩ := h offset (Nat.le_refl _) (by omega)
    rw [replaceFrom, replaceFrom, hput, hleft, ih fun byte hle hlt => h byte (by omega) (by omega)]

theorem replaceFrom_nil (offset : Nat) (chars : List Char) : replaceFrom [] offset chars = chars := by
  induction chars generalizing offset with
  | nil => rfl
  | cons c rest ih => simp [replaceFrom, putInAt, leftOutAt, ih]

namespace Spares

variable (h : Spares exchanges offset stop)
include h

theorem find?_eq_none {byte : Nat} (hle : offset ≤ byte) (hlt : byte < stop) :
    exchanges.find? (fun exchange => exchange.range.start == byte) = none := by
  rw [List.find?_eq_none]
  intro exchange hmem hstart
  -- A range is not empty, so it would take the byte it starts at.
  obtain ⟨hpos, hapart⟩ := h exchange hmem
  rw [beq_iff_eq] at hstart
  rcases hapart with hbefore | hbehind
  · simp only at hbefore
    omega
  · simp only at hbehind
    omega

theorem putInAt_eq {byte : Nat} (hle : offset ≤ byte) (hlt : byte < stop) :
    putInAt exchanges byte = [] := by
  rw [putInAt, h.find?_eq_none hle hlt]
  rfl

theorem leftOutAt_eq {byte : Nat} (hle : offset ≤ byte) (hlt : byte < stop) :
    leftOutAt exchanges byte = false := by
  rw [leftOutAt, List.any_eq_false]
  intro exchange hmem hinside
  obtain ⟨hpos, hapart⟩ := h exchange hmem
  rw [Bool.and_eq_true, decide_eq_true_eq, decide_eq_true_eq] at hinside
  rcases hapart with hbefore | hbehind
  · simp only at hbefore
    omega
  · simp only at hbehind
    omega

/-- A text that no range takes from stays as it is. -/
theorem replaceFrom_eq (hstop : stop = offset + width chars) :
    replaceFrom exchanges offset chars = chars := by
  have hnone : replaceFrom exchanges offset chars = replaceFrom [] offset chars := by
    apply replaceFrom_congr
    intro byte hle hlt
    rw [h.putInAt_eq hle (by omega), h.leftOutAt_eq hle (by omega)]
    exact ⟨rfl, rfl⟩
  rw [hnone, replaceFrom_nil]

end Spares

/-- A range has no say in a text that is apart from it. -/
theorem replaceFrom_append_of_apart (hpos : exchange.range.start < exchange.range.stop)
    (hapart : exchange.range.Apart ⟨offset, offset + width chars⟩) :
    replaceFrom (exchanges ++ [exchange]) offset chars = replaceFrom exchanges offset chars := by
  have hspares : Spares [exchange] offset (offset + width chars) := by
    intro other hmem
    obtain rfl := List.mem_singleton.mp hmem
    exact ⟨hpos, hapart⟩
  apply replaceFrom_congr
  intro byte hle hlt
  constructor
  · rw [putInAt, List.find?_append, hspares.find?_eq_none hle hlt, Option.or_none, putInAt]
  · rw [leftOutAt, List.any_append, ← leftOutAt, ← leftOutAt, hspares.leftOutAt_eq hle hlt,
      Bool.or_false]

/-! ## The order of the ranges -/

theorem putInAt_eq_of_mem (hpos : ∀ exchange ∈ exchanges, exchange.range.start < exchange.range.stop)
    (hapart : exchanges.Pairwise fun a b => a.range.Apart b.range) (hmem : exchange ∈ exchanges) :
    putInAt exchanges exchange.range.start = exchange.new := by
  induction exchanges with
  | nil => cases hmem
  | cons first rest ih =>
    obtain ⟨hfirst, hrest⟩ := List.pairwise_cons.mp hapart
    rcases List.mem_cons.mp hmem with rfl | htail
    · rw [putInAt, List.find?_cons_of_pos (by simp)]
      rfl
    · -- The first range starts elsewhere, since neither of the two is empty.
      have hdifferent : first.range.start ≠ exchange.range.start := by
        have hfirstPos := hpos first List.mem_cons_self
        have hexchangePos := hpos exchange hmem
        rcases hfirst exchange htail with hbefore | hbehind
        · omega
        · omega
      rw [putInAt, List.find?_cons_of_neg (by simpa using hdifferent), ← putInAt]
      exact ih (fun other hother => hpos other (List.mem_cons_of_mem _ hother)) hrest htail

/-- Ranges that are apart may be listed in any order. -/
theorem replaceTogether_perm (hperm : exchanges.Perm others)
    (hpos : ∀ exchange ∈ exchanges, exchange.range.start < exchange.range.stop)
    (hapart : exchanges.Pairwise fun a b => a.range.Apart b.range) (chars : List Char) :
    replaceTogether exchanges chars = replaceTogether others chars := by
  have hapart' : others.Pairwise fun a b => a.range.Apart b.range :=
    (hperm.pairwise_iff fun {_ _} h => h.symm).mp hapart
  apply replaceFrom_congr
  intro byte _ _
  constructor
  · -- At most one range starts at a byte, and what it puts in does not depend on the order.
    by_cases hstarts : ∃ exchange ∈ exchanges, exchange.range.start = byte
    · obtain ⟨exchange, hmem, rfl⟩ := hstarts
      rw [putInAt_eq_of_mem hpos hapart hmem, putInAt_eq_of_mem
        (fun other hother => hpos other (hperm.mem_iff.mpr hother)) hapart'
        (hperm.mem_iff.mp hmem)]
    · have hnone : ∀ list : List Exchange, (∀ exchange ∈ list, exchange ∈ exchanges) →
          putInAt list byte = [] := by
        intro list hsub
        rw [putInAt, List.find?_eq_none.mpr fun exchange hmem hstart =>
          hstarts ⟨exchange, hsub exchange hmem, by simpa using hstart⟩]
        rfl
      rw [hnone exchanges fun _ h => h, hnone others fun _ h => hperm.mem_iff.mpr h]
  · rw [Bool.eq_iff_iff, leftOutAt, leftOutAt, List.any_eq_true, List.any_eq_true]
    exact exists_congr fun exchange => and_congr_left fun _ => hperm.mem_iff

/-! ## The text of a range -/

theorem leftOutAt_append_of_mem (hle : exchange.range.start ≤ offset)
    (hlt : offset < exchange.range.stop) : leftOutAt (exchanges ++ [exchange]) offset = true := by
  rw [leftOutAt, List.any_append, Bool.or_eq_true]
  refine .inr ?_
  simp [hle, hlt]

/-- Behind its first character a range leaves nothing. -/
theorem replaceFrom_behind_start (hspares : Spares exchanges exchange.range.start exchange.range.stop)
    (hgt : exchange.range.start < offset) (hle : offset + width chars ≤ exchange.range.stop) :
    replaceFrom (exchanges ++ [exchange]) offset chars = [] := by
  induction chars generalizing offset with
  | nil => rfl
  | cons c rest ih =>
    have hpos := c.utf8Size_pos
    rw [width_cons] at hle
    -- No range starts behind the start of this one and before its end.
    have hput : putInAt (exchanges ++ [exchange]) offset = [] := by
      rw [putInAt, List.find?_append, hspares.find?_eq_none (by omega) (by omega), Option.none_or,
        List.find?_cons_of_neg (by simp; omega)]
      rfl
    rw [replaceFrom, hput, leftOutAt_append_of_mem (by omega) (by omega),
      ih (by omega) (by omega)]
    rfl

/-- The text of a range becomes the new text. -/
theorem replaceFrom_own (hne : old ≠ [])
    (hspares : Spares exchanges exchange.range.start exchange.range.stop)
    (hstop : exchange.range.stop = exchange.range.start + width old) :
    replaceFrom (exchanges ++ [exchange]) exchange.range.start old = exchange.new := by
  -- The new text is put in at the first character, and the others are left out.
  cases old with
  | nil => exact absurd rfl hne
  | cons c rest =>
    have hpos := c.utf8Size_pos
    rw [width_cons] at hstop
    have hput : putInAt (exchanges ++ [exchange]) exchange.range.start = exchange.new := by
      rw [putInAt, List.find?_append, hspares.find?_eq_none (Nat.le_refl _) (by omega),
        Option.none_or, List.find?_cons_of_pos (by simp)]
      rfl
    rw [replaceFrom, hput, leftOutAt_append_of_mem (Nat.le_refl _) (by omega),
      replaceFrom_behind_start hspares (by omega) (by omega)]
    simp

/-! ## One range more -/

/-- Replacing around a piece of the text that is spared. -/
theorem replaceTogether_cut
    (hspares : Spares exchanges (width before) (width before + width old)) :
    replaceTogether exchanges (before ++ (old ++ after)) =
      replaceTogether exchanges before ++
        (old ++ replaceFrom exchanges (width before + width old) after) := by
  rw [replaceTogether, replaceTogether, replaceFrom_append, replaceFrom_append, Nat.zero_add,
    hspares.replaceFrom_eq rfl]

/-- Replacing the piece too exchanges it, and changes nothing around it. -/
theorem replaceTogether_cut_append (hne : old ≠ [])
    (hrange : exchange.range = ⟨width before, width before + width old⟩)
    (hspares : Spares exchanges (width before) (width before + width old)) :
    replaceTogether (exchanges ++ [exchange]) (before ++ (old ++ after)) =
      replaceTogether exchanges before ++
        (exchange.new ++ replaceFrom exchanges (width before + width old) after) := by
  have hpos : exchange.range.start < exchange.range.stop := by
    have := width_pos_of_ne_nil hne
    rw [hrange]
    simp only
    omega
  have hown : replaceFrom (exchanges ++ [exchange]) exchange.range.start old = exchange.new :=
    replaceFrom_own hne (by rw [hrange]; exact hspares) (by rw [hrange])
  rw [hrange] at hown
  -- Both sides are apart from the range, so it changes nothing in them.
  rw [replaceTogether, replaceTogether, replaceFrom_append, replaceFrom_append, Nat.zero_add, hown,
    replaceFrom_append_of_apart hpos (.inr (by rw [hrange]; simp)),
    replaceFrom_append_of_apart hpos (.inl (Nat.le_of_eq (by rw [hrange])))]

/-- In front of all ranges nothing changes. -/
theorem replaceTogether_front (before after : List Char)
    (hspares : Spares exchanges 0 (width before)) :
    replaceTogether exchanges (before ++ after) =
      before ++ replaceFrom exchanges (width before) after := by
  rw [replaceTogether, replaceFrom_append, hspares.replaceFrom_eq (Nat.zero_add _).symm,
    Nat.zero_add]

theorem movedTo_append : movedTo exchanges (before ++ after) (width before) =
    width (replaceTogether exchanges before) := by
  rw [movedTo, takeBytes_append]

/-- A text that is spared stands at the place it was moved to. -/
theorem standsAt_movedTo (hstands : StandsAt old offset chars)
    (hspares : Spares exchanges offset (offset + width old)) :
    StandsAt old (movedTo exchanges chars offset) (replaceTogether exchanges chars) := by
  obtain ⟨before, after, rfl, rfl⟩ := hstands
  rw [movedTo_append, replaceTogether_cut hspares]
  exact standsAt_append _ _ _

/-- One more range is replaced at the place it was moved to. -/
theorem splice_movedTo (hne : old ≠ []) (hstands : StandsAt old exchange.range.start chars)
    (hstop : exchange.range.stop = exchange.range.start + width old)
    (hspares : Spares exchanges exchange.range.start exchange.range.stop) :
    splice ⟨movedTo exchanges chars exchange.range.start,
        movedTo exchanges chars exchange.range.start + width old⟩ exchange.new
      (replaceTogether exchanges chars) = replaceTogether (exchanges ++ [exchange]) chars := by
  obtain ⟨before, after, rfl, hstart⟩ := hstands
  rw [hstop, ← hstart] at hspares
  rw [← hstart, movedTo_append, replaceTogether_cut hspares, splice_append,
    replaceTogether_cut_append hne _ hspares]
  rw [hstart, ← hstop]

end Text

end ExactEdit
