import ExactEdit.Proofs.Text.Match

/-! # Texts as bytes

Outside of this library a text is a run of bytes, and a search compares bytes. The bytes of a
pattern begin with the first byte of a character, and no later byte of any character is such a
byte, so wherever they stand among the bytes of a text they stand between characters, and there the
characters of the pattern stand. Matching characters and matching bytes therefore find the same
places. A line feed is the one byte of one character and part of no other, so lines can be counted
in bytes as well.

## Main definitions

* `Text.bytes` — the bytes of a text
* `Text.LeftmostBytes` — the leftmost non-overlapping matches of one run of bytes in another
* `Text.lineOfByte` — the line of a byte, told by the line feeds in front of it

## Main results

* `Text.bytes_prefix_drop_iff` — the bytes of a pattern stand where the pattern stands
* `Text.leftmostBytes_iff` — bytes and characters have the same leftmost matches
* `Text.lineOfByte_front`, `Text.lineOfByte_last` — the lines of the first byte behind a front and
  of the last byte of a character
-/

namespace ExactEdit.Text

variable {pattern chars front back : List Char} {c : Char} {start p : Nat} {found : List Nat}

/-- The bytes of a text. -/
def bytes (chars : List Char) : List UInt8 := chars.flatMap String.utf8EncodeChar

/-- They are those of the string. -/
theorem toList_data_toUTF8 (text : String) : text.toUTF8.data.toList = bytes text.toList := by
  rw [String.toUTF8_eq_toByteArray, ← String.utf8Encode_toList]
  exact List.toList_data_toByteArray

@[simp] theorem bytes_nil : bytes [] = [] := rfl

@[simp] theorem bytes_cons (c : Char) (rest : List Char) :
    bytes (c :: rest) = String.utf8EncodeChar c ++ bytes rest := rfl

@[simp] theorem bytes_append (front back : List Char) :
    bytes (front ++ back) = bytes front ++ bytes back :=
  List.flatMap_append

@[simp] theorem length_bytes (chars : List Char) : (bytes chars).length = width chars := by
  induction chars with
  | nil => rfl
  | cons c rest ih => simp [ih]

/-! ## Where bytes stand -/

/-- A byte that begins a character has whole characters in front of it. -/
theorem exists_cut_of_isUTF8FirstByte {before after : List UInt8} {first : UInt8}
    (hfirst : first.IsUTF8FirstByte) (h : bytes chars = before ++ first :: after) :
    ∃ front back, chars = front ++ back ∧ bytes front = before := by
  induction chars generalizing before with
  | nil => simp at h
  | cons c rest ih =>
    rw [bytes_cons] at h
    rcases List.append_eq_append_iff.mp h with ⟨more, rfl, hmore⟩ | ⟨more, hc, hmore⟩
    · obtain ⟨front, back, rfl, rfl⟩ := ih hmore
      exact ⟨c :: front, back, rfl, rfl⟩
    · cases more with
      | nil => exact ⟨[c], rest, rfl, by simpa using hc⟩
      | cons byte more =>
        -- The byte is one of this character, so it is the first of them.
        obtain ⟨rfl, -⟩ := List.cons.inj hmore
        have hlt : before.length < (String.utf8EncodeChar c).length := by simp [hc]
        have hbyte : (String.utf8EncodeChar c)[before.length].IsUTF8FirstByte := by
          simpa [hc] using hfirst
        rw [UInt8.isUTF8FirstByte_getElem_utf8EncodeChar, List.length_eq_zero_iff] at hbyte
        exact ⟨[], c :: rest, rfl, hbyte.symm⟩

/-- A text whose bytes begin with those of a pattern begins with the pattern. -/
theorem isPrefix_of_bytes_isPrefix (h : bytes pattern <+: bytes chars) : pattern <+: chars := by
  obtain ⟨after, hafter⟩ := h
  refine List.isPrefix_of_utf8Encode_append_eq_utf8Encode after.toByteArray ?_
  have harrays := congrArg List.toByteArray hafter
  rw [List.toByteArray_append] at harrays
  exact harrays

/-- The bytes of a pattern stand in a text between the bytes of whole characters. -/
theorem exists_cut_of_bytes {before after : List UInt8} (hne : pattern ≠ [])
    (h : bytes chars = before ++ (bytes pattern ++ after)) :
    ∃ front back, chars = front ++ (pattern ++ back) ∧ bytes front = before := by
  -- The pattern begins with a character, and that with the first of its bytes.
  obtain ⟨c, rest, rfl⟩ := List.exists_cons_of_ne_nil hne
  have hc := UInt8.isUTF8FirstByte_getElem_zero_utf8EncodeChar (c := c)
  obtain ⟨first, more, hfirst⟩ :=
    List.exists_cons_of_ne_nil (String.utf8EncodeChar_ne_nil (c := c))
  simp only [hfirst, List.getElem_cons_zero] at hc
  have hcut : bytes chars = before ++ first :: (more ++ (bytes rest ++ after)) := by
    rw [h, bytes_cons, hfirst]
    simp
  obtain ⟨front, back, rfl, rfl⟩ := exists_cut_of_isUTF8FirstByte hc hcut
  rw [bytes_append] at h
  obtain ⟨behind, rfl⟩ := isPrefix_of_bytes_isPrefix ⟨after, (List.append_cancel_left h).symm⟩
  exact ⟨front, behind, rfl, rfl⟩

/-- The bytes of a pattern stand among those of a text where the pattern stands in the text. -/
theorem bytes_prefix_drop_iff (hne : pattern ≠ []) :
    bytes pattern <+: (bytes chars).drop p ↔ StandsAt pattern p chars := by
  constructor
  · rintro ⟨after, hafter⟩
    have hbytes : bytes chars = (bytes chars).take p ++ (bytes pattern ++ after) := by
      rw [hafter, List.take_append_drop]
    obtain ⟨front, back, rfl, hfront⟩ := exists_cut_of_bytes hne hbytes
    refine ⟨front, back, rfl, ?_⟩
    rw [← length_bytes, hfront, List.length_take, Nat.min_eq_left]
    -- Behind the end of the text nothing stands.
    by_contra hgt
    rw [List.drop_of_length_le (by omega), List.append_eq_nil_iff] at hafter
    have hpos := width_pos_of_ne_nil hne
    rw [← length_bytes, hafter.1] at hpos
    exact absurd hpos (Nat.lt_irrefl 0)
  · rintro ⟨before, after, rfl, rfl⟩
    rw [← length_bytes, bytes_append, List.drop_left, bytes_append]
    exact List.prefix_append _ _

/-! ## Matches among bytes -/

/-- The offsets of the matches that a reader takes who goes through some bytes from byte `start` on
and behind each match goes on after it. -/
inductive LeftmostBytes (pattern bytes : List UInt8) : Nat → List Nat → Prop
  | done {start : Nat} (none : ∀ p, start ≤ p → ¬ pattern <+: bytes.drop p) :
      LeftmostBytes pattern bytes start []
  | take {start p : Nat} {found : List Nat} (le : start ≤ p) (stands : pattern <+: bytes.drop p)
      (first : ∀ q, start ≤ q → q < p → ¬ pattern <+: bytes.drop q)
      (behind : LeftmostBytes pattern bytes (p + pattern.length) found) :
      LeftmostBytes pattern bytes start (p :: found)

/-- The leftmost matches among the bytes of a text are those in the text. -/
theorem leftmostBytes_iff (hne : pattern ≠ []) :
    LeftmostBytes (bytes pattern) (bytes chars) start found ↔
      Leftmost pattern chars start found := by
  constructor
  · intro h
    induction h with
    | done none =>
      exact .done fun p hp hstands => none p hp ((bytes_prefix_drop_iff hne).mpr hstands)
    | take le stands first _ ih =>
      rw [length_bytes] at ih
      refine .take le ((bytes_prefix_drop_iff hne).mp stands) ?_ ih
      intro q hq hlt hstands
      exact first q hq hlt ((bytes_prefix_drop_iff hne).mpr hstands)
  · intro h
    induction h with
    | done none =>
      exact .done fun p hp hstands => none p hp ((bytes_prefix_drop_iff hne).mp hstands)
    | take le stands first _ ih =>
      rw [← length_bytes] at ih
      refine .take le ((bytes_prefix_drop_iff hne).mpr stands) ?_ ih
      intro q hq hlt hstands
      exact first q hq hlt ((bytes_prefix_drop_iff hne).mp hstands)

/-! ## Line feeds among bytes -/

/-- The byte of a line feed. -/
def feedByte : UInt8 := 0x0A

/-- The line of a byte: the line feeds in front of it lead there. -/
def lineOfByte (bytes : List UInt8) (offset : Nat) : Nat := (bytes.take offset).count feedByte + 1

/-- A byte with the upper bit set is no line feed. -/
theorem or_ne_feedByte (x bits : UInt8) (h : feedByte.toNat < bits.toNat) :
    x ||| bits ≠ feedByte := by
  intro heq
  have hle : bits.toNat ≤ (x ||| bits).toNat := by
    rw [UInt8.toNat_or]
    exact Nat.right_le_or
  rw [heq] at hle
  omega

/-- Only a line feed has its byte. -/
theorem feedByte_notMem_utf8EncodeChar (hc : c ≠ '\n') :
    feedByte ∉ String.utf8EncodeChar c := by
  rcases Char.utf8Size_eq c with h | h | h | h
  · -- In one byte a character has its own number.
    rw [String.utf8EncodeChar_eq_singleton h, List.mem_singleton]
    intro hbyte
    have hsmall := UInt32.le_iff_toNat_le.mp (Char.utf8Size_eq_one_iff.mp h)
    have hnumber := congrArg UInt8.toNat hbyte
    have hten : feedByte.toNat = 10 := rfl
    have hbound : (127 : UInt32).toNat = 127 := rfl
    rw [UInt32.toNat_toUInt8, hten, Nat.mod_eq_of_lt (by omega)] at hnumber
    exact hc (Char.ext (UInt32.toNat_inj.mp hnumber.symm))
  -- In more than one, each byte has the upper bit set.
  · rw [String.utf8EncodeChar_eq_cons_cons h]
    simp only [List.mem_cons, List.not_mem_nil, or_false, not_or]
    exact ⟨(or_ne_feedByte _ _ (by decide)).symm, (or_ne_feedByte _ _ (by decide)).symm⟩
  · rw [String.utf8EncodeChar_eq_cons_cons_cons h]
    simp only [List.mem_cons, List.not_mem_nil, or_false, not_or]
    exact ⟨(or_ne_feedByte _ _ (by decide)).symm, (or_ne_feedByte _ _ (by decide)).symm,
      (or_ne_feedByte _ _ (by decide)).symm⟩
  · rw [String.utf8EncodeChar_eq_cons_cons_cons_cons h]
    simp only [List.mem_cons, List.not_mem_nil, or_false, not_or]
    exact ⟨(or_ne_feedByte _ _ (by decide)).symm, (or_ne_feedByte _ _ (by decide)).symm,
      (or_ne_feedByte _ _ (by decide)).symm, (or_ne_feedByte _ _ (by decide)).symm⟩

theorem count_bytes (chars : List Char) : (bytes chars).count feedByte = chars.count '\n' := by
  induction chars with
  | nil => rfl
  | cons c rest ih =>
    rw [bytes_cons, List.count_append, ih]
    by_cases hc : c = '\n'
    · subst hc
      rw [List.count_cons_self, Nat.add_comm]
      rfl
    · rw [List.count_eq_zero_of_not_mem (feedByte_notMem_utf8EncodeChar hc),
        List.count_cons_of_ne hc, Nat.zero_add]

/-- The byte behind a front is on the line that the feeds of the front lead to. -/
theorem lineOfByte_front (front back : List Char) :
    lineOfByte (bytes (front ++ back)) (width front) = front.count '\n' + 1 := by
  rw [lineOfByte, bytes_append, ← length_bytes, List.take_left, count_bytes]

/-- The last byte of a character is on the same line as its first. -/
theorem lineOfByte_last (front : List Char) (c : Char) (back : List Char) :
    lineOfByte (bytes (front ++ c :: back)) (width front + c.utf8Size - 1) =
      front.count '\n' + 1 := by
  have hpos := c.utf8Size_pos
  have htake : (bytes (front ++ c :: back)).take (width front + c.utf8Size - 1) =
      bytes front ++ (String.utf8EncodeChar c).dropLast := by
    rw [bytes_append, bytes_cons, ← length_bytes, Nat.add_sub_assoc hpos,
      List.take_length_add_append, List.take_append_of_le_length (by simp),
      List.dropLast_eq_take, String.length_utf8EncodeChar]
  have hlast : (String.utf8EncodeChar c).dropLast.count feedByte = 0 := by
    by_cases hc : c = '\n'
    · subst hc
      rfl
    · refine List.count_eq_zero_of_not_mem fun hmem => ?_
      exact feedByte_notMem_utf8EncodeChar hc (List.dropLast_subset _ hmem)
  rw [lineOfByte, htake, List.count_append, hlast, count_bytes, Nat.add_zero]

end ExactEdit.Text
