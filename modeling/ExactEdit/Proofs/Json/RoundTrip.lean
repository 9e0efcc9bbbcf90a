import ExactEdit.Json.Reader
import ExactEdit.Json.Writer
import Mathlib.Data.List.Basic

/-! # Reading what was written

The writer puts a value on one line, and the reader gives it back. This is not true of every value,
as a number can hold anything. But strings and constants *read back*, and an array or an object does
if its parts do, so a record is known to read back once its fields are.

The reader gives up when its bound on calls inside each other is used up. There is a call for each
value and one for each item or member, and each of these has a character of its own, so twice the
number of characters is enough.

## Main definitions

* `JsonValue.ReadsBack` — what is written of a value is read as that value

## Main results

* `JsonValue.readString_escaped` — a string survives its escapes
* `JsonValue.ReadsBack.array`, `JsonValue.ReadsBack.object` — what is made of values that read back
* `JsonValue.ReadsBack.read?_compact` — what is written of such a value, as a whole text
-/

namespace ExactEdit.JsonValue

variable {value : JsonValue} {items : List JsonValue} {members : List (String × JsonValue)}
variable {chars rest : List Char} {seen : Option (List Char)} {c : Char} {fuel : Nat}

/-! ## Strings -/

theorem hexUnit?_hexDigit :
    ∀ n < 32, hexUnit? '0' '0' (hexDigit (n / 16)) (hexDigit (n % 16)) = some n := by
  decide

theorem readString_letter (letter : Char) (hletter : letter ≠ 'u')
    (hescaped : escapedChar? letter = some c) :
    readString seen ('\\' :: letter :: rest) = readString (pushChar c seen) rest := by
  rw [readString]
  · rw [hescaped]
  · simp [hletter]

/-- A control character is no half of a surrogate pair. -/
theorem readString_control (hcontrol : c.toNat < 0x20) :
    readString seen ('\\' :: 'u' :: '0' :: '0' :: hexDigit (c.toNat / 16) ::
      hexDigit (c.toNat % 16) :: rest) = readString (pushChar c seen) rest := by
  have hhigh : isHighSurrogate c.toNat = false := by
    simp only [isHighSurrogate, Bool.and_eq_false_iff, decide_eq_false_iff_not]
    omega
  have hlow : isLowSurrogate c.toNat = false := by
    simp only [isLowSurrogate, Bool.and_eq_false_iff, decide_eq_false_iff_not]
    omega
  rw [readString, hexUnit?_hexDigit c.toNat hcontrol]
  simp [hhigh, hlow]

theorem readString_plain (hquote : c ≠ '"') (hslash : c ≠ '\\') (hcontrol : ¬ c.toNat < 0x20) :
    readString seen (c :: rest) = readString (pushChar c seen) rest := by
  rw [readString]
  · rw [if_neg hcontrol]
  · exact hquote
  · simp [hslash]
  · simp [hslash]

/-- A character is read from its escape. -/
theorem readString_escapeChar (c : Char) (rest : List Char) :
    readString seen (escapeChar c ++ rest) = readString (pushChar c seen) rest := by
  rw [escapeChar.eq_def]
  split
  · exact readString_letter '"' (by decide) rfl
  · exact readString_letter '\\' (by decide) rfl
  · exact readString_letter 'b' (by decide) rfl
  · exact readString_letter 't' (by decide) rfl
  · exact readString_letter 'n' (by decide) rfl
  · exact readString_letter 'f' (by decide) rfl
  · exact readString_letter 'r' (by decide) rfl
  · rename_i hquote hslash _ _ _ _ _
    split
    · rename_i hcontrol
      exact readString_control hcontrol
    · rename_i hcontrol
      exact readString_plain hquote hslash hcontrol

/-- The characters of a string are read from their escapes, behind those that were read before. -/
theorem readString_escaped (front chars rest : List Char) :
    readString (some front) (chars.flatMap escapeChar ++ '"' :: rest) =
      some (string (String.ofList (front.reverse ++ chars)), rest) := by
  induction chars generalizing front with
  | nil => simp [readString, stringValue]
  | cons c chars ih =>
    rw [List.flatMap_cons, List.append_assoc, readString_escapeChar]
    simpa [pushChar] using ih (c :: front)

/-- A quoted string is read as that string, once its first quote is. -/
theorem readString_quote (s : String) (rest : List Char) :
    ∃ quoted, (quote s).toList = '"' :: quoted ∧
      readString (some []) (quoted ++ rest) = some (string s, rest) := by
  refine ⟨s.toList.flatMap escapeChar ++ ['"'], by simp [quote, quoteChars], ?_⟩
  simpa using readString_escaped [] s.toList rest

/-! ## Values -/

/-- What is written of a value is read as that value, whatever follows, with twice as many calls as
characters. It starts like a value: with no blank, and not with the end of an array. -/
structure ReadsBack (value : JsonValue) : Prop where
  head : ∃ c tail, value.compact.toList = c :: tail ∧ c ≠ ']' ∧
    ∀ rest, skipBlanks (c :: rest) = c :: rest
  read : ∀ fuel rest, 2 * value.compact.toList.length ≤ fuel →
    readValue fuel (value.compact.toList ++ rest) = some (value, rest)

namespace ReadsBack

theorem bool (value : Bool) : ReadsBack (bool value) := by
  constructor
  · cases value with
    | false => exact ⟨'f', _, rfl, by decide, fun _ => rfl⟩
    | true => exact ⟨'t', _, rfl, by decide, fun _ => rfl⟩
  · intro fuel rest hfuel
    cases fuel with
    | zero => cases value <;> simp [compact] at hfuel
    | succ fuel => cases value <;> rfl

theorem string (value : String) : ReadsBack (string value) := by
  have hcompact : (JsonValue.string value).compact = quote value := by rw [compact]
  constructor
  · obtain ⟨quoted, hquoted, -⟩ := readString_quote value []
    exact ⟨'"', quoted, hcompact ▸ hquoted, by decide, fun _ => rfl⟩
  · intro fuel rest hfuel
    obtain ⟨quoted, hquoted, hread⟩ := readString_quote value rest
    rw [hcompact, hquoted] at hfuel ⊢
    cases fuel with
    | zero => simp at hfuel
    | succ fuel => exact hread

end ReadsBack

/-! ## Arrays -/

/-- Items with commas between them are read up to the end of their array. -/
theorem readItems_compactItems (hitems : ∀ item ∈ items, ReadsBack item) (hne : items ≠ [])
    (seen : List JsonValue) (rest : List Char) (fuel : Nat)
    (hfuel : 2 * (compactItems items).toList.length < fuel) :
    readItems fuel seen ((compactItems items).toList ++ ']' :: rest) =
      some (array (seen.reverse ++ items), rest) := by
  induction items generalizing seen fuel with
  | nil => exact absurd rfl hne
  | cons item more ih =>
    rw [List.forall_mem_cons] at hitems
    obtain ⟨fuel, rfl⟩ := Nat.exists_eq_succ_of_ne_zero (Nat.ne_zero_of_lt hfuel)
    cases more with
    | nil =>
      rw [compactItems] at hfuel ⊢
      rw [readItems, hitems.1.read fuel _ (by omega)]
      simp [skipBlanks]
    | cons next more =>
      have hcompact : (compactItems (item :: next :: more)).toList =
          item.compact.toList ++ ',' :: (compactItems (next :: more)).toList := by
        simp [compactItems]
      rw [hcompact, List.length_append, List.length_cons] at hfuel
      rw [hcompact, List.append_assoc, readItems, hitems.1.read fuel _ (by omega)]
      simpa [skipBlanks] using
        ih hitems.2 (List.cons_ne_nil _ _) (item :: seen) fuel (by omega)

/-- Items start as the first of them does. -/
theorem exists_head_compactItems {item : JsonValue} (hitem : ReadsBack item)
    (more : List JsonValue) : ∃ c tail, (compactItems (item :: more)).toList = c :: tail ∧
      c ≠ ']' ∧ ∀ rest, skipBlanks (c :: rest) = c :: rest := by
  obtain ⟨c, tail, hcompact, hc, hskip⟩ := hitem.head
  cases more with
  | nil => exact ⟨c, tail, by rw [compactItems, hcompact], hc, hskip⟩
  | cons next more =>
    refine ⟨c, tail ++ ',' :: (compactItems (next :: more)).toList, ?_, hc, hskip⟩
    simp [compactItems, hcompact]

/-- An array is read back if its items are. -/
theorem ReadsBack.array (hitems : ∀ item ∈ items, ReadsBack item) : ReadsBack (array items) := by
  have hcompact : (JsonValue.array items).compact.toList =
      '[' :: ((compactItems items).toList ++ [']']) := by
    simp [compact]
  refine ⟨⟨'[', _, hcompact, by decide, fun _ => rfl⟩, fun fuel rest hfuel => ?_⟩
  rw [hcompact, List.length_cons, List.length_append] at hfuel
  rw [hcompact, List.cons_append, List.append_assoc, List.singleton_append]
  obtain ⟨fuel, rfl⟩ := Nat.exists_eq_succ_of_ne_zero (show fuel ≠ 0 by omega)
  cases items with
  | nil => rfl
  | cons item more =>
    have hread := readItems_compactItems hitems (List.cons_ne_nil item more) [] rest fuel
      (by omega)
    obtain ⟨c, tail, hhead, hc, hskip⟩ :=
      exists_head_compactItems (hitems item List.mem_cons_self) more
    rw [hhead, List.cons_append] at hread ⊢
    -- The first item does not start like the end of the array.
    rw [readValue, show ∀ rest, skipBlanks ('[' :: rest) = '[' :: rest from fun _ => rfl]
    simp only [hskip]
    split
    · rename_i heq
      exact absurd (List.cons.inj heq).1 hc
    · exact hread

/-! ## Objects -/

/-- A member is read up to what follows its value. -/
theorem readMembers_member {name : String} (hvalue : ReadsBack value)
    (seen : List (String × JsonValue)) (rest : List Char) (fuel : Nat)
    (hfuel : 2 * value.compact.toList.length ≤ fuel) :
    readMembers (fuel + 1) (some seen)
        ((quote name).toList ++ ':' :: (value.compact.toList ++ rest)) =
      match skipBlanks rest with
      | ',' :: rest => readMembers fuel (some ((name, value) :: seen)) rest
      | '\x7d' :: rest => some (object (seen.reverse ++ [(name, value)]), rest)
      | _ => none := by
  obtain ⟨quoted, hquoted, hread⟩ := readString_quote name (':' :: (value.compact.toList ++ rest))
  rw [← List.reverse_cons, hquoted, List.cons_append, readMembers,
    show ∀ rest, skipBlanks ('"' :: rest) = '"' :: rest from fun _ => rfl]
  simp only [hread, hvalue.read fuel rest hfuel,
    show ∀ rest, skipBlanks (':' :: rest) = ':' :: rest from fun _ => rfl]
  rfl

/-- Members with commas between them are read up to the end of their object. -/
theorem readMembers_compactMembers (hmembers : ∀ member ∈ members, ReadsBack member.2)
    (hne : members ≠ []) (seen : List (String × JsonValue)) (rest : List Char) (fuel : Nat)
    (hfuel : 2 * (compactMembers members).toList.length < fuel) :
    readMembers fuel (some seen) ((compactMembers members).toList ++ '\x7d' :: rest) =
      some (object (seen.reverse ++ members), rest) := by
  induction members generalizing seen fuel with
  | nil => exact absurd rfl hne
  | cons member more ih =>
    obtain ⟨name, value⟩ := member
    rw [List.forall_mem_cons] at hmembers
    obtain ⟨hvalue, hmore⟩ : ReadsBack value ∧ ∀ member ∈ more, ReadsBack member.2 := hmembers
    obtain ⟨fuel, rfl⟩ := Nat.exists_eq_succ_of_ne_zero (Nat.ne_zero_of_lt hfuel)
    cases more with
    | nil =>
      have hcompact : (compactMembers [(name, value)]).toList =
          (quote name).toList ++ ':' :: value.compact.toList := by
        simp [compactMembers]
      rw [hcompact, List.length_append, List.length_cons] at hfuel
      rw [hcompact, List.append_assoc, List.cons_append,
        readMembers_member hvalue seen _ fuel (by omega)]
      rfl
    | cons next more =>
      have hcompact : (compactMembers ((name, value) :: next :: more)).toList =
          (quote name).toList ++ ':' :: (value.compact.toList ++
            ',' :: (compactMembers (next :: more)).toList) := by
        simp [compactMembers]
      rw [hcompact, List.length_append, List.length_cons, List.length_append,
        List.length_cons] at hfuel
      rw [hcompact, List.append_assoc, List.cons_append, List.append_assoc,
        readMembers_member hvalue seen _ fuel (by omega)]
      simpa [skipBlanks] using
        ih hmore (List.cons_ne_nil _ _) ((name, value) :: seen) fuel (by omega)

/-- An object is read back if the values of its members are. -/
theorem ReadsBack.object (hmembers : ∀ member ∈ members, ReadsBack member.2) :
    ReadsBack (object members) := by
  have hcompact : (JsonValue.object members).compact.toList =
      '\x7b' :: ((compactMembers members).toList ++ ['\x7d']) := by
    simp [compact]
  refine ⟨⟨'\x7b', _, hcompact, by decide, fun _ => rfl⟩, fun fuel rest hfuel => ?_⟩
  rw [hcompact, List.length_cons, List.length_append] at hfuel
  rw [hcompact, List.cons_append, List.append_assoc, List.singleton_append]
  obtain ⟨fuel, rfl⟩ := Nat.exists_eq_succ_of_ne_zero (show fuel ≠ 0 by omega)
  cases members with
  | nil => rfl
  | cons member more =>
    have hread := readMembers_compactMembers hmembers (List.cons_ne_nil member more) [] rest fuel
      (by omega)
    obtain ⟨tail, hhead⟩ : ∃ tail, (compactMembers (member :: more)).toList = '"' :: tail := by
      obtain ⟨quoted, hquoted, -⟩ := readString_quote member.1 []
      cases more with
      | nil => simp [compactMembers, hquoted]
      | cons next more => simp [compactMembers, hquoted]
    rw [hhead, List.cons_append] at hread ⊢
    exact hread

/-! ## Whole texts -/

/-- What is written of a value that reads back is the text of that value. -/
theorem ReadsBack.read?_compact (h : ReadsBack value) : read? value.compact = some value := by
  have hread := h.read (2 * value.compact.toList.length + 2) [] (by omega)
  rw [List.append_nil] at hread
  rw [JsonValue.read?, hread]
  rfl

end ExactEdit.JsonValue
