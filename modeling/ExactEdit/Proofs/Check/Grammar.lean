import ExactEdit.Proofs.Check.Balance

/-! # The grammar of balanced texts

The depths of a text are read off in one pass. That they come back to zero, and never go below, says
that the delimiters of the text are a word of the grammar `S → ε | ( S ) S`. For the way from the
scan to the grammar, a word is taken apart at its front, which leaves words with more closing than
opening delimiters: those are made of nested words with one of the closing delimiters that are too
many between every two.

## Main definitions

* `Nested` — the words of the grammar
* `delimiters` — a text without its other characters
* `Closes` — words with some closing delimiters too many

## Main results

* `nested_iff` — a word of delimiters is one of the grammar exactly if its scan is balanced
* `balanceWarnings_grammar` — nothing is said of the texts of the grammar, and of no other
-/

namespace ExactEdit

open Balance

variable {opening closing c : Char} {word inner rest chars : List Char} {count : Nat}

/-- Words of nested delimiters: the empty word, and a word between an opening and a closing
delimiter with another word behind them. -/
inductive Nested (opening closing : Char) : List Char → Prop
  | empty : Nested opening closing []
  | pair {inner rest : List Char} (hinner : Nested opening closing inner)
    (hrest : Nested opening closing rest) :
    Nested opening closing (opening :: (inner ++ closing :: rest))

/-- The two delimiters among some characters. -/
def delimiters (opening closing : Char) (chars : List Char) : List Char :=
  chars.filter fun c => c = opening || c = closing

/-! ## Scans of delimiters -/

namespace Balance

theorem scan_cons (opening closing : Char) (c : Char) (chars : List Char) :
    scan opening closing (c :: chars) =
      (scan opening closing [c]).append (scan opening closing chars) :=
  scan_append opening closing [c] chars

theorem scan_opening (opening closing : Char) : scan opening closing [opening] = ⟨1, 0⟩ := by
  rw [scan, List.foldl_cons, List.foldl_nil, step, if_pos rfl]
  rfl

theorem scan_closing (h : opening ≠ closing) : scan opening closing [closing] = ⟨-1, -1⟩ := by
  rw [scan, List.foldl_cons, List.foldl_nil, step, if_neg h.symm, if_pos rfl]
  rfl

/-- A pair without anything between its delimiters is balanced. -/
theorem scan_pair (h : opening ≠ closing) : scan opening closing [opening, closing] = ⟨0, 0⟩ := by
  rw [scan_cons, scan_opening, scan_closing h]
  decide

/-- Other characters do not matter. -/
theorem scan_delimiters (opening closing : Char) (chars : List Char) :
    scan opening closing (delimiters opening closing chars) = scan opening closing chars := by
  rw [scan, delimiters, List.foldl_filter, scan]
  congr 1
  funext balance c
  by_cases hopening : c = opening
  · simp [hopening]
  · by_cases hclosing : c = closing
    · simp [hclosing]
    · simp [step, hopening, hclosing]

end Balance

/-! ## Nested words are balanced -/

/-- The scan of a nested word comes back to zero, and never goes below. -/
theorem Nested.scan_eq (h : Nested opening closing word) (hne : opening ≠ closing) :
    scan opening closing word = ⟨0, 0⟩ := by
  induction h with
  | empty => rfl
  | @pair inner rest _ _ hinner hrest =>
    calc scan opening closing (opening :: (inner ++ closing :: rest))
        = scan opening closing ([opening] ++ (inner ++ closing :: rest)) := rfl
      _ = scan opening closing ([] ++ ([opening, closing] ++ rest)) :=
        scan_insert hinner [opening] (closing :: rest)
      _ = scan opening closing rest := scan_insert (scan_pair hne) [] rest
      _ = ⟨0, 0⟩ := hrest

/-! ## Balanced words are nested -/

/-- Words with so many closing delimiters too many: each of these stands between nested words. -/
inductive Closes (opening closing : Char) : Nat → List Char → Prop
  | nested {word : List Char} (h : Nested opening closing word) : Closes opening closing 0 word
  | closing {inner rest : List Char} {count : Nat} (hinner : Nested opening closing inner)
    (hrest : Closes opening closing count rest) :
    Closes opening closing (count + 1) (inner ++ closing :: rest)

namespace Closes

/-- An opening delimiter in front is closed by the first of those that are too many. -/
theorem cons_opening (h : Closes opening closing (count + 1) word) :
    Closes opening closing count (opening :: word) := by
  cases h with
  | closing hinner hrest =>
    cases hrest with
    | nested hrest => exact .nested (.pair hinner hrest)
    | @closing inner' rest' _ hinner' hrest' =>
      have hfirst := Closes.closing (.pair hinner hinner') hrest'
      simpa using hfirst

/-- A closing delimiter in front is one more that is too many. -/
theorem cons_closing (h : Closes opening closing count word) :
    Closes opening closing (count + 1) (closing :: word) :=
  .closing .empty h

end Closes

/-- In front of a word that falls one deeper, an opening delimiter makes up for it. -/
theorem scan_of_cons_opening (h : scan opening closing (opening :: word) = ⟨-count, -count⟩) :
    scan opening closing word = ⟨-(count + 1 : Nat), -(count + 1 : Nat)⟩ := by
  obtain ⟨hlowest, hle⟩ := lowest_le opening closing word
  rw [scan_cons, scan_opening] at h
  cases hword : scan opening closing word with
  | mk net lowest =>
    rw [hword] at h hlowest hle
    simp only [append, Balance.mk.injEq] at h hlowest hle ⊢
    omega

theorem exists_scan_of_cons_closing (hne : opening ≠ closing)
    (h : scan opening closing (closing :: word) = ⟨-count, -count⟩) :
    ∃ less, count = less + 1 ∧ scan opening closing word = ⟨-less, -less⟩ := by
  obtain ⟨hlowest, hle⟩ := lowest_le opening closing word
  rw [scan_cons, scan_closing hne] at h
  cases hword : scan opening closing word with
  | mk net lowest =>
    rw [hword] at h hlowest hle
    simp only [append, Balance.mk.injEq] at h hlowest hle ⊢
    exact ⟨count - 1, by omega, by omega⟩

/-- A word that falls to a depth, and no lower on the way, closes so many delimiters too many. -/
theorem closes_of_scan (hword : ∀ c ∈ word, c = opening ∨ c = closing) (hne : opening ≠ closing)
    (hscan : scan opening closing word = ⟨-count, -count⟩) : Closes opening closing count word := by
  -- The induction is on the word, from any depth: the grammar itself says nothing of a word whose
  -- first delimiter has been taken off.
  induction word generalizing count with
  | nil =>
    obtain ⟨hnet, -⟩ := Balance.mk.inj hscan
    obtain rfl : count = 0 := by omega
    exact .nested .empty
  | cons c word ih =>
    obtain ⟨hc, hword⟩ := List.forall_mem_cons.mp hword
    rcases hc with rfl | rfl
    · apply Closes.cons_opening
      exact ih hword (scan_of_cons_opening hscan)
    · obtain ⟨less, rfl, hrest⟩ := exists_scan_of_cons_closing hne hscan
      apply Closes.cons_closing
      exact ih hword hrest

/-- A word of delimiters is nested exactly if its scan comes back to zero and never goes below. -/
theorem nested_iff (hword : ∀ c ∈ word, c = opening ∨ c = closing) (hne : opening ≠ closing) :
    Nested opening closing word ↔ scan opening closing word = ⟨0, 0⟩ := by
  constructor
  · intro hnested
    exact hnested.scan_eq hne
  · intro hscan
    have hcloses : Closes opening closing 0 word := closes_of_scan hword hne hscan
    cases hcloses with
    | nested hnested => exact hnested

/-- So it is with the delimiters of any text. -/
theorem nested_delimiters_iff (hne : opening ≠ closing) (chars : List Char) :
    Nested opening closing (delimiters opening closing chars) ↔
      scan opening closing chars = ⟨0, 0⟩ := by
  rw [nested_iff _ hne, scan_delimiters]
  intro c hc
  simpa using (List.mem_filter.mp hc).2

/-! ## Balance of texts -/

/-- A text is balanced exactly if its braces are a nested word, and its parentheses are one. -/
theorem balanced_iff_nested (chars : List Char) : Text.Balanced chars ↔
    Nested '\x7b' '\x7d' (delimiters '\x7b' '\x7d' chars) ∧
      Nested '(' ')' (delimiters '(' ')' chars) := by
  rw [Text.Balanced, nested_delimiters_iff (by decide), nested_delimiters_iff (by decide)]

/-- Nothing is said of a text exactly if its braces are a nested word and its parentheses are one.
So a part of which nothing is said can take the place of another such part in any text: something
is said of the whole afterwards exactly if it was before. -/
theorem balanceWarnings_grammar :
    (∀ text : String, balanceWarnings text = [] ↔
      Nested '\x7b' '\x7d' (delimiters '\x7b' '\x7d' text.toList) ∧
        Nested '(' ')' (delimiters '(' ')' text.toList)) ∧
    ∀ front back old new : String, balanceWarnings old = [] → balanceWarnings new = [] →
      (balanceWarnings (front ++ old ++ back) = [] ↔
        balanceWarnings (front ++ new ++ back) = []) := by
  constructor
  · intro text
    rw [balanceWarnings_eq_nil_iff, balanced_iff_nested]
  · intro front back old new hold hnew
    rw [balanceWarnings_eq_nil_iff] at hold hnew
    -- A balanced part may be left out, so both texts are balanced if what is around is.
    have hleft {part : String} (hpart : Text.Balanced part.toList) :
        balanceWarnings (front ++ part ++ back) = [] ↔
          Text.Balanced (front.toList ++ back.toList) := by
      rw [balanceWarnings_eq_nil_iff, String.toList_append, String.toList_append,
        List.append_assoc, hpart.insert_iff]
    rw [hleft hold, hleft hnew]

/-- A call that becomes a block, between delimiters that stay open. -/
theorem call_to_block_balanced :
    balanceWarnings "f((x), y)" = [] ∧ balanceWarnings "\x7b(z)\x7d" = [] ∧
    (balanceWarnings ("(\x7b" ++ "f((x), y)" ++ ")") = [] ↔
      balanceWarnings ("(\x7b" ++ "\x7b(z)\x7d" ++ ")") = []) ∧
    Nested '(' ')' ['(', '(', ')', ')'] := by
  have hold : balanceWarnings "f((x), y)" = [] := by decide +kernel
  have hnew : balanceWarnings "\x7b(z)\x7d" = [] := by decide +kernel
  obtain ⟨hgrammar, hreplace⟩ := balanceWarnings_grammar
  exact ⟨hold, hnew, hreplace "(\x7b" ")" _ _ hold hnew, ((hgrammar _).mp hold).2⟩

end ExactEdit
