/-! # Faults

The program stops without an answer where it cuts a text at a place that the text does not have, and
where two numbers that are words of 64 bits have a sum that is none. How many lines are shown around
something is set by the user, as any word, so such a sum can come up.

Whether sums are checked depends on how the program is compiled. Here they are, as in development; a
release takes them modulo 2^64 and goes on.

## Main definitions

* `Fault` — why the program stops
* `checkedSum` — the sum of two words
-/

namespace ExactEdit

/-- How the program stops without an answer. -/
inductive Fault where
  /-- A slice reaches past the end of its text. -/
  | sliceOutOfRange
  /-- The sum of two words is not a word. -/
  | sumOverflow
  deriving DecidableEq, Repr, Inhabited

/-- The sum of two words, if it is one. A release does not stop at a sum that is none: it goes on
with the sum modulo 2^64. -/
def checkedSum (a b : Nat) : Except Fault Nat :=
  if a + b < UInt64.size then .ok (a + b) else .error .sumOverflow

variable {a b : Nat}

theorem checkedSum_of_lt (h : a + b < UInt64.size) : checkedSum a b = .ok (a + b) := if_pos h

theorem checkedSum_of_le (h : UInt64.size ≤ a + b) : checkedSum a b = .error .sumOverflow :=
  if_neg (Nat.not_lt.mpr h)

theorem checkedSum_eq_ok_iff {sum : Nat} :
    checkedSum a b = .ok sum ↔ a + b < UInt64.size ∧ a + b = sum := by
  rw [checkedSum]
  split
  · next h => simp [h]
  · next h => simp [h]

end ExactEdit
