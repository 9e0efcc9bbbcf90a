import ExactEdit.Source.Basic

/-! # Transactions

A transaction holds the content from before a batch for as long as the batch runs. It ends by
forgetting that content, or by giving it back as it was.
-/

namespace ExactEdit

/-- The content before a batch, its content id, and how many requests were made since. -/
structure Transaction where
  snapshot : List Char
  contentId : String
  applied : Nat
  deriving DecidableEq, Repr, Inhabited

namespace Transaction

/-- A transaction that starts at this content. -/
def start (source : Source) (contentId : String) : Transaction := ⟨source.chars, contentId, 0⟩

/-- One more request was made. -/
def record (transaction : Transaction) : Transaction :=
  { transaction with applied := transaction.applied + 1 }

/-- Ends with success: the number of requests. -/
def commit (transaction : Transaction) : Nat := transaction.applied

/-- Ends without success: the content from before. -/
def rollback (transaction : Transaction) : List Char := transaction.snapshot

end Transaction

end ExactEdit
