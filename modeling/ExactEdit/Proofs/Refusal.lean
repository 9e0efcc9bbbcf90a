import ExactEdit.Editor.Report

/-! # Kinds of refusals

A refusal is asked in several ways what kind of failure it is: by its category, by the exit code, by
whether another request may succeed, and by what it has to say for a second try. Each is answered
case by case and looks through the batches around a cause. The answers fit together.

## Main definitions

* `Refusal.inBatches` — a cause with batches around it
* `Refusal.AnswersAs` — two refusals answer alike
* `Category.codes` — the names of the categories with their exit codes

## Main results

* `Refusal.exists_inBatches` — every refusal is a cause with batches around it
* `Refusal.exitCode_eq` — the category determines the exit code
* `Refusal.kinds_agree` — all answers are those of the cause, and agree with each other
-/

namespace ExactEdit

/-- The names of the categories with their exit codes. -/
def Category.codes : List (String × Nat) :=
  [("ambiguous_context", 2), ("ambiguous_occurrence", 2), ("input", 3), ("not_found", 4),
    ("unsafe", 5), ("transaction", 6), ("io", 7)]

theorem Category.mem_codes (category : Category) :
    (category.label, category.exitCode) ∈ codes := by
  cases category <;> decide

namespace Refusal

variable {refusal cause : Refusal} {indices : List Nat} {index : Nat}

/-! ## Batches around a cause -/

/-- Whether a refusal is that of a batch. -/
def IsBatch (refusal : Refusal) : Prop := ∃ index cause, refusal = .batch index cause

/-- A cause with batches around it, the outermost first. -/
def inBatches (indices : List Nat) (cause : Refusal) : Refusal := indices.foldr .batch cause

/-- Whether a refusal is of the same kind as another, and has the same to say for a second try. -/
structure AnswersAs (refusal cause : Refusal) : Prop where
  exitCode_eq : refusal.exitCode = cause.exitCode
  category_eq : refusal.category = cause.category
  isRecoverable_eq : refusal.isRecoverable = cause.isRecoverable
  suggestions_eq : refusal.suggestions = cause.suggestions
  assessment?_eq : refusal.assessment? = cause.assessment?

/-- A batch answers as what it is around. -/
theorem answersAs_batch (index : Nat) (cause : Refusal) :
    (Refusal.batch index cause).AnswersAs cause :=
  ⟨rfl, rfl, rfl, rfl, rfl⟩

theorem AnswersAs.trans {inner : Refusal} (h : refusal.AnswersAs cause)
    (h' : cause.AnswersAs inner) : refusal.AnswersAs inner :=
  ⟨h.exitCode_eq.trans h'.exitCode_eq, h.category_eq.trans h'.category_eq,
    h.isRecoverable_eq.trans h'.isRecoverable_eq, h.suggestions_eq.trans h'.suggestions_eq,
    h.assessment?_eq.trans h'.assessment?_eq⟩

/-- Any number of batches answers as the cause they are around. -/
theorem answersAs_inBatches (indices : List Nat) (cause : Refusal) :
    (inBatches indices cause).AnswersAs cause := by
  induction indices with
  | nil => exact ⟨rfl, rfl, rfl, rfl, rfl⟩
  | cons index indices ih => exact (answersAs_batch index _).trans ih

/-- Every refusal is a cause with batches around it. -/
theorem exists_inBatches (refusal : Refusal) :
    ∃ indices cause, refusal = inBatches indices cause ∧ ¬ cause.IsBatch := by
  induction refusal with
  | batch index cause ih =>
    obtain ⟨indices, innermost, hcause, hinnermost⟩ := ih
    exact ⟨index :: indices, innermost, congrArg (batch index) hcause, hinnermost⟩
  | _ => exact ⟨[], _, rfl, nofun⟩

/-! ## Answers -/

/-- The category determines the exit code. -/
theorem exitCode_eq (refusal : Refusal) : refusal.exitCode = refusal.category.exitCode := by
  induction refusal with
  | batch index cause ih => exact ih
  | _ => rfl

/-- Another request may succeed after an ambiguity or a hazard. -/
theorem isRecoverable_iff (refusal : Refusal) :
    refusal.isRecoverable = true ↔ refusal.exitCode = 2 ∨ refusal.exitCode = 5 := by
  induction refusal with
  | batch index cause ih => exact ih
  | _ => simp [isRecoverable, exitCode]

/-- Suggestions are those of an ambiguity. -/
theorem exitCode_of_suggestions_ne_nil (h : refusal.suggestions ≠ []) : refusal.exitCode = 2 := by
  induction refusal with
  | batch index cause ih => exact ih h
  | ambiguousContext => rfl
  | ambiguousOccurrence => rfl
  | _ => exact absurd rfl h

/-- An assessment is that of a hazard. -/
theorem isSome_assessment?_iff (refusal : Refusal) :
    refusal.assessment?.isSome = true ↔ refusal.category.label = "unsafe" := by
  induction refusal with
  | batch index cause ih => exact ih
  | _ => simp [assessment?, category, Category.label]

/-- However many batches are around a cause, the exit code, the category, whether another request
may succeed, the suggestions and the assessment are those of the cause: the suggestions that it
carries if it is an ambiguity, and its assessment if it is a hazard. The category determines the
exit code. Another request may succeed exactly with one of two exit codes, only one of them comes
with suggestions, and an assessment comes exactly with one category. Reports of a refusal tell of
its category, and of no success. -/
theorem kinds_agree (refusal : Refusal) :
    (∃ indices cause, refusal = inBatches indices cause ∧ ¬ cause.IsBatch ∧
      refusal.AnswersAs cause ∧
      (∀ carried, cause.IsAmbiguity carried → refusal.suggestions = carried) ∧
      (∀ reasons assessment, cause = .hazard reasons assessment →
        refusal.assessment? = some assessment)) ∧
    (refusal.category.label, refusal.exitCode) ∈ Category.codes ∧
    (refusal.isRecoverable = true ↔ refusal.exitCode = 2 ∨ refusal.exitCode = 5) ∧
    (refusal.suggestions ≠ [] → refusal.exitCode = 2) ∧
    (refusal.assessment?.isSome = true ↔ refusal.category.label = "unsafe") ∧
    (EditReport.ofRefusal refusal).success = false ∧
    (EditReport.ofRefusal refusal).errorKind.map Category.label = some refusal.category.label ∧
    (BatchReport.ofRefusal refusal).success = false ∧
    (BatchReport.ofRefusal refusal).errorKind.map Category.label = some refusal.category.label := by
  obtain ⟨indices, cause, hrefusal, hcause⟩ := exists_inBatches refusal
  have hanswers : refusal.AnswersAs cause := by
    rw [hrefusal]
    exact answersAs_inBatches indices cause
  have hsuggestions : ∀ carried, cause.IsAmbiguity carried → refusal.suggestions = carried :=
    fun _ hambiguity => hanswers.suggestions_eq.trans hambiguity.suggestions_eq
  have hassessment : ∀ reasons assessment, cause = .hazard reasons assessment →
      refusal.assessment? = some assessment := by
    rintro _ _ rfl
    exact hanswers.assessment?_eq
  have hcode : (refusal.category.label, refusal.exitCode) ∈ Category.codes := by
    rw [exitCode_eq]
    exact Category.mem_codes _
  exact ⟨⟨indices, cause, hrefusal, hcause, hanswers, hsuggestions, hassessment⟩, hcode,
    isRecoverable_iff refusal, exitCode_of_suggestions_ne_nil, isSome_assessment?_iff refusal, rfl,
    rfl, rfl, rfl⟩

end Refusal

end ExactEdit
