import ExactEdit.Editor.Report

/-! # Endings

What comes of a command: a finding, a refusal, or the end of the program for another reason. The
exit code depends on nothing else, in particular not on how it is reported.

## Main definitions

* `Finding`, `Ending` — what comes of a command
* `Assessment.exitCode` — the exit code that tells of an assessment
* `Outcome`, `Ending.outcome` — how the program ends
-/

namespace ExactEdit

/-- What a command finds or does. -/
inductive Finding where
  | edited (report : EditReport)
  | previewed (report : EditReport)
  | assessed (file : String) (assessment : Assessment)
  | batchMade (report : BatchReport)
  | scopesListed (language : Option Language) (table : ScopeTable)
  | settingsWritten (path : String)
  | scriptWritten (path : String)
  | scriptShown (script : String)
  deriving Repr, Inhabited

/-- What comes of a command. -/
inductive Ending where
  | found (finding : Finding)
  | refused (refusal : Refusal)
  | batchRefused (refusal : Refusal)
  /-- The command could not start, or not finish, for a reason outside of the edit. -/
  | aborted (message : String) (cause : Option String)
  | stopped (fault : Fault)
  deriving Repr, Inhabited

/-- How the program ends. -/
inductive Outcome where
  | exit (code : Nat)
  | aborted (message : String)
  | stopped (fault : Fault)
  deriving DecidableEq, Repr, Inhabited

/-- The exit code of an assessment: nothing to edit, safe, ambiguous, or unsafe. -/
def Assessment.exitCode (assessment : Assessment) : Nat :=
  if assessment.occurrenceCount = 0 then Category.notFound.exitCode
  else if assessment.isSafe then 0
  else if !assessment.isUnique then Category.ambiguousOccurrence.exitCode
  else Category.hazard.exitCode

/-- The exit code of a finding. -/
def Finding.exitCode : Finding → Nat
  | assessed _ assessment => assessment.exitCode
  | _ => 0

/-- How the program ends after a command. -/
def Ending.outcome : Ending → Outcome
  | found finding => .exit finding.exitCode
  | refused refusal => .exit refusal.exitCode
  | batchRefused refusal => .exit refusal.exitCode
  | aborted message _ => .aborted message
  | stopped fault => .stopped fault

end ExactEdit
