import LiveSpec.Concepts.Expansion
import LiveSpec.Grammar.Fault

/-!
# Failures and the build report

A file cannot be indexed when it cannot be parsed, or when a specification cannot be expanded
(`IndexError`). A build reports how much it indexed, which files failed and which concepts were left
out of the dictionary (`BuildReport`).
-/

set_option autoImplicit false

namespace LiveSpec

/-- Why a file could not be indexed. -/
inductive IndexError where
  | parse (error : ParseError)
  | expand (file : Path) (mismatch : Mismatch)
  deriving DecidableEq, Repr, Inhabited

namespace IndexError

/-- The file that could not be indexed. -/
def file : IndexError → Path
  | parse error => error.file
  | expand file _ => file

/-- The error in words. -/
def message : IndexError → String
  | parse error => error.message
  | expand file mismatch => file.spelling ++ ": " ++ mismatch.message

end IndexError

/-- What a build found. -/
structure BuildReport where
  /-- Concept files that were found, whether or not they could be parsed. -/
  conceptFiles : Nat
  /-- Concepts in the dictionary. -/
  concepts : Nat
  /-- Specifications that were indexed. -/
  specifications : Nat
  /-- Signatures in the catalogue. -/
  steps : Nat
  /-- Files that could not be indexed. -/
  failures : List IndexError
  /-- Concepts that were left out of the dictionary. -/
  conceptErrors : List ConceptError
  deriving DecidableEq, Repr, Inhabited

/-- Whether everything that was found is in the index. -/
def BuildReport.isClean (report : BuildReport) : Bool :=
  report.failures.isEmpty && report.conceptErrors.isEmpty

end LiveSpec
