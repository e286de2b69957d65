import LiveSpec.Config.Settings
import LiveSpec.Output.Style

/-!
# Outcomes of commands

A command answers with a text for the output stream, the report of a build for the error stream, and
a result, which decides on the exit code. A command that fails writes its error behind the report.
-/

set_option autoImplicit false

namespace LiveSpec

/-- Why a command failed. -/
inductive CommandError where
  | badArguments
  | unknownFormat (name : String)
  | settings (error : SettingsError)
  | noCommand
  | specificationNotFound (path : Path)
  | notIndexed (path : Path)
  deriving DecidableEq, Repr, Inhabited

/-- The error in words. -/
def CommandError.message : CommandError → String
  | badArguments => "Failed to parse command line arguments"
  | unknownFormat name => "Unknown output format '" ++ name ++ "' (expected text or json)"
  | settings error => error.message
  | noCommand => "No command given. Usage: specindex <steps|specs|concepts|scenario|watch>"
  | specificationNotFound path => "Spec file not found: " ++ path.spelling
  | notIndexed path =>
    Style.red.apply path.spelling ++
      " is not an indexed specification (is it inside a spec directory?)"

/-- How a command ended. -/
inductive CommandResult where
  | success
  | failure (error : CommandError)
  /-- The program could not go on. -/
  | crash
  deriving DecidableEq, Repr, Inhabited

/-- What a command answers. -/
structure CommandOutcome where
  output : String
  /-- The report of the build, if it came to that. -/
  report : String
  result : CommandResult
  deriving DecidableEq, Repr, Inhabited

namespace CommandOutcome

/-- The exit code. -/
def code (outcome : CommandOutcome) : Nat :=
  match outcome.result with
  | .success => 0
  | .failure _ => 1
  | .crash => 101

/-- The text for the error stream: the report of the build, then the error if there is one. -/
def errorText (outcome : CommandOutcome) : String :=
  match outcome.result with
  | .failure error => outcome.report ++ "Error: " ++ error.message
  | _ => outcome.report

/-- A command that fails before the index is built. -/
def refusal (error : CommandError) : CommandOutcome := ⟨"", "", .failure error⟩

end CommandOutcome

end LiveSpec
