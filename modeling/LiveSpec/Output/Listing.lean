import LiveSpec.Document.Summary
import LiveSpec.Index.Report
import LiveSpec.Output.Json
import LiveSpec.Output.Style

/-!
# Listings

The answers of the index as text for a terminal or as JSON. A text listing starts with a headline
that counts the entries and has one line for each. The report of a build is text in either case: a
summary line, and the failures and rejected concepts if there are any.
-/

set_option autoImplicit false

namespace LiveSpec

/-- How a listing is written. -/
inductive OutputFormat where
  | text
  | json
  deriving DecidableEq, Repr, Inhabited

/-- The format with a given name, in any mixture of cases. Both names consist of letters that only
ASCII letters turn into when they are put into lower case. -/
def OutputFormat.ofName? (name : String) : Option OutputFormat :=
  match name.toList.map Char.toLower with
  | ['t', 'e', 'x', 't'] => some .text
  | ['j', 's', 'o', 'n'] => some .json
  | _ => none

namespace Listing

/-- The first line of a text listing. -/
def headline (count : Nat) (noun : String) : String :=
  Style.bold.apply "##" ++ " " ++ toString count ++ " " ++ noun ++ "\n"

/-- A line of a text listing. -/
def entry (first second : String) : String := "  " ++ first ++ " " ++ second ++ "\n"

/-- The lines of a text listing. -/
def entries {α : Type} (line : α → String) (members : List α) : String :=
  String.join (members.map line)

/-- A step signature in JSON. -/
def signatureJson (signature : StepSignature) : JsonValue :=
  .object
    [("step_value", .string signature.value),
      ("parameterized_step_value", .string signature.parameterized),
      ("parameters", .array (signature.parameters.map .string))]

/-- A specification in JSON. -/
def specificationJson (summary : SpecSummary) : JsonValue :=
  .object
    [("heading", .string summary.heading), ("execution_identifier", .string summary.identifier)]

/-- A concept in JSON. -/
def conceptJson (summary : ConceptSummary) : JsonValue :=
  .object
    [("step_value", signatureJson summary.signature), ("file", .string summary.file),
      ("line", .number summary.line)]

/-- A scenario in JSON. -/
def scenarioJson (summary : ScenarioSummary) : JsonValue :=
  .object
    [("heading", .string summary.heading), ("line", .number summary.line),
      ("execution_identifier", .string summary.identifier)]

/-- The catalogue of steps. -/
def steps (format : OutputFormat) (signatures : List StepSignature) : String :=
  match format with
  | .json => (JsonValue.array (signatures.map signatureJson)).render
  | .text =>
    headline signatures.length "steps" ++
      entries
        (fun signature ↦ entry (Style.dimmed.apply "*") (Style.cyan.apply signature.parameterized))
        signatures

/-- The specifications. -/
def specifications (format : OutputFormat) (summaries : List SpecSummary) : String :=
  match format with
  | .json => (JsonValue.array (summaries.map specificationJson)).render
  | .text =>
    headline summaries.length "specifications" ++
      entries
        (fun summary ↦ entry (inBold .cyan summary.heading)
          (Style.dimmed.apply summary.identifier))
        summaries

/-- The concepts. -/
def concepts (format : OutputFormat) (summaries : List ConceptSummary) : String :=
  match format with
  | .json => (JsonValue.array (summaries.map conceptJson)).render
  | .text =>
    headline summaries.length "concepts" ++
      entries
        (fun summary ↦ entry (Style.cyan.apply summary.signature.parameterized)
          (Style.dimmed.apply (summary.file ++ ":" ++ toString summary.line)))
        summaries

/-- The lines for some scenarios. -/
def scenarioEntries (summaries : List ScenarioSummary) : String :=
  entries
    (fun summary ↦ entry (inBold .cyan summary.heading) (Style.dimmed.apply summary.identifier))
    summaries

/-- The scenario at a line, or all scenarios with a remark that there is none at that line. -/
def scenarios (format : OutputFormat) : ScenarioLookup → String
  | .found summary =>
    match format with
    | .json => (JsonValue.array [scenarioJson summary]).render
    | .text => scenarioEntries [summary]
  | .all summaries =>
    match format with
    | .json => (JsonValue.array (summaries.map scenarioJson)).render
    | .text =>
      inBold .yellow "!" ++ " No scenario at that line; " ++ toString summaries.length ++
        " scenarios in file\n" ++ scenarioEntries summaries

/-- The messages of everything that went wrong in a build: first the files, then the concepts. -/
def problems (report : BuildReport) : List String :=
  report.failures.map IndexError.message ++ report.conceptErrors.map ConceptError.message

/-- The report of a build. -/
def report (report : BuildReport) : String :=
  let summary := inBold .green "OK" ++ " Indexed " ++ toString report.specifications ++
    " specs, " ++ toString report.concepts ++ " concepts, " ++ toString report.steps ++ " steps\n"
  match problems report with
  | [] => summary
  | messages =>
    summary ++ inBold .red "!" ++ " " ++ toString messages.length ++ " problems:\n" ++
      entries (fun message ↦ entry (Style.red.apply "-") message) messages

end Listing

end LiveSpec
