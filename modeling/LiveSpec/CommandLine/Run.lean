import LiveSpec.CommandLine.Project
import LiveSpec.Watch.Service

/-!
# Running a command

A command is run on a disk (`CommandLine.run`). The arguments are looked at first, then the output
format, then the settings, and only then whether there is a command. Every listing is preceded by the
report of the build on the error stream.

A scenario is looked up under the canonical path of its file, which must exist and must have been
indexed. Following the files means to start the service and to report; how it goes on is up to the
outer layer. An interval of no length between two looks at the watcher is refused by the clock.
-/

set_option autoImplicit false

namespace LiveSpec.CommandLine

/-- A listing of a new index, with the report of its build. -/
def listing (disk : Disk) (directories : List Path) (render : Index → String) : CommandOutcome :=
  let (index, report) := (Index.new directories).build disk
  ⟨render index, Listing.report report, .success⟩

/-- The scenario at a line of a specification, or all of its scenarios. -/
def scenario (disk : Disk) (directories : List Path) (format : OutputFormat) (path : Path)
    (line : Nat) : CommandOutcome :=
  match disk.canonical path with
  | .error _ => .refusal (.specificationNotFound path)
  | .ok path =>
    let (index, report) := (Index.new directories).build disk
    match index.scenarioAt? path line with
    | some found => ⟨Listing.scenarios format found, Listing.report report, .success⟩
    | none => ⟨"", Listing.report report, .failure (.notIndexed path)⟩

/-- Starts to follow the files. -/
def watch (disk : Disk) (directories : List Path) (healthInterval : Option Nat) : CommandOutcome :=
  let (_, report) := Service.start directories disk
  ⟨"", Listing.report report, if healthInterval = some 0 then .crash else .success⟩

/-- Runs a command for a project. -/
def runCommand (disk : Disk) (project : Project) : Command → CommandOutcome
  | .steps =>
    listing disk project.directories fun index ↦ Listing.steps project.format index.cache.steps
  | .specifications =>
    listing disk project.directories fun index ↦
      Listing.specifications project.format index.specificationSummaries
  | .concepts =>
    listing disk project.directories fun index ↦
      Listing.concepts project.format index.cache.conceptSummaries
  | .scenario file line =>
    scenario disk project.directories project.format (project.root.join file) line
  | .watch healthInterval => watch disk project.directories healthInterval

/-- Runs a command line. -/
def run (disk : Disk) (arguments : List String) : CommandOutcome :=
  match Invocation.parse? arguments with
  | none => .refusal .badArguments
  | some invocation =>
    match invocation.project disk with
    | .error error => .refusal error
    | .ok project =>
      match invocation.command with
      | none => .refusal .noCommand
      | some command => runCommand disk project command

end LiveSpec.CommandLine
