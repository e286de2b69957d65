import LiveSpec.CommandLine.Arguments
import LiveSpec.CommandLine.Outcome
import LiveSpec.Output.Listing

/-!
# Projects

An invocation is about a project: a root, the directories with sources that the settings name, and
the format of listings. The root is the working directory unless the invocation names another one,
and the settings are looked for in the root unless the invocation names a file. A bad format is
found out before the settings are loaded.
-/

set_option autoImplicit false

namespace LiveSpec

/-- What an invocation is about. -/
structure Project where
  root : Path
  directories : List Path
  format : OutputFormat
  deriving DecidableEq, Repr, Inhabited

namespace Invocation

/-- The root of the project. -/
def projectRoot (invocation : Invocation) (disk : Disk) : Path :=
  invocation.root.getD (.ofPlace disk.workingDirectory)

/-- The file in which settings are looked for. -/
def settingsPath (invocation : Invocation) (disk : Disk) : Path :=
  invocation.settingsFile.getD ((invocation.projectRoot disk).join Settings.defaultFile)

/-- The format of listings. -/
def outputFormat (invocation : Invocation) : Except CommandError OutputFormat :=
  match invocation.format with
  | none => .ok .text
  | some name =>
    match OutputFormat.ofName? name with
    | some format => .ok format
    | none => .error (.unknownFormat name)

/-- The project that an invocation is about. -/
def project (invocation : Invocation) (disk : Disk) : Except CommandError Project := do
  let format ← invocation.outputFormat
  let root := invocation.projectRoot disk
  let settings ← (Settings.load disk (invocation.settingsPath disk)).mapError .settings
  return ⟨root, settings.directories disk root, format⟩

end Invocation

/-- The paths that a command looks at. -/
def Project.pathsFor (project : Project) : Command → List Path
  | .scenario file _ => project.root.join file :: project.directories
  | _ => project.directories

end LiveSpec
