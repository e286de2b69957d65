import LiveSpec.Disk.Tree
import LiveSpec.Yaml.Node
import LiveSpec.Yaml.Scalar

/-!
# Settings

The settings of a project name the directories that hold its sources. They stand in a YAML file under
the key `spec_dirs`; other keys are allowed and not looked at. A project without such a file, with an
empty one or with one that names no directories has one directory of sources, `specs`.

Directories are read from the root of the project, and those that exist are put into their canonical
form, in which the watcher reports paths (`Settings.directories`).
-/

set_option autoImplicit false

namespace LiveSpec

/-- The settings of a project. -/
structure Settings where
  sourceDirectories : List String
  deriving DecidableEq, Repr, Inhabited

/-- Why settings could not be loaded. -/
inductive SettingsError where
  | invalid
  | unreadable (file : Path)
  | unparsable (file : Path)
  deriving DecidableEq, Repr, Inhabited

/-- The error in words. -/
def SettingsError.message : SettingsError → String
  | invalid => "Invalid specindex config"
  | unreadable file => "Failed to read config file: " ++ file.spelling
  | unparsable file => "Failed to parse config file: " ++ file.spelling

namespace Settings

/-- The place of the settings file in a project. -/
def defaultFile : Path := ⟨".config/specindex/config.yaml"⟩

/-- The directory of a project that names none. -/
def defaultDirectory : String := "specs"

/-- The settings of a project without a settings file. -/
def default : Settings := ⟨[]⟩

/-- The directory that a node names. An alias names the same one as null, for no node is looked up. -/
def directoryOf? : Yaml.Node → Option String
  | .scalar text isQuoted => if isQuoted then some text else (Yaml.Scalar.ofPlain text).words?
  | .alias _ => some ""
  | _ => none

/-- The directories that a value names. -/
def namedBy? : Yaml.Node → Option (List String)
  | .sequence items => items.mapM directoryOf?
  | _ => none

/-- The setting that a key is about. Every key has to be a scalar. -/
def keyOf? : Yaml.Node → Option String
  | .scalar text _ => some text
  | _ => none

/-- The settings that a document stands for. The directories may be named once. -/
def ofDocument? : Yaml.Node → Option Settings
  | .mapping entries => do
    let settings ← entries.mapM fun (key, value) ↦ (keyOf? key).map (·, value)
    match settings.filter (·.1 = "spec_dirs") with
    | [] => return default
    | [(_, value)] => return ⟨← namedBy? value⟩
    | _ => none
  | .scalar text false => if Yaml.Scalar.ofPlain text = .null then some default else none
  | _ => none

/-- Reads settings. -/
def parse (text : String) : Except SettingsError Settings :=
  match (Yaml.Node.ofText? text.toList).bind ofDocument? with
  | some settings => .ok settings
  | none => .error .invalid

/-- Loads settings from a file. If there is none the settings are the default ones. -/
def load (disk : Disk) (file : Path) : Except SettingsError Settings :=
  if !disk.isPresent file then .ok default
  else
    match disk.read file with
    | .error _ => .error (.unreadable file)
    | .ok text => (parse text).mapError fun _ ↦ .unparsable file

/-- The directories of sources, read from the root of a project. -/
def directories (settings : Settings) (disk : Disk) (root : Path) : List Path :=
  let named := match settings.sourceDirectories with
    | [] => [defaultDirectory]
    | named => named
  named.map fun directory ↦ disk.canonicalOrSame (root.join ⟨directory⟩)

end Settings

end LiveSpec
