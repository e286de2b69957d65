import LiveSpec.Disk.IgnoreRules
import LiveSpec.Disk.Repository

/-!
# Ignore files

The rules of a directory stand in a file `.ignore`. In a tree under version control the files
`.gitignore` and `.git/info/exclude` count as well, and of the directories around a path those up to
the top of that tree.

Paths are made relative to the directory of a rule as texts, and one that does not start with the
spelling of the directory stays as it is (`IgnoreLevel.relative`). Of several files of one kind the
innermost that says anything about a path decides, and of the kinds `.ignore` comes before
`.gitignore`, and that before `exclude` (`IgnoreLevel.isIgnored`).
-/

set_option autoImplicit false

namespace LiveSpec

/-- A path without the dot and the slash that it may start with. -/
def Path.bare (path : List Char) : List Char := (Text.withoutStart? ['.', '/'] path).getD path

/-- What follows the spelling of a directory in a path, without the slash between them. A path that
does not start with that spelling stays as it is. -/
def Path.behind (directory path : List Char) : List Char :=
  match Text.withoutStart? directory path with
  | none => path
  | some behind => (Text.withoutStart? ['/'] behind).getD behind

/-- The rules in the file that a path leads to. There are none if it cannot be read. -/
def Disk.ignoreRules (disk : Disk) (file : Path) : List IgnoreRule :=
  ((disk.readable? file).map IgnoreRule.ofText).getD []

/-- The ignore files of a directory. -/
structure IgnoreLevel where
  /-- The directory as it is spelled, without the dot and the slash that it may start with. -/
  directory : List Char
  /-- Whether the directory is above the root of the walk. -/
  isAbove : Bool
  /-- The rules of `.ignore`. -/
  plain : List IgnoreRule
  /-- The rules of `.gitignore`. -/
  versioned : List IgnoreRule
  /-- The rules of `.git/info/exclude`. -/
  excluded : List IgnoreRule
  /-- Whether the directory is the top of a tree under version control. -/
  isRepository : Bool
  deriving Inhabited

/-- A path that rules are asked about, in two spellings. -/
structure IgnoreSubject where
  /-- The path as the walk spells it. -/
  path : List Char
  /-- The path spelled from the root, for the rules of the directories above the walk. -/
  fromRoot : List Char
  isDirectory : Bool
  deriving Inhabited

namespace IgnoreLevel

/-- The ignore files of the directory at a place, for walks that spell it in some way. -/
def ofDirectory (disk : Disk) (spelling : Path) (place : Place) (isAbove : Bool) : IgnoreLevel where
  directory := Path.bare spelling.spelling.toList
  isAbove := isAbove
  plain := disk.ignoreRules ((Path.ofPlace place).child ".ignore")
  versioned := disk.ignoreRules ((Path.ofPlace place).child ".gitignore")
  excluded := ((disk.excludeFile? place).map disk.ignoreRules).getD []
  isRepository := disk.isRepository place

/-- A path as the rules of a level describe it. For a directory spelled `.` that is the path itself,
and so it is for a name alone. -/
def relative (level : IgnoreLevel) (path : List Char) : List Char :=
  let path := Path.bare path
  if Path.locationOf level.directory = [.current] || !path.contains '/' then path
  else Path.behind level.directory path

/-- The levels up to the first directory that is the top of a tree under version control. There are
none if no directory is. -/
def versionedLevels (levels : List IgnoreLevel) : List IgnoreLevel :=
  if levels.any isRepository then
    levels.takeWhile (!·.isRepository) ++ (levels.find? isRepository).toList
  else []

/-- What the innermost level that says anything says about a path, by rules of one kind. -/
def verdict? (levels : List IgnoreLevel) (rules : IgnoreLevel → List IgnoreRule)
    (subject : IgnoreSubject) : Option Bool :=
  levels.findSome? fun level ↦
    let path := if level.isAbove then subject.fromRoot else subject.path
    IgnoreRule.verdict? (rules level) (level.relative path) subject.isDirectory

/-- Whether a path is ignored. The levels are given from the inside out. -/
def isIgnored (levels : List IgnoreLevel) (subject : IgnoreSubject) : Bool :=
  let inRepository := versionedLevels levels
  let byPlain := verdict? levels plain subject
  let byVersioned := verdict? inRepository versioned subject
  let byExcluded := verdict? inRepository excluded subject
  (byPlain <|> byVersioned <|> byExcluded).getD false

end IgnoreLevel

end LiveSpec
