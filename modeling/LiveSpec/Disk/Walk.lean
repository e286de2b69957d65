import LiveSpec.Disk.IgnoreLevel
import LiveSpec.Path.Map
import LiveSpec.Source.Kind

/-!
# Walking a directory

A walk lists what lies beneath a directory (`Disk.walk`). Hidden files belong to it. Links are
followed, except that one that leads nowhere is skipped, and so is one to a directory that the walk
is already inside of. What the ignore rules exclude is left out, a directory with everything in it;
rules of the directories above the root of the walk count too, but the root itself is never ignored.
The walk of a file is the file, and the walk of anything else is empty. A root spelled `-` stands for
the standard input, which holds no files.

Every path of a walk is the root with names added to it (`WalkDirectory.child`), and ignore rules see
it as it is spelled (`WalkDirectory.ignores`). The sources of a directory are the paths of
its walk that have the right kind (`Disk.sources`).
-/

set_option autoImplicit false

namespace LiveSpec

/-- What a walk comes across. -/
structure WalkEntry where
  path : Path
  isDirectory : Bool
  deriving DecidableEq, Repr, Inhabited

/-- A directory that a walk is inside of. -/
structure WalkDirectory where
  path : Path
  place : Place
  /-- The places of this directory and of those around it, up to the root of the walk. -/
  around : List Place
  /-- The ignore files of this directory and of those around it. -/
  levels : List IgnoreLevel
  /-- The root of the walk as it is spelled. -/
  rootPath : Path
  rootPlace : Place
  deriving Inhabited

namespace WalkDirectory

/-- A directory in which a walk starts. -/
def root (disk : Disk) (path : Path) (place : Place) : WalkDirectory where
  path := path
  place := place
  around := [place]
  levels :=
    IgnoreLevel.ofDirectory disk path place false ::
      ((List.range place.length).map fun depth ↦
        let above := place.take depth
        IgnoreLevel.ofDirectory disk (.ofPlace above) above true).reverse
  rootPath := path
  rootPlace := place

/-- The directory that a walk comes to by a name. -/
def child (parent : WalkDirectory) (disk : Disk) (name : String) (place : Place) :
    WalkDirectory where
  path := parent.path.child name
  place := place
  around := place :: parent.around
  levels := IgnoreLevel.ofDirectory disk (parent.path.child name) place false :: parent.levels
  rootPath := parent.rootPath
  rootPlace := parent.rootPlace

/-- The place that a name in the directory leads to, unless it is a link that is skipped. -/
def placeOf? (parent : WalkDirectory) (disk : Disk) (name : String) : Option Place :=
  let place := parent.place ++ [name]
  match disk.entryAt? place with
  | some (.link _) =>
    match disk.locateFrom parent.place [.name name] with
    | .error _ => none
    | .ok target => if parent.around.contains target then none else some target
  | _ => some place

/-- A path of the walk spelled from the root of the disk: the place of the root of the walk, and what
follows the spelling of that root. Nothing is taken off the path when that spelling is `.`. -/
def fromRoot (parent : WalkDirectory) (path : List Char) : List Char :=
  let relative :=
    if parent.rootPath.location = [.current] then path
    else Path.behind (Path.bare parent.rootPath.spelling.toList) path
  ((Path.ofPlace parent.rootPlace).join ⟨String.ofList relative⟩).spelling.toList

/-- Whether the ignore rules exclude a name in the directory. -/
def ignores (parent : WalkDirectory) (name : String) (isDirectory : Bool) : Bool :=
  let path := Path.bare (parent.path.child name).spelling.toList
  IgnoreLevel.isIgnored parent.levels ⟨path, parent.fromRoot path, isDirectory⟩

end WalkDirectory

namespace Disk

/-- What lies beneath a directory, down to a given depth. -/
def walkDirectory (disk : Disk) : Nat → WalkDirectory → List WalkEntry
  | 0, _ => []
  | depth + 1, parent =>
    (disk.namesIn parent.place).flatMap fun name ↦
      match parent.placeOf? disk name with
      | none => []
      | some place =>
        let isDirectory := disk.entryAt? place == some .directory
        if parent.ignores name isDirectory then []
        else
          ⟨parent.path.child name, isDirectory⟩ ::
            if isDirectory then disk.walkDirectory depth (parent.child disk name place) else []

/-- A depth that no walk reaches: between two links it goes down the tree, and it does not come to a
place twice by a link. -/
def walkDepth (disk : Disk) : Nat := (disk.entries.size + 2) * (disk.entries.size + 2)

/-- What a walk from a root comes across. -/
def walk (disk : Disk) (root : Path) : List WalkEntry :=
  if root.location = [.name "-"] then []
  else
    match disk.locate root with
    | .error _ => []
    | .ok place =>
      match disk.entryAt? place with
      | none => []
      | some .directory => disk.walkDirectory disk.walkDepth (.root disk root place)
      | some _ => [⟨root, false⟩]

/-- The files of one kind that a walk from a root comes across, in order. -/
def sources (disk : Disk) (kind : SourceKind) (root : Path) : List Path :=
  let files := (disk.walk root).filter fun entry ↦ !entry.isDirectory
  let paths := (files.map WalkEntry.path).filter fun path ↦ path.sourceKind = kind
  PathMap.paths (PathSet.insertAll ∅ paths)

/-- The directories that a walk from a root comes across, in order. -/
def nestedDirectories (disk : Disk) (root : Path) : List Path :=
  PathMap.paths (PathSet.insertAll ∅ (((disk.walk root).filter (·.isDirectory)).map WalkEntry.path))

end Disk

end LiveSpec
