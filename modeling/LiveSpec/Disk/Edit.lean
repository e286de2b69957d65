import LiveSpec.Disk.Tree

/-!
# Changes of a tree of files

What people and programs do to files: writing one, replacing one by another in a single step, making
directories, deleting and renaming. Missing directories on the way to a written file are made. An
operation on a path that cannot be reached changes nothing.
-/

set_option autoImplicit false

namespace LiveSpec

namespace Disk

/-- The disk with an entry at a place. -/
def insertAt (disk : Disk) (place : Place) (entry : DiskEntry) : Disk :=
  { disk with entries := disk.entries.insert place entry }

/-- The disk without a place and everything beneath it. -/
def eraseBeneath (disk : Disk) (place : Place) : Disk :=
  { disk with entries := disk.entries.filter fun entry _ ↦ !place.isPrefixOf entry }

/-- Follows steps from a place and makes the directories that are missing. -/
def makeWay (disk : Disk) : Place → List Component → Option (Disk × Place)
  | here, [] => some (disk, here)
  | here, component :: rest =>
    match disk.locateFrom here [component], component with
    | .ok next, _ => disk.makeWay next rest
    | .error .notFound, .name text =>
      let next := here ++ [text]
      (disk.insertAt next .directory).makeWay next rest
    | .error _, _ => none

/-- Makes a directory and those that are missing on the way to it. -/
def makeDirectories (disk : Disk) (path : Path) : Disk :=
  match disk.makeWay disk.workingDirectory path.location with
  | some (made, _) => made
  | none => disk

/-- The place at which an entry with a given path stands, without following it when it is a link. -/
def placeOf? (disk : Disk) (path : Path) : Option Place :=
  match path.location.getLast? with
  | some (.name text) =>
    (disk.locateFrom disk.workingDirectory path.location.dropLast).toOption.map (· ++ [text])
  | _ => (disk.locate path).toOption

/-- Puts an entry at a path in the place of what stands there. -/
def replace (disk : Disk) (path : Path) (entry : DiskEntry) : Disk :=
  match path.location.getLast? with
  | some (.name text) =>
    match disk.makeWay disk.workingDirectory path.location.dropLast with
    | some (made, directory) => made.insertAt (directory ++ [text]) entry
    | none => disk
  | _ => disk

/-- Writes a file. Where a link stands, the file that it leads to is written. -/
def write (disk : Disk) (path : Path) (content : DiskEntry) : Disk :=
  match disk.locate path with
  | .ok place => disk.insertAt place content
  | .error _ => disk.replace path content

/-- Deletes an entry, with everything beneath it when it is a directory. A link is deleted itself. -/
def delete (disk : Disk) (path : Path) : Disk :=
  match disk.placeOf? path with
  | some place => disk.eraseBeneath place
  | none => disk

/-- A place that moves along when `source` becomes `target`. -/
def movedPlace (source target place : Place) : Place :=
  if source.isPrefixOf place then target ++ place.drop source.length else place

/-- The places between which an entry moves when it is given another path. There are none when
nothing moves. -/
def movedBetween? (disk : Disk) (source target : Path) : Option (Place × Place) := do
  let source ← disk.placeOf? source
  let target ← disk.placeOf? target
  if source = target ∨ (disk.entryAt? source).isNone then none else some (source, target)

/-- Gives an entry another path, in the place of what stands there. What lies beneath moves along. -/
def rename (disk : Disk) (source target : Path) : Disk :=
  match disk.movedBetween? source target with
  | some (source, target) =>
    let remaining := (disk.eraseBeneath target).eraseBeneath source
    let moved := disk.entries.toList.filter fun (place, _) ↦ source.isPrefixOf place
    moved.foldl (fun disk (place, entry) ↦ disk.insertAt (movedPlace source target place) entry)
      remaining
  | none => disk

end Disk

/-- An operation on files. -/
inductive FileOperation where
  /-- Puts an entry at a path in a single step, in the place of what stands there. -/
  | replace (path : Path) (entry : DiskEntry)
  | makeDirectories (path : Path)
  /-- Deletes an entry and everything beneath it. -/
  | delete (path : Path)
  | rename (source target : Path)
  deriving DecidableEq, Repr, Inhabited

/-- The disk after an operation. -/
def Disk.perform (disk : Disk) : FileOperation → Disk
  | .replace path entry => disk.replace path entry
  | .makeDirectories path => disk.makeDirectories path
  | .delete path => disk.delete path
  | .rename source target => disk.rename source target

end LiveSpec
