import LiveSpec.Disk.Walk
import LiveSpec.Index.Change
import LiveSpec.Watch.Event
import LiveSpec.Watch.SystemWatches

/-!
# Watched directories

Every directory with sources has a watch of its own, which does not extend to the directories in it.
So the watched directories are an explicit set: it grows by a directory with all that is nested in
it, and shrinks by a directory with all that is beneath it (`Coverage.registerTree`,
`Coverage.deregister`).

An event asks for changes of the index and can change the set (`Coverage.respond`). A new directory
is watched, and its sources are written, concepts first, because what was put into it before the
watch reports no events. A watched directory that is gone takes everything beneath it along, because
a renamed directory reports nothing of its files. Any other event is about a file, and matters if
the path is that of a source.
-/

set_option autoImplicit false

namespace LiveSpec

/-- The directories that are watched, and the watches that the system keeps for them. -/
structure Coverage where
  watched : PathSet
  system : SystemWatches

namespace Coverage

/-- Nothing is watched. -/
def empty : Coverage := ⟨∅, .empty⟩

/-- Whether a directory is watched. -/
def isWatched (coverage : Coverage) (directory : Path) : Bool :=
  PathMap.contains coverage.watched directory

/-- The watched directories in order. -/
def directories (coverage : Coverage) : List Path := PathMap.paths coverage.watched

/-- Watches a directory, if there is one. For one that is in the set already nothing is done, even
when the system has ended its watch. -/
def register (disk : Disk) (coverage : Coverage) (directory : Path) : Coverage :=
  if coverage.isWatched directory then coverage
  else
    match disk.canonicalPlace? directory with
    | some place => ⟨coverage.watched.insert directory, coverage.system.add directory place⟩
    | none => coverage

/-- Watches a directory and every directory nested in it. -/
def registerTree (disk : Disk) (coverage : Coverage) (directory : Path) : Coverage :=
  let registered := coverage.register disk directory
  if registered.isWatched directory then
    (disk.nestedDirectories directory).foldl (register disk) registered
  else registered

/-- Gives up the watch of a directory. -/
def release (coverage : Coverage) (directory : Path) : Coverage :=
  ⟨coverage.watched.erase directory, coverage.system.remove directory⟩

/-- Gives up the watches of a directory and of everything beneath it. -/
def deregister (coverage : Coverage) (directory : Path) : Coverage :=
  (PathMap.pathsBeneath coverage.watched directory).foldl release coverage

/-- The change for a file that was written, if it is a source. -/
def writeOf (path : Path) : List Change :=
  if path.sourceKind = .other then [] else [.write path]

/-- The change for a file that is gone, if it was a source. -/
def removalOf (path : Path) : List Change :=
  if path.sourceKind = .other then [] else [.remove path]

/-- The changes for a new directory: its concept files are written and then its specifications. -/
def arrivals (disk : Disk) (directory : Path) : List Change :=
  (disk.sources .concepts directory ++ disk.sources .specification directory).map .write

/-- The response to a path that is gone. -/
def respondToLoss (coverage : Coverage) (path : Path) : Coverage × List Change :=
  if coverage.isWatched path then (coverage.deregister path, [.removeTree path])
  else (coverage, removalOf path)

/-- What is watched after an event, and the changes that it asks for. -/
def respond (coverage : Coverage) (disk : Disk) : FileEvent → Coverage × List Change
  | .created path =>
    if disk.isDirectory path then (coverage.registerTree disk path, arrivals disk path)
    else (coverage, writeOf path)
  | .written path => (coverage, writeOf path)
  | .renamedAway path => coverage.respondToLoss path
  | .removed path => coverage.respondToLoss path

end Coverage

end LiveSpec
