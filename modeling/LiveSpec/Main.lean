import LiveSpec.CommandLine.Run

/-!
# The program

Reads as much of the file system as a command looks at, runs the command on it and prints what it
answers. A command that follows the files goes on by reading the file system again and again and
handing what has changed to the service.
-/

set_option autoImplicit false

namespace LiveSpec.Loader

/-- A disk that is being filled, and the directories of which everything has been read. -/
structure State where
  disk : Disk
  complete : List Place

/-- The place that an absolute path spells. -/
def placeOf (spelling : String) : Place :=
  (Path.mk spelling).location.filterMap fun component ↦
    match component with
    | .name text => some text
    | _ => none

/-- The entry that stands at a place. A link is read as one to the path that it finally leads to. -/
def readEntry (place : Place) : IO (Option DiskEntry) := do
  let path := (← IO.currentDir) / (Path.ofPlace place).spelling
  try
    match (← path.symlinkMetadata).type with
    | .dir => return some .directory
    | .symlink => return some (.link ⟨(← IO.FS.realPath path).toString⟩)
    | _ => return some (.ofBytes (← IO.FS.readBinFile path))
  catch _ => return none

/-- The names in the directory at a place. -/
def readNames (place : Place) : IO (List String) := do
  let path := (← IO.currentDir) / (Path.ofPlace place).spelling
  try
    return (← path.readDir).toList.map (·.fileName)
  catch _ => return []

/-- Takes the entry at a place over to the disk. -/
def loadEntry (state : State) (place : Place) : IO State := do
  match ← readEntry place with
  | some entry => return { state with disk := state.disk.insertAt place entry }
  | none => return state

/-- The files of a directory that can hold ignore rules, and the directories that they are in. -/
def ruleFiles : List Place :=
  [[".ignore"], [".gitignore"], [".jj"], [".git"], [".git", "info"], [".git", "info", "exclude"]]

/-- Takes over what stands at a place and on the way to it. -/
def loadWay (state : State) (place : Place) : IO State :=
  (List.range place.length).foldlM
    (fun state length ↦ loadEntry state (place.take (length + 1))) state

/-- Takes over what a path leads through and to, and nothing beneath it. -/
def loadFile (state : State) (file : Path) : IO State := do
  let components := (Path.ofPlace state.disk.workingDirectory |>.join file).location
  let mut state := state
  let mut passed : Path := ⟨"/"⟩
  for component in components do
    match component with
    | .name text => passed := passed.child text
    | .parent => passed := passed.child ".."
    | _ => pure ()
    state ← loadWay state (placeOf passed.spelling)
    try
      state ← loadWay state (placeOf (← IO.FS.realPath passed.spelling).toString)
    catch _ => pure ()
  return state

/-- Takes over the files by which a directory names records of version control that are elsewhere. -/
def loadRecords (state : State) (directory : Place) : IO State := do
  match state.disk.recordsElsewhere? directory with
  | none => return state
  | some records =>
    let state ← loadFile state (Disk.sharingFile records)
    match state.disk.excludeFile? directory with
    | none => return state
    | some file => loadFile state file

mutual

/-- Takes everything over that a path leads through and to. -/
partial def loadPath (state : State) (place : Place) : IO State := do
  let mut state := state
  for length in List.range place.length do
    let way := place.take (length + 1)
    for rules in [] :: ruleFiles do
      state ← loadEntry state (way ++ rules)
    state ← loadRecords state way
    match state.disk.entryAt? way with
    | some (.link target) =>
      return ← loadPath state (placeOf target.spelling ++ place.drop (length + 1))
    | _ => pure ()
  loadBeneath state place

/-- Takes everything over that is beneath a place. -/
partial def loadBeneath (state : State) (place : Place) : IO State := do
  match state.disk.entryAt? place with
  | some (.link target) => loadPath state (placeOf target.spelling)
  | some .directory =>
    if state.complete.contains place then return state
    let mut state := { state with complete := place :: state.complete }
    for name in ← readNames place do
      let entry := place ++ [name]
      state ← loadEntry state entry
      state ← loadBeneath state entry
    loadRecords state place
  | _ => return state

end

/-- A disk with everything that some paths lead to. -/
def load (workingDirectory : Place) (paths : List Path) : IO Disk := do
  let base := Path.ofPlace workingDirectory
  let mut state : State := ⟨.bare workingDirectory, []⟩
  for path in paths do
    let spelling := (base.join path).spelling
    try
      let real ← IO.FS.realPath spelling
      state ← loadPath state (placeOf real.toString)
    catch _ => pure ()
    state ← loadPath state (placeOf spelling)
  return state.disk

end LiveSpec.Loader

open LiveSpec

/-- Follows the files under some paths, one look a second. -/
partial def followFiles (service : Service) (before : Disk) (paths : List Path) : IO Unit := do
  IO.sleep 1000
  let after ← Loader.load before.workingDirectory paths
  followFiles (service.catchUp before after) after paths

/-- Prints what a command answers. -/
def printOutcome (outcome : CommandOutcome) : IO Unit := do
  IO.eprint outcome.errorText
  if let .failure _ := outcome.result then IO.eprintln ""
  IO.print outcome.output

/-- The program. Which directories a command looks at is known when the settings have been read. -/
def main (arguments : List String) : IO UInt32 := do
  let here := Loader.placeOf (← IO.currentDir).toString
  let mut paths : List Path := []
  if let some invocation := Invocation.parse? arguments then
    paths := [invocation.settingsPath (.bare here)]
    let settingsOnly ← Loader.load here paths
    if let .ok project := invocation.project settingsOnly then
      paths := paths ++ (invocation.command.map project.pathsFor).getD []
  let disk ← Loader.load here paths
  let outcome := CommandLine.run disk arguments
  printOutcome outcome
  if let some invocation := Invocation.parse? arguments then
    if let .ok project := invocation.project disk then
      if let (.success, some (.watch _)) := (outcome.result, invocation.command) then
        followFiles (Service.start project.directories disk).1 disk paths
  return outcome.code.toUInt32
