import LiveSpec.Path.Basic

/-!
# File events

The operating system reports changes in many kinds (`RawEvent`). For the index four of them matter
(`FileEvent`): a path was created, its content was written, it was renamed away, or it is gone. The
new name of a renamed file counts as created. When it is not known which side of a rename a path is,
the path is taken for the new name if there is something at it. Events of other kinds are dropped.
-/

set_option autoImplicit false

namespace LiveSpec

/-- The kinds of change that the operating system reports. -/
inductive RawEventKind where
  | created
  | removed
  /-- The content or the attributes changed. -/
  | modified
  /-- The paths are old names. -/
  | renamedFrom
  /-- The paths are new names. -/
  | renamedTo
  /-- The first path is the old name and the second the new one. -/
  | renamedBoth
  /-- It is not known whether the paths are old or new names. -/
  | renamedUnknown
  /-- Access, or a kind that says nothing. -/
  | irrelevant
  deriving DecidableEq, Repr, Inhabited

/-- A change as the operating system reports it. -/
structure RawEvent where
  kind : RawEventKind
  paths : List Path
  deriving DecidableEq, Repr, Inhabited

/-- A change as it matters to the index. -/
inductive FileEvent where
  | created (path : Path)
  | written (path : Path)
  | renamedAway (path : Path)
  | removed (path : Path)
  deriving DecidableEq, Repr, Inhabited

namespace FileEvent

/-- The path that an event is about. -/
def path : FileEvent → Path
  | created path => path
  | written path => path
  | renamedAway path => path
  | removed path => path

/-- The event for a path of which it is not known which side of a rename it is. -/
def ofRenameSide (exists? : Path → Bool) (path : Path) : FileEvent :=
  if exists? path then created path else renamedAway path

/-- The events that a report stands for. `exists?` tells whether there is something at a path. -/
def ofRaw (exists? : Path → Bool) (event : RawEvent) : List FileEvent :=
  match event.kind with
  | .created => event.paths.map created
  | .removed => event.paths.map removed
  | .modified => event.paths.map written
  | .renamedFrom => event.paths.map renamedAway
  | .renamedTo => event.paths.map created
  | .renamedBoth =>
    event.paths[0]?.toList.map renamedAway ++ event.paths[1]?.toList.map created
  | .renamedUnknown => event.paths.map (ofRenameSide exists?)
  | .irrelevant => []

end FileEvent

end LiveSpec
