import LiveSpec.Disk.Edit
import LiveSpec.Watch.Coverage

/-!
# Reports of file operations

An operation on files is reported to the watches of the directories in which an entry appears or
disappears, and to the watch of an entry that disappears itself or is replaced. Of directories that
are made on the way only those in a watched directory are reported, and of a renamed directory only
the directory. Entries that are deleted together are reported from the inside out.

`FileOperation.events` are the reports of one operation, and `FileOperation.destination` says where
the watches are after it. Where only the files before and after are known,
`SystemWatches.eventsBetween` gives reports for all that has changed.
-/

set_option autoImplicit false

namespace LiveSpec

/-- The events for an entry that has disappeared. -/
def SystemWatches.losses (watches : SystemWatches) (event : Path → FileEvent) (place : Place) :
    List FileEvent :=
  ((watches.seenAs? place).toList ++ (watches.nameOf? place).toList).map event

/-- The events for an entry that has appeared. -/
def SystemWatches.appearances (watches : SystemWatches) (place : Place) : List FileEvent :=
  (watches.seenAs? place).toList.map .created

/-- The events for an entry that another one has taken the place of. -/
def SystemWatches.replacements (watches : SystemWatches) (place : Place) : List FileEvent :=
  (watches.nameOf? place).toList.map .removed

/-- The places at which there is something in the second disk and nothing in the first. -/
def Disk.placesAddedIn (before after : Disk) : List Place :=
  after.entries.keys.filter fun place ↦ (before.entryAt? place).isNone

namespace FileOperation

/-- The events that an operation reports. -/
def events (operation : FileOperation) (before : Disk) (watches : SystemWatches) :
    List FileEvent :=
  let after := before.perform operation
  match operation with
  | .replace path _ =>
    let added := before.placesAddedIn after
    match after.placeOf? path with
    | some place =>
      (if added.contains place then added else added ++ [place]).flatMap watches.appearances ++
        watches.replacements place
    | none => added.flatMap watches.appearances
  | .makeDirectories _ => (before.placesAddedIn after).flatMap watches.appearances
  | .delete _ => (after.placesAddedIn before).reverse.flatMap (watches.losses .removed)
  | .rename source target =>
    match before.movedBetween? source target with
    | some (source, target) =>
      (watches.seenAs? source).toList.map .renamedAway ++ watches.appearances target ++
        (watches.nameOf? source).toList.map .renamedAway ++ watches.replacements target
    | none => []

/-- Where what stood at a place is after an operation, if it is still there. -/
def destination (operation : FileOperation) (before : Disk) (place : Place) : Option Place :=
  match operation with
  | .replace path _ => if before.placeOf? path = some place then none else some place
  | .makeDirectories _ => some place
  | .delete path =>
    match before.placeOf? path with
    | some deleted => if deleted.isPrefixOf place then none else some place
    | none => some place
  | .rename source target =>
    match before.movedBetween? source target with
    | some (source, target) =>
      if source.isPrefixOf place then some (Disk.movedPlace source target place)
      else if target.isPrefixOf place then none
      else some place
    | none => some place

end FileOperation

/-- The places at which two disks hold different entries. -/
def Disk.placesChanged (before after : Disk) : List Place :=
  after.entries.keys.filter fun place ↦
    (before.entryAt? place).isSome && before.entryAt? place != after.entryAt? place

namespace SystemWatches

/-- The events for everything by which a second disk differs from a first. -/
def eventsBetween (watches : SystemWatches) (before after : Disk) : List FileEvent :=
  (after.placesAddedIn before).reverse.flatMap (watches.losses .removed) ++
    (before.placesAddedIn after).flatMap watches.appearances ++
    (before.placesChanged after).flatMap fun place ↦ (watches.seenAs? place).toList.map .written

/-- The watches that are left on a second disk. -/
def remaining (watches : SystemWatches) (after : Disk) : SystemWatches :=
  watches.carry fun place ↦ if (after.entryAt? place).isSome then some place else none

end SystemWatches

end LiveSpec
