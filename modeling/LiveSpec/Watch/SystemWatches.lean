import LiveSpec.Disk.Tree
import LiveSpec.Path.Map

/-!
# Watches of the system

The operating system watches what stands at a place, whatever paths lead there: there is one watch at
a place, and it moves along when the directory is renamed. It reports under the path that was
registered last. When any of its paths is given up the watch ends, and the other paths are left
without one (`SystemWatches.remove`).
-/

set_option autoImplicit false

namespace LiveSpec

/-- The watches that the system keeps. -/
structure SystemWatches where
  /-- The places that are watched, each with the path under which it is reported. -/
  names : Std.ExtTreeMap Place Path
  /-- The place that is watched for each path. -/
  places : PathMap Place

namespace SystemWatches

/-- There are no watches. -/
def empty : SystemWatches := ⟨∅, ∅⟩

instance : Inhabited SystemWatches := ⟨empty⟩

/-- Watches the place that a path leads to, and reports it under that path. -/
def add (watches : SystemWatches) (path : Path) (place : Place) : SystemWatches :=
  ⟨watches.names.insert place path, watches.places.set path place⟩

/-- Where the watches are when what was watched at a place is at another one, or nowhere. -/
def carry (watches : SystemWatches) (destination : Place → Option Place) : SystemWatches where
  names :=
    watches.names.toList.foldl
      (fun names (place, path) ↦
        match destination place with
        | some place => names.insert place path
        | none => names)
      ∅
  places :=
    watches.places.toList.foldl
      (fun places (path, place) ↦
        match destination place with
        | some place => places.set path place
        | none => places)
      ∅

/-- Ends the watch that a path has. -/
def remove (watches : SystemWatches) (path : Path) : SystemWatches :=
  match watches.places.find? path with
  | some ended => watches.carry fun place ↦ if place = ended then none else some place
  | none => watches

/-- The path under which what stands at a place reports its own end. -/
def nameOf? (watches : SystemWatches) (place : Place) : Option Path := watches.names[place]?

/-- The path under which the directory around a place reports what stands there. -/
def seenAs? (watches : SystemWatches) (place : Place) : Option Path :=
  match place.getLast? with
  | some name => (watches.nameOf? place.dropLast).map fun directory ↦ directory.child name
  | none => none

end SystemWatches

end LiveSpec
