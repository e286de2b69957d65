import LiveSpec.Path.Basic
import Std.Data.ExtTreeMap

/-!
# Stores keyed by path

A `PathMap` holds one value for each location, in the order of locations. Paths that spell the same
location are the same key, and the spelling under which a location was first stored stays until the
location is erased. A `PathSet` holds paths without values.

Each operation is described by what it does to look-ups: `find?_set`, `find?_erase`. Two maps that
hold the same spellings and values at every location are equal (`PathMap.ext`).
-/

set_option autoImplicit false

namespace LiveSpec

/-- A value for each of a finite set of locations, with the spelling first used for it. -/
structure PathMap (α : Type) where
  entries : Std.ExtTreeMap Location (Path × α)

/-- A finite set of locations, with the spelling first used for each. -/
abbrev PathSet := PathMap Unit

namespace PathMap

variable {α : Type}

/-- The map that holds nothing. -/
def empty : PathMap α := ⟨∅⟩

instance : EmptyCollection (PathMap α) := ⟨empty⟩

instance : Inhabited (PathMap α) := ⟨empty⟩

/-- The spelling and value stored for the location of a path. -/
def stored? (map : PathMap α) (path : Path) : Option (Path × α) := map.entries[path.location]?

/-- The value stored for the location of a path. -/
def find? (map : PathMap α) (path : Path) : Option α := (map.stored? path).map Prod.snd

/-- Whether anything is stored for the location of a path. -/
def contains (map : PathMap α) (path : Path) : Bool := (map.stored? path).isSome

/-- Stores a value. A location that is stored already keeps its spelling. -/
def set (map : PathMap α) (path : Path) (value : α) : PathMap α :=
  let spelled := match map.stored? path with
    | some (first, _) => first
    | none => path
  ⟨map.entries.insert path.location (spelled, value)⟩

/-- Forgets the location of a path. -/
def erase (map : PathMap α) (path : Path) : PathMap α := ⟨map.entries.erase path.location⟩

/-- The stored spellings and values, ordered by location. -/
def toList (map : PathMap α) : List (Path × α) := map.entries.toList.map Prod.snd

/-- The stored spellings, ordered by location. -/
def paths (map : PathMap α) : List Path := map.toList.map Prod.fst

/-- The stored values, ordered by location. -/
def values (map : PathMap α) : List α := map.toList.map Prod.snd

/-- How many locations are stored. -/
def size (map : PathMap α) : Nat := map.entries.size

/-- Whether nothing is stored. -/
def isEmpty (map : PathMap α) : Bool := map.entries.isEmpty

/-- The stored spellings of locations beneath a directory, ordered by location. -/
def pathsBeneath (map : PathMap α) (directory : Path) : List Path :=
  map.paths.filter fun path ↦ path.isBeneath directory

/-- Maps that agree at every location are equal. -/
theorem ext {first second : PathMap α}
    (h : ∀ location : Location, first.entries[location]? = second.entries[location]?) :
    first = second := by
  cases first
  cases second
  exact congrArg mk (Std.ExtTreeMap.ext_getElem? h)

theorem stored?_empty (path : Path) : (∅ : PathMap α).stored? path = none := by
  show (∅ : Std.ExtTreeMap Location (Path × α))[path.location]? = none
  simp

/-- Storing a value is seen by every spelling of its location and by no other path. -/
theorem find?_set (map : PathMap α) (path other : Path) (value : α) :
    (map.set path value).find? other =
      if path.location = other.location then some value else map.find? other := by
  simp only [find?, stored?, set, Std.ExtTreeMap.getElem?_insert, Std.compare_eq_iff_eq]
  split <;> simp

/-- Forgetting a location is seen by every spelling of it and by no other path. -/
theorem find?_erase (map : PathMap α) (path other : Path) :
    (map.erase path).find? other =
      if path.location = other.location then none else map.find? other := by
  simp only [find?, stored?, erase, Std.ExtTreeMap.getElem?_erase, Std.compare_eq_iff_eq]
  split <;> simp

end PathMap

namespace PathSet

/-- Adds a path. A location that is in the set already keeps its spelling. -/
def insert (paths : PathSet) (path : Path) : PathSet := PathMap.set paths path ()

/-- Adds paths one after another. -/
def insertAll (paths : PathSet) (more : List Path) : PathSet := more.foldl insert paths

end PathSet

end LiveSpec
