import LiveSpec.Path.Map
import Mathlib.Data.List.Nodup
import Mathlib.Tactic.Tauto

/-!
# What a store holds

A store keyed by path is asked by look-ups and listed in the order of locations. Every listed spelling
is a spelling of the location it is stored for (`PathMap.IsSpelled`), which the operations of a store
preserve; then a location is listed exactly when it is stored (`exists_mem_paths_iff`), and the listed
locations and values depend on nothing but the look-ups (`map_location_paths_congr`, `values_congr`).
-/

set_option autoImplicit false

namespace LiveSpec

namespace PathMap

variable {α : Type} {map first second : PathMap α}

/-! ### Look-ups -/

theorem find?_empty (path : Path) : (∅ : PathMap α).find? path = none := by
  rw [find?, stored?_empty]
  rfl

theorem contains_iff {path : Path} :
    map.contains path = true ↔ ∃ value, map.find? path = some value := by
  rw [contains, ← Option.isSome_iff_exists, find?, Option.isSome_map]

theorem contains_eq_isSome (map : PathMap α) (path : Path) :
    map.contains path = (map.find? path).isSome := by
  rw [contains, find?, Option.isSome_map]

theorem contains_empty (path : Path) : (∅ : PathMap α).contains path = false := by
  rw [contains, stored?_empty]
  rfl

theorem contains_set {path other : Path} {value : α} :
    (map.set path value).contains other = true ↔
      path.location = other.location ∨ map.contains other = true := by
  rw [contains_eq_isSome, contains_eq_isSome, find?_set]
  split <;> rename_i hsame <;> simp [hsame]

theorem contains_erase {path other : Path} :
    (map.erase path).contains other = true ↔
      path.location ≠ other.location ∧ map.contains other = true := by
  rw [contains_eq_isSome, contains_eq_isSome, find?_erase]
  split <;> rename_i hsame <;> simp [hsame]

theorem stored?_set (map : PathMap α) (path other : Path) (value : α) :
    (map.set path value).stored? other =
      if path.location = other.location then some (((map.stored? path).map Prod.fst).getD path, value)
      else map.stored? other := by
  simp only [stored?, set, Std.ExtTreeMap.getElem?_insert, Std.compare_eq_iff_eq]
  cases map.entries[path.location]? <;> rfl

theorem stored?_erase (map : PathMap α) (path other : Path) :
    (map.erase path).stored? other =
      if path.location = other.location then none else map.stored? other := by
  simp only [stored?, erase, Std.ExtTreeMap.getElem?_erase, Std.compare_eq_iff_eq]

/-- What has been forgotten is not there, and everything else is as it was. -/
theorem getElem?_foldl_erase (map : PathMap α) (paths : List Path) (location : Location) :
    (paths.foldl erase map).entries[location]? =
      if ∃ path ∈ paths, path.location = location then none else map.entries[location]? := by
  induction paths generalizing map with
  | nil => simp
  | cons path paths ih =>
    rw [List.foldl_cons, ih, erase, Std.ExtTreeMap.getElem?_erase]
    by_cases hsame : path.location = location
    · simp [hsame]
    · simp [hsame]

theorem find?_set_self (map : PathMap α) (path : Path) (value : α) :
    (map.set path value).find? path = some value :=
  (find?_set map path path value).trans (if_pos rfl)

theorem contains_erase_self (map : PathMap α) (path : Path) : (map.erase path).contains path = false := by
  rw [Bool.eq_false_iff]
  exact fun hknown ↦ (contains_erase.mp hknown).1 rfl

/-- Storing what is stored already changes nothing. -/
theorem set_of_find? {path : Path} {value : α} (h : map.find? path = some value) :
    map.set path value = map := by
  obtain ⟨⟨first, old⟩, hstored, rfl⟩ := Option.map_eq_some_iff.mp h
  refine ext fun location ↦ ?_
  simp only [set, hstored, Std.ExtTreeMap.getElem?_insert, Std.compare_eq_iff_eq]
  split
  · next hsame =>
    subst hsame
    exact hstored.symm
  · rfl

/-- Forgetting what is not stored changes nothing. -/
theorem erase_of_not_contains {path : Path} (h : map.contains path = false) :
    map.erase path = map := by
  refine ext fun location ↦ ?_
  simp only [erase, Std.ExtTreeMap.getElem?_erase, Std.compare_eq_iff_eq]
  split
  · rename_i hsame
    subst hsame
    rw [contains, stored?, Option.isSome_eq_false_iff, Option.isNone_iff_eq_none] at h
    exact h.symm
  · rfl

/-- Two spellings of one location are asked alike. -/
theorem find?_congr {path other : Path} (h : path.location = other.location) :
    map.find? path = map.find? other := by
  rw [find?, find?, stored?, stored?, h]

theorem contains_congr {path other : Path} (h : path.location = other.location) :
    map.contains path = map.contains other := by
  rw [contains_eq_isSome, contains_eq_isSome, find?_congr h]

/-! ### Spellings -/

/-- Every stored spelling is one of the location it is stored for. -/
def IsSpelled (map : PathMap α) : Prop :=
  ∀ (location : Location) (stored : Path × α), map.entries[location]? = some stored →
    stored.1.location = location

theorem isSpelled_empty : (∅ : PathMap α).IsSpelled := by
  intro location stored h
  change (∅ : Std.ExtTreeMap Location (Path × α))[location]? = some stored at h
  rw [Std.ExtTreeMap.getElem?_empty] at h
  cases h

theorem isSpelled_set (h : map.IsSpelled) (path : Path) (value : α) :
    (map.set path value).IsSpelled := by
  intro location stored hstored
  simp only [set, Std.ExtTreeMap.getElem?_insert, Std.compare_eq_iff_eq] at hstored
  split at hstored
  · rename_i hsame
    obtain rfl := Option.some.inj hstored
    subst hsame
    dsimp only
    split
    · rename_i first old hfirst
      exact h path.location (first, old) hfirst
    · rfl
  · exact h location stored hstored

theorem isSpelled_erase (h : map.IsSpelled) (path : Path) : (map.erase path).IsSpelled := by
  intro location stored hstored
  simp only [erase, Std.ExtTreeMap.getElem?_erase, Std.compare_eq_iff_eq] at hstored
  split at hstored
  · cases hstored
  · exact h location stored hstored

/-! ### Listings -/

theorem mem_paths {path : Path} :
    path ∈ map.paths ↔
      ∃ (location : Location) (value : α), map.entries[location]? = some (path, value) := by
  simp only [paths, toList, List.map_map, List.mem_map, Function.comp_apply, Prod.exists]
  constructor
  · rintro ⟨location, spelling, value, hmem, rfl⟩
    exact ⟨location, value, Std.ExtTreeMap.mem_toList_iff_getElem?_eq_some.mp hmem⟩
  · rintro ⟨location, value, hstored⟩
    exact ⟨location, path, value, Std.ExtTreeMap.mem_toList_iff_getElem?_eq_some.mpr hstored, rfl⟩

/-- Assumes: every stored spelling is one of its location. A listed path is stored. -/
theorem contains_of_mem_paths (h : map.IsSpelled) {path : Path} (hmem : path ∈ map.paths) :
    map.contains path = true := by
  obtain ⟨location, value, hstored⟩ := mem_paths.mp hmem
  have hlocation : path.location = location := h location (path, value) hstored
  rw [contains, stored?, hlocation, hstored]
  rfl

/-- Assumes: every stored spelling is one of its location. A location is listed exactly when it is
stored. -/
theorem exists_mem_paths_iff (h : map.IsSpelled) {path : Path} :
    (∃ listed ∈ map.paths, listed.location = path.location) ↔ map.contains path = true := by
  constructor
  · rintro ⟨listed, hmem, hsame⟩
    rw [← contains_congr hsame]
    exact contains_of_mem_paths h hmem
  · intro hstored
    rw [contains, stored?, Option.isSome_iff_exists] at hstored
    obtain ⟨⟨listed, value⟩, hstored⟩ := hstored
    exact ⟨listed, mem_paths.mpr ⟨_, value, hstored⟩, h _ _ hstored⟩

theorem isEmpty_eq_false_of_contains {path : Path} (h : map.contains path = true) :
    map.isEmpty = false := by
  rw [isEmpty, Std.ExtTreeMap.isEmpty_eq_false_iff]
  intro hempty
  rw [contains, stored?, hempty, Std.ExtTreeMap.getElem?_empty] at h
  cases h

/-- A store that is not empty lists a path. -/
theorem exists_mem_paths_of_isEmpty_eq_false (h : map.isEmpty = false) :
    ∃ path, path ∈ map.paths := by
  rw [isEmpty, ← Std.ExtTreeMap.isEmpty_toList, List.isEmpty_eq_false_iff_exists_mem] at h
  obtain ⟨⟨location, path, value⟩, hmem⟩ := h
  exact ⟨path, mem_paths.mpr ⟨location, value, Std.ExtTreeMap.mem_toList_iff_getElem?_eq_some.mp hmem⟩⟩

/-- Assumes: every stored spelling is one of its location. The listed paths spell the locations of
the store, in order. -/
theorem map_location_paths (h : map.IsSpelled) : map.paths.map Path.location = map.entries.keys := by
  rw [← Std.ExtTreeMap.map_fst_toList_eq_keys, paths, toList, List.map_map, List.map_map]
  refine List.map_congr_left fun entry hmem ↦ ?_
  exact h entry.1 entry.2 (Std.ExtTreeMap.mem_toList_iff_getElem?_eq_some.mp hmem)

/-- Assumes: two stores in which every spelling is one of its location, and which answer every look-up
alike. Apart from the spellings they are the same. -/
theorem map_snd_congr (hfirst : first.IsSpelled) (hsecond : second.IsSpelled)
    (h : ∀ path, first.find? path = second.find? path) :
    first.entries.map (fun _ stored ↦ stored.2) = second.entries.map fun _ stored ↦ stored.2 := by
  have hhalf : ∀ {one other : PathMap α} (_ : one.IsSpelled)
      (_ : ∀ path, one.find? path = other.find? path) (location : Location) (stored : Path × α),
      one.entries[location]? = some stored →
        (other.entries[location]?).map Prod.snd = some stored.2 := by
    intro one other hone hsame location stored hstored
    have hlocation := hone location stored hstored
    have hfound := hsame stored.1
    rw [find?, find?, stored?, stored?, hlocation, hstored] at hfound
    exact hfound.symm
  refine Std.ExtTreeMap.ext_getElem? fun location ↦ ?_
  rw [Std.ExtTreeMap.getElem?_map, Std.ExtTreeMap.getElem?_map]
  cases hentry : first.entries[location]? with
  | some stored => exact (hhalf hfirst h location stored hentry).symm
  | none =>
    cases hother : second.entries[location]? with
    | none => rfl
    | some stored =>
      have hback := hhalf hsecond (fun path ↦ (h path).symm) location stored hother
      rw [hentry] at hback
      cases hback

/-- Assumes: two stores in which every spelling is one of its location, and which answer every look-up
alike. They list the same locations. -/
theorem map_location_paths_congr (hfirst : first.IsSpelled) (hsecond : second.IsSpelled)
    (h : ∀ path, first.find? path = second.find? path) :
    first.paths.map Path.location = second.paths.map Path.location := by
  rw [map_location_paths hfirst, map_location_paths hsecond,
    ← Std.ExtTreeMap.keys_map, map_snd_congr hfirst hsecond h, Std.ExtTreeMap.keys_map]

/-- Assumes: two stores in which every spelling is one of its location, and which answer every look-up
alike. They list the same values. -/
theorem values_congr (hfirst : first.IsSpelled) (hsecond : second.IsSpelled)
    (h : ∀ path, first.find? path = second.find? path) : first.values = second.values := by
  have hvalues : ∀ store : PathMap α,
      store.values = (store.entries.map fun _ stored ↦ stored.2).toList.map Prod.snd := by
    intro store
    rw [Std.ExtTreeMap.toList_map, values, toList, List.map_map, List.map_map]
    rfl
  rw [hvalues, hvalues, map_snd_congr hfirst hsecond h]

end PathMap

namespace PathSet

/-- Sets with the same members answer every look-up alike. -/
theorem find?_eq_of_contains_iff {first second : PathSet}
    (h : ∀ path : Path, first.contains path = true ↔ second.contains path = true) (path : Path) :
    PathMap.find? first path = PathMap.find? second path := by
  have hsame : (PathMap.find? first path).isSome = (PathMap.find? second path).isSome := by
    rw [← PathMap.contains_eq_isSome, ← PathMap.contains_eq_isSome, Bool.eq_iff_iff]
    exact h path
  cases hfirst : PathMap.find? first path with
  | none =>
    rw [hfirst] at hsame
    exact (Option.isNone_iff_eq_none.mp (Option.isSome_eq_false_iff.mp hsame.symm)).symm
  | some _ =>
    rw [hfirst] at hsame
    obtain ⟨_, hsecond⟩ := Option.isSome_iff_exists.mp hsame.symm
    rw [hsecond]

theorem contains_insertAll {paths : PathSet} {more : List Path} {path : Path} :
    PathMap.contains (insertAll paths more) path = true ↔
      PathMap.contains paths path = true ∨ ∃ added ∈ more, added.location = path.location := by
  induction more generalizing paths with
  | nil => simp [insertAll]
  | cons first more ih =>
    rw [insertAll, List.foldl_cons]
    refine ih.trans ?_
    rw [insert, PathMap.contains_set]
    simp only [List.mem_cons, exists_eq_or_imp]
    tauto

theorem isSpelled_insertAll {paths : PathSet} (h : PathMap.IsSpelled paths) (more : List Path) :
    PathMap.IsSpelled (insertAll paths more) := by
  induction more generalizing paths with
  | nil => exact h
  | cons first more ih => exact ih (PathMap.isSpelled_set h first ())

/-- What is listed in a set made of some paths spells the location of one of them. -/
theorem exists_of_mem_paths_insertAll {more : List Path} {path : Path}
    (h : path ∈ PathMap.paths (insertAll ∅ more)) :
    ∃ added ∈ more, added.location = path.location := by
  have hcontains := PathMap.contains_of_mem_paths
    (isSpelled_insertAll PathMap.isSpelled_empty more) h
  rw [contains_insertAll, PathMap.contains_empty] at hcontains
  exact hcontains.resolve_left (by decide)

/-- Assumes: two sets in which every spelling is one of its location, and which have stored the same spelling for
every path. They are the same. -/
theorem eq_of_stored?_eq {first second : PathSet} (hfirst : PathMap.IsSpelled first)
    (hsecond : PathMap.IsSpelled second)
    (h : ∀ path, (PathMap.stored? first path).map Prod.fst = (PathMap.stored? second path).map Prod.fst) :
    first = second := by
  have hhalf : ∀ {one other : PathSet} (_ : PathMap.IsSpelled one)
      (_ : ∀ path, (PathMap.stored? one path).map Prod.fst = (PathMap.stored? other path).map Prod.fst)
      (location : Location) (stored : Path × Unit),
      one.entries[location]? = some stored → other.entries[location]? = some stored := by
    intro one other hone hsame location stored hstored
    have hfound := hsame stored.1
    rw [PathMap.stored?, PathMap.stored?, hone location stored hstored, hstored] at hfound
    obtain ⟨found, hother, hspelling⟩ := Option.map_eq_some_iff.mp hfound.symm
    rw [hother]
    exact congrArg some (Prod.ext hspelling rfl)
  refine PathMap.ext fun location ↦ Option.ext fun stored ↦ ⟨?_, ?_⟩
  · exact hhalf hfirst h location stored
  · exact hhalf hsecond (fun path ↦ (h path).symm) location stored

end PathSet

end LiveSpec
