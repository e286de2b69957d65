import LiveSpec.Proofs.Path.Map

/-!
# Stores filled in order

A list of paths is in order when each location comes after the one before it (`Path.AreInOrder`); the
listing of a store is. A store that is filled from such a list, with a value for each path, holds just
these spellings and values (`PathMap.toList_setAll`), whatever the paths are. In particular a look-up
finds a value exactly when it was given for a spelling of the same location (`PathMap.find?_setAll`).

When the values are stored in another order, or over older values, the spellings may differ, and look-ups
give the same in the end: all but the paths that are still to come have their values
(`PathMap.IsFilling`, `PathMap.IsFilling.find?_eq`).
-/

set_option autoImplicit false

namespace LiveSpec

/-- Every location of the list is less than those after it. -/
def Path.AreInOrder (paths : List Path) : Prop :=
  paths.Pairwise fun path later ↦ compare path.location later.location = .lt

/-- What is left of a list in order is in order. -/
theorem Path.AreInOrder.sublist {paths more : List Path} (h : Path.AreInOrder more)
    (hsublist : paths.Sublist more) : Path.AreInOrder paths :=
  List.Pairwise.sublist hsublist h

theorem Path.AreInOrder.nodup {paths : List Path} (h : Path.AreInOrder paths) :
    (paths.map Path.location).Nodup := by
  refine List.pairwise_map.mpr (List.Pairwise.imp ?_ h)
  intro path later hless hsame
  rw [Std.compare_eq_iff_eq.mpr hsame] at hless
  cases hless

namespace PathMap

variable {α : Type} {map : PathMap α}

/-- Assumes: every stored spelling is one of its location. The listing of a store is in order. -/
theorem areInOrder_paths (h : map.IsSpelled) : Path.AreInOrder map.paths := by
  have hordered : (map.paths.map Path.location).Pairwise fun location later ↦
      compare location later = .lt := by
    rw [map_location_paths h]
    exact Std.ExtTreeMap.ordered_keys
  exact List.pairwise_map.mp hordered

/-- Stores values one after another. -/
def setAll (map : PathMap α) (entries : List (Path × α)) : PathMap α :=
  entries.foldl (fun map entry ↦ map.set entry.1 entry.2) map

theorem isSpelled_setAll (h : map.IsSpelled) (entries : List (Path × α)) :
    (map.setAll entries).IsSpelled := by
  induction entries generalizing map with
  | nil => exact h
  | cons entry entries ih => exact ih (isSpelled_set h entry.1 entry.2)

theorem getElem?_set_of_not_contains {path : Path} (hnew : map.contains path = false) (value : α)
    (location : Location) :
    (map.set path value).entries[location]? =
      if path.location = location then some (path, value) else map.entries[location]? := by
  have hstored : map.stored? path = none := by
    rw [← Option.isNone_iff_eq_none, ← Option.not_isSome, ← contains, hnew]
    rfl
  simp only [set, hstored, Std.ExtTreeMap.getElem?_insert, Std.compare_eq_iff_eq]

/-- Assumes: different locations, none of which is stored yet. A store that is filled with them holds
what it was given, besides what it held before. -/
theorem getElem?_setAll {entries : List (Path × α)}
    (hdifferent : (entries.map fun entry ↦ entry.1.location).Nodup)
    (hnew : ∀ entry ∈ entries, map.contains entry.1 = false) {location : Location}
    {stored : Path × α} :
    (map.setAll entries).entries[location]? = some stored ↔
      (stored ∈ entries ∧ stored.1.location = location) ∨
        map.entries[location]? = some stored := by
  induction entries generalizing map with
  | nil => simp [setAll]
  | cons entry entries ih =>
    rw [List.map_cons, List.nodup_cons] at hdifferent
    have hlater : ∀ later ∈ entries, (map.set entry.1 entry.2).contains later.1 = false := by
      intro later hmem
      rw [Bool.eq_false_iff]
      intro hknown
      rcases contains_set.mp hknown with hsame | hknown
      · exact hdifferent.1 (List.mem_map.mpr ⟨later, hmem, hsame.symm⟩)
      · rw [hnew later (List.mem_cons_of_mem entry hmem)] at hknown
        cases hknown
    refine (ih hdifferent.2 hlater).trans ?_
    have hfirst := hnew entry List.mem_cons_self
    rw [getElem?_set_of_not_contains hfirst, List.mem_cons]
    by_cases hsame : entry.1.location = location
    · subst hsame
      have hnone : map.entries[entry.1.location]? = none := by
        rw [← Option.isNone_iff_eq_none, ← Option.not_isSome]
        exact congrArg not hfirst
      rw [if_pos rfl, hnone, Option.some.injEq]
      constructor
      · rintro (⟨hmem, hlocation⟩ | rfl)
        · exact Or.inl ⟨Or.inr hmem, hlocation⟩
        · exact Or.inl ⟨Or.inl rfl, rfl⟩
      · rintro (⟨rfl | hmem, hlocation⟩ | hcontra)
        · exact Or.inr rfl
        · exact Or.inl ⟨hmem, hlocation⟩
        · cases hcontra
    · rw [if_neg hsame]
      constructor
      · rintro (⟨hmem, hlocation⟩ | hold)
        · exact Or.inl ⟨Or.inr hmem, hlocation⟩
        · exact Or.inr hold
      · rintro (⟨rfl | hmem, hlocation⟩ | hold)
        · exact absurd hlocation hsame
        · exact Or.inl ⟨hmem, hlocation⟩
        · exact Or.inr hold

section Filled

variable {entries : List (Path × α)} (h : Path.AreInOrder (entries.map Prod.fst))

include h

theorem getElem?_setAll_empty {location : Location} {stored : Path × α} :
    ((∅ : PathMap α).setAll entries).entries[location]? = some stored ↔
      stored ∈ entries ∧ stored.1.location = location := by
  have hdifferent : (entries.map fun entry ↦ entry.1.location).Nodup := by
    have hnodup := h.nodup
    rw [List.map_map] at hnodup
    exact hnodup
  rw [getElem?_setAll hdifferent fun entry _ ↦ contains_empty entry.1]
  have hnone : (∅ : PathMap α).entries[location]? = none := Std.ExtTreeMap.getElem?_empty
  rw [hnone]
  simp

/-- Assumes: paths in order. A store that is filled with values for them holds just these. -/
theorem toList_setAll : ((∅ : PathMap α).setAll entries).toList = entries := by
  have hordered : entries.Pairwise fun entry later ↦
      compare entry.1.location later.1.location = .lt := List.pairwise_map.mp h
  have hpairs : ((∅ : PathMap α).setAll entries).entries.toList =
      entries.map fun entry ↦ (entry.1.location, entry) := by
    have hgiven : (entries.map fun entry ↦ (entry.1.location, entry)).Pairwise fun one other ↦
        compare one.1 other.1 = .lt := List.pairwise_map.mpr hordered
    have hnodup : ∀ {pairs : List (Location × (Path × α))},
        (pairs.Pairwise fun one other ↦ compare one.1 other.1 = .lt) → pairs.Nodup := by
      intro pairs hpairs
      refine hpairs.imp fun {one other} hless hsame ↦ ?_
      rw [Std.compare_eq_iff_eq.mpr (congrArg Prod.fst hsame)] at hless
      cases hless
    -- Both lists are ordered strictly, so it is enough that they have the same members.
    refine List.Perm.eq_of_pairwise ?_ Std.ExtTreeMap.ordered_keys_toList hgiven ?_
    · intro one other _ _ hless hgreater
      rw [Std.OrientedCmp.gt_of_lt hless] at hgreater
      cases hgreater
    · refine (List.perm_ext_iff_of_nodup (hnodup Std.ExtTreeMap.ordered_keys_toList)
        (hnodup hgiven)).mpr fun ⟨location, stored⟩ ↦ ?_
      rw [Std.ExtTreeMap.mem_toList_iff_getElem?_eq_some, getElem?_setAll_empty h]
      simp only [List.mem_map, Prod.mk.injEq]
      constructor
      · rintro ⟨hmem, hlocation⟩
        exact ⟨stored, hmem, hlocation, rfl⟩
      · rintro ⟨entry, hmem, hlocation, rfl⟩
        exact ⟨hmem, hlocation⟩
  rw [toList, hpairs, List.map_map]
  exact List.map_id entries

/-- Assumes: paths in order. A look-up in a store that is filled with values for them finds a value
exactly when it was given for the same location. -/
theorem find?_setAll {path : Path} {value : α} :
    ((∅ : PathMap α).setAll entries).find? path = some value ↔
      ∃ given, (given, value) ∈ entries ∧ given.location = path.location := by
  rw [find?, stored?, Option.map_eq_some_iff]
  simp only [getElem?_setAll_empty h, Prod.exists]
  constructor
  · rintro ⟨given, found, ⟨hmem, hlocation⟩, rfl⟩
    exact ⟨given, hmem, hlocation⟩
  · rintro ⟨given, hmem, hlocation⟩
    exact ⟨given, value, ⟨hmem, hlocation⟩, rfl⟩

end Filled

/-! ### Stores filled in any order -/

/-- A store is being filled with a value for each of some paths: it holds no other locations, and it holds
the values of all paths but those that are still to come. -/
structure IsFilling (map : PathMap α) (sources : List Path) (value : Path → α) (rest : List Path) :
    Prop where
  known : ∀ path, map.contains path = true → ∃ source ∈ sources, source.location = path.location
  filled : ∀ source ∈ sources, source ∈ rest ∨ map.find? source = some (value source)

/-- Assumes: paths of different locations. Storing the value of the next one is a step of the filling. -/
theorem IsFilling.set {sources rest : List Path} {value : Path → α} {file : Path}
    (h : map.IsFilling sources value (file :: rest)) (hfile : file ∈ sources)
    (hdifferent : (sources.map Path.location).Nodup) :
    (map.set file (value file)).IsFilling sources value rest := by
  constructor
  · intro path hpath
    rcases contains_set.mp hpath with hsame | hknown
    · exact ⟨file, hfile, hsame⟩
    · exact h.known path hknown
  · intro source hsource
    rw [find?_set]
    by_cases hsame : file.location = source.location
    · obtain rfl := List.inj_on_of_nodup_map hdifferent hfile hsource hsame
      exact Or.inr (if_pos rfl)
    · rw [if_neg hsame]
      rcases h.filled source hsource with hcoming | hfilled
      · rcases List.mem_cons.mp hcoming with rfl | hlater
        · exact absurd rfl hsame
        · exact Or.inl hlater
      · exact Or.inr hfilled

/-- Two stores that are filled from the same paths with the same values answer every look-up alike. -/
theorem IsFilling.find?_eq {first second : PathMap α} {sources : List Path} {value : Path → α}
    (hfirst : first.IsFilling sources value []) (hsecond : second.IsFilling sources value [])
    (path : Path) : first.find? path = second.find? path := by
  have hvalue : ∀ {store : PathMap α} {source : Path}, store.IsFilling sources value [] →
      source ∈ sources → source.location = path.location →
        store.find? path = some (value source) := by
    intro store source hstore hsource hsame
    rw [← find?_congr hsame]
    exact (hstore.filled source hsource).resolve_left List.not_mem_nil
  by_cases hsource : ∃ source ∈ sources, source.location = path.location
  · obtain ⟨source, hsource, hsame⟩ := hsource
    rw [hvalue hfirst hsource hsame, hvalue hsecond hsource hsame]
  · have hnone : ∀ {store : PathMap α}, store.IsFilling sources value [] →
        store.find? path = none := by
      intro store hstore
      rw [← Option.not_isSome_iff_eq_none, ← contains_eq_isSome]
      exact fun hknown ↦ hsource (hstore.known path hknown)
    rw [hnone hfirst, hnone hsecond]

end PathMap

end LiveSpec
