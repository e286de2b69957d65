import LiveSpec.Proofs.Index.Stores

/-!
# Removing a directory file by file

Removing a directory does what removing its files one after another does, in any order of them
(`Index.exists_removeTree`). The removal of a directory forgets its specifications one by one, but its
concept files all at once, and it refreshes the concepts once at the end. Single removals refresh them
each time, and in between a concept can be admitted whose file is removed next. What is left in the two
stores is the same, though: everything that does not lie beneath the directory, as it was. The stores
determine the rest.

Lying beneath a directory goes by whole components, so a sibling whose name only starts like that of the
directory keeps its files (`Index.exists_removeTree_old`).
-/

set_option autoImplicit false

namespace LiveSpec

namespace PathMap

variable {α : Type} {map : PathMap α}

/-- Assumes: two lists of paths that hold the same of the stored locations. Forgetting the one is forgetting the
other. -/
theorem foldl_erase_congr {paths others : List Path}
    (h : ∀ location stored, map.entries[location]? = some stored →
      ((∃ path ∈ paths, path.location = location) ↔ ∃ path ∈ others, path.location = location)) :
    paths.foldl erase map = others.foldl erase map := by
  refine ext fun location ↦ ?_
  rw [getElem?_foldl_erase, getElem?_foldl_erase]
  cases hstored : map.entries[location]? with
  | none => simp
  | some stored => rw [if_congr (h location stored hstored) rfl rfl]

theorem mem_pathsBeneath {directory path : Path} :
    path ∈ map.pathsBeneath directory ↔ path ∈ map.paths ∧ directory.location <+: path.location := by
  rw [pathsBeneath, List.mem_filter, Path.isBeneath, List.isPrefixOf_iff_prefix]

/-- Assumes: every stored spelling is one of its location. A stored location is listed beneath a directory
exactly when the directory is a prefix of it. -/
theorem exists_mem_pathsBeneath_iff (h : map.IsSpelled) {directory : Path} {location : Location}
    {stored : Path × α} (hstored : map.entries[location]? = some stored) :
    (∃ path ∈ map.pathsBeneath directory, path.location = location) ↔ directory.location <+: location := by
  constructor
  · rintro ⟨path, hpath, rfl⟩
    exact (mem_pathsBeneath.mp hpath).2
  · intro hprefix
    have hlocation := h location stored hstored
    refine ⟨stored.1, mem_pathsBeneath.mpr ⟨?_, hlocation ▸ hprefix⟩, hlocation⟩
    exact mem_paths.mpr ⟨location, stored.2, hstored⟩

end PathMap

namespace Cache

variable {cache : Cache} {path : Path}

theorem SpecificationsAgree.erase_eq_self (h : cache.SpecificationsAgree)
    (hkind : path.sourceKind ≠ .specification) : cache.specifications.erase path = cache.specifications := by
  refine PathMap.erase_of_not_contains (Bool.eq_false_iff.mpr fun hknown ↦ ?_)
  exact hkind (h.sourceKind_eq path hknown)

theorem ConceptsAgree.erase_eq_self (h : cache.ConceptsAgree) (hkind : path.sourceKind ≠ .concepts) :
    cache.concepts.erase path = cache.concepts := by
  refine PathMap.erase_of_not_contains (Bool.eq_false_iff.mpr fun hknown ↦ ?_)
  exact hkind (h.sourceKind_eq path hknown)

end Cache

namespace Index

variable {index : Index} {contents : Contents}

/-! ### Removing files -/

/-- Assumes: a sound index. Removing a path erases it from both stores. -/
theorem exists_update_erase (h : index.cache.IsSound) (contents : Contents) (path : Path) :
    ∃ update, (Change.remove path).prepare contents index.dictionary = .ok update ∧
      (index.commit update).cache.specifications = index.cache.specifications.erase path ∧
      (index.commit update).cache.concepts = index.cache.concepts.erase path := by
  simp only [specifications_commit, concepts_commit, Change.prepare]
  cases hkind : path.sourceKind with
  | specification =>
    exact ⟨_, rfl, rfl, (h.concepts.erase_eq_self (by rw [hkind]; decide)).symm⟩
  | concepts =>
    exact ⟨_, rfl, (h.specifications.erase_eq_self (by rw [hkind]; decide)).symm, rfl⟩
  | other =>
    exact ⟨_, rfl, (h.specifications.erase_eq_self (by rw [hkind]; decide)).symm,
      (h.concepts.erase_eq_self (by rw [hkind]; decide)).symm⟩

/-- Assumes: a sound and settled index. Removing paths one after another erases them from both stores. -/
theorem Stands.stores_applyAll_removals (h : index.Stands) (contents : Contents) (removals : List Path) :
    (index.applyAll contents (removals.map .remove)).cache.specifications =
        removals.foldl PathMap.erase index.cache.specifications ∧
      (index.applyAll contents (removals.map .remove)).cache.concepts =
        removals.foldl PathMap.erase index.cache.concepts := by
  induction removals generalizing index with
  | nil => exact ⟨rfl, rfl⟩
  | cons path removals ih =>
    obtain ⟨update, hprepared, hspecs, hconcepts⟩ := exists_update_erase h.isSound contents path
    rw [List.map_cons, applyAll_cons _ hprepared, List.foldl_cons, List.foldl_cons, ← hspecs, ← hconcepts]
    exact ih (h.commit (Change.hasKinds_of_prepare hprepared))

/-! ### Removing a directory -/

/-- The known paths that a directory is a prefix of, by whole components. -/
def knownBeneath (index : Index) (directory : Path) : List Path :=
  (index.cache.specifications.paths ++ index.cache.concepts.paths).filter fun path ↦
    directory.location <+: path.location

/-- What an index is after a directory has been removed. -/
structure IsCleared (before : Index) (directory : Path) (after : Index) : Prop where
  /-- Nothing beneath the directory is known. -/
  not_knows : ∀ path : Path, directory.location <+: path.location → ¬ after.Knows path
  /-- Nothing beneath the directory contributes a signature. -/
  not_prefix_of_mem : ∀ signature, ∀ contributor ∈ after.cache.contributors signature,
    ¬ directory.location <+: contributor.location
  /-- What is stored of other paths is as it was. -/
  specifications_eq : ∀ path : Path, ¬ directory.location <+: path.location →
    after.cache.specifications.stored? path = before.cache.specifications.stored? path
  concepts_eq : ∀ path : Path, ¬ directory.location <+: path.location →
    after.cache.concepts.stored? path = before.cache.concepts.stored? path
  /-- The own steps of the concepts that are admitted then are listed. -/
  listed_of_mem_body : ∀ concept ∈ after.dictionary.toList, ∀ step ∈ concept.body,
    step.isConcept = false → step.value ∈ after.cache.steps.map StepSignature.value

/-- Assumes: an index that can be reached. What a removed directory was a prefix of is gone, what else was
stored is unchanged, and the steps of the concepts that are left are listed. -/
theorem IsReachable.isCleared (h : index.IsReachable) (contents : Contents) (directory : Path) :
    index.IsCleared directory (index.commit (.removeTree directory)) := by
  have hafter : (index.commit (.removeTree directory)).IsReachable :=
    h.apply contents (.removeTree directory) rfl
  have hclear := isClearOf_removeTree h.stands.isSound directory
  have hbeneath : ∀ path : Path, directory.location <+: path.location → path.isBeneath directory = true :=
    fun path hprefix ↦ List.isPrefixOf_iff_prefix.mpr hprefix
  have hother : ∀ {α : Type} (map : PathMap α) (path : Path), ¬ directory.location <+: path.location →
      ((map.pathsBeneath directory).foldl PathMap.erase map).stored? path = map.stored? path := by
    intro α map path hprefix
    refine (PathMap.getElem?_foldl_erase map _ path.location).trans (if_neg ?_)
    rintro ⟨listed, hlisted, hsame⟩
    exact hprefix (hsame ▸ (PathMap.mem_pathsBeneath.mp hlisted).2)
  constructor
  · intro path hprefix
    exact hclear path (hbeneath path hprefix)
  · intro signature contributor hcontributor hprefix
    have hcontributes : (index.commit (.removeTree directory)).cache.catalogue.Contributes contributor
        signature :=
      hafter.stands.isSound.catalogue.exists_mem_contributors_iff.mp ⟨contributor, hcontributor, rfl⟩
    exact hclear contributor (hbeneath contributor hprefix)
      (knows_of_contributes hafter.stands.isSound hcontributes)
  · intro path hprefix
    rw [specifications_removeTree]
    exact hother _ path hprefix
  · intro path hprefix
    rw [concepts_removeTree]
    exact hother _ path hprefix
  · intro concept hconcept step hstep hown
    exact (hafter.stands.listed_iff hafter.conceptsAreRead step.value).mpr
      (.inr ⟨concept, hconcept, step, hstep, hown, rfl⟩)

/-- Assumes: an index that can be reached, and the known paths beneath a directory in any order. Removing the
directory leaves the same as removing these paths one after another. -/
theorem exists_removeTree (h : index.IsReachable) (contents : Contents) (directory : Path)
    {removals : List Path} (hremovals : removals.Perm (index.knownBeneath directory)) :
    ∃ after, index.apply contents (.removeTree directory) = .ok after ∧
      after.SameButForms (index.applyAll contents (removals.map .remove)) ∧
      index.IsCleared directory after := by
  refine ⟨index.commit (.removeTree directory), rfl, ?_, h.isCleared contents directory⟩
  have hafter : (index.commit (.removeTree directory)).IsReachable :=
    h.apply contents (.removeTree directory) rfl
  obtain ⟨hspecs, hconcepts⟩ := h.stands.stores_applyAll_removals contents removals
  have hmem : ∀ path, path ∈ removals ↔
      (path ∈ index.cache.specifications.paths ∨ path ∈ index.cache.concepts.paths) ∧
        directory.location <+: path.location := by
    intro path
    rw [hremovals.mem_iff, knownBeneath, List.mem_filter, List.mem_append, decide_eq_true_iff]
  have hstore : ∀ {α : Type} (map : PathMap α), map.IsSpelled →
      (∀ path ∈ map.paths, path ∈ index.cache.specifications.paths ∨ path ∈ index.cache.concepts.paths) →
      (map.pathsBeneath directory).foldl PathMap.erase map = removals.foldl PathMap.erase map := by
    intro α map hspelled hknown
    refine PathMap.foldl_erase_congr fun location stored hstored ↦ ?_
    rw [PathMap.exists_mem_pathsBeneath_iff hspelled hstored]
    constructor
    · intro hprefix
      obtain ⟨path, hpath, hsame⟩ :=
        (PathMap.exists_mem_pathsBeneath_iff hspelled hstored).mpr hprefix
      obtain ⟨hlisted, hbeneath⟩ := PathMap.mem_pathsBeneath.mp hpath
      exact ⟨path, (hmem path).mpr ⟨hknown path hlisted, hbeneath⟩, hsame⟩
    · rintro ⟨path, hpath, rfl⟩
      exact ((hmem path).mp hpath).2
  have hsound := h.stands.isSound
  refine hafter.sameButForms (h.applyAll contents _) ?_ ?_
  · rw [specifications_removeTree, hspecs]
    exact hstore _ hsound.specifications.isSpelled fun _ ↦ .inl
  · rw [concepts_removeTree, hconcepts]
    exact hstore _ hsound.concepts.isSpelled fun _ ↦ .inr

/-- Two concept files define the same concept, one of them in a sibling directory with a longer name. -/
def oldContents : Contents := fun path ↦
  if path = ⟨"specs/old/a.cpt"⟩ then .ok "# Log in\n* Open page\n"
  else if path = ⟨"specs/old/b.spec"⟩ then .ok "# Pay\n* Log in\n* Pay\n"
  else .ok "# Log in\n* Open door\n"

def oldIndex : Index :=
  (new [⟨"specs"⟩]).applyAll oldContents
    [.write ⟨"specs/old/a.cpt"⟩, .write ⟨"specs/older/a.cpt"⟩, .write ⟨"specs/old/b.spec"⟩]

/-- The directory holds a specification and the concept file whose concept is admitted. When it has been removed
the concept of the sibling directory takes its place. -/
theorem exists_removeTree_old :
    oldIndex.IsReachable ∧
      [⟨"specs/old/a.cpt"⟩, ⟨"specs/old/b.spec"⟩].Perm (oldIndex.knownBeneath ⟨"specs/old"⟩) ∧
      (∃ after, oldIndex.apply oldContents (.removeTree ⟨"specs/old"⟩) = .ok after ∧
        after.SameButForms (oldIndex.applyAll oldContents
          ([⟨"specs/old/a.cpt"⟩, ⟨"specs/old/b.spec"⟩].map .remove)) ∧
        oldIndex.IsCleared ⟨"specs/old"⟩ after) ∧
      (oldIndex.applyAll oldContents
        ([⟨"specs/old/a.cpt"⟩, ⟨"specs/old/b.spec"⟩].map .remove)).cache.contributors "Open door" =
          [⟨"specs/older/a.cpt"⟩] := by
  have hreachable : oldIndex.IsReachable := (IsReachable.start (.new [⟨"specs"⟩])).applyAll _ _
  have hremovals : [⟨"specs/old/a.cpt"⟩, ⟨"specs/old/b.spec"⟩].Perm
      (oldIndex.knownBeneath ⟨"specs/old"⟩) := by decide +kernel
  exact ⟨hreachable, hremovals, exists_removeTree hreachable oldContents ⟨"specs/old"⟩ hremovals,
    by decide +kernel⟩

end Index

end LiveSpec
