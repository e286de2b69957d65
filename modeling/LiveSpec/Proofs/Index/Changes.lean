import LiveSpec.Proofs.Index.Build

/-!
# Changes worked off one after another

A change that is worked off alone leaves a sound and settled index behind when it found one
(`Index.Stands.apply`), so every index that can be reached by builds and changes is sound and settled
(`Index.IsReachable.stands`), and with that coherent (`Index.IsReachable.isCoherent`). What has been
prepared for a change concerns paths of the right kind only (`Update.HasKinds`), and refreshing the concepts
settles whatever it finds without touching what is known of the files (`Index.stands_refreshConcepts`,
`Index.specifications_refreshConcepts`, `Index.concepts_refreshConcepts`).
-/

set_option autoImplicit false

namespace LiveSpec

/-- An update concerns paths of the kind that it is about. -/
def Update.HasKinds : Update → Prop
  | replaceSpecification spec => spec.file.sourceKind = .specification
  | removeSpecification path => path.sourceKind = .specification
  | replaceConcepts path _ => path.sourceKind = .concepts
  | removeConcepts path => path.sourceKind = .concepts
  | nothing => True
  | removeTree _ => True

/-- What has been prepared for a change concerns paths of the right kind. -/
theorem Change.hasKinds_of_prepare {change : Change} {contents : Contents} {dictionary : Dictionary}
    {update : Update} (h : change.prepare contents dictionary = .ok update) : update.HasKinds := by
  cases change with
  | write path =>
    simp only [prepare] at h
    split at h
    · rename_i hkind
      cases hread : contents.expanded dictionary path with
      | error error =>
        rw [hread] at h
        cases h
      | ok spec =>
        rw [hread] at h
        cases h
        show spec.file.sourceKind = .specification
        rw [Contents.file_of_expanded hread]
        exact hkind
    · rename_i hkind
      cases hread : contents.concepts path with
      | error error =>
        rw [hread] at h
        cases h
      | ok concepts =>
        rw [hread] at h
        cases h
        exact hkind
    · cases h
      trivial
  | remove path =>
    simp only [prepare] at h
    split at h
    · rename_i hkind
      cases h
      exact hkind
    · rename_i hkind
      cases h
      exact hkind
    · cases h
      trivial
  | removeTree directory =>
    cases h
    trivial

namespace Change

variable {contents : Contents} {dictionary : Dictionary} {file : Path}

/-- A concept file that can be parsed is written by replacing its concepts. -/
theorem prepare_write_concepts (hkind : file.sourceKind = .concepts) {concepts : List Concept}
    (hread : contents.concepts file = .ok concepts) :
    (write file).prepare contents dictionary = .ok (.replaceConcepts file concepts) := by
  simp only [prepare, hkind, hread]
  rfl

/-- A specification that can be expanded is written by replacing it. -/
theorem prepare_write_specification (hkind : file.sourceKind = .specification) {spec : Specification}
    (hread : contents.expanded dictionary file = .ok spec) :
    (write file).prepare contents dictionary = .ok (.replaceSpecification spec) := by
  simp only [prepare, hkind, hread]
  rfl

end Change

namespace Cache

variable {cache : Cache} {dictionary : Dictionary}

/-- Replaces the steps of some concept files, one after another. -/
def replaceAllSteps (cache : Cache) (dictionary : Dictionary) (files : List Path) : Cache :=
  files.foldl (fun cache file ↦ cache.replaceSteps file (dictionary.fileSignatures file)) cache

theorem specifications_replaceAllSteps (files : List Path) :
    (cache.replaceAllSteps dictionary files).specifications = cache.specifications := by
  induction files generalizing cache with
  | nil => rfl
  | cons file files ih => exact ih

theorem concepts_replaceAllSteps (files : List Path) :
    (cache.replaceAllSteps dictionary files).concepts = cache.concepts := by
  induction files generalizing cache with
  | nil => rfl
  | cons file files ih => exact ih

/-- After the steps of all files that were to come have been replaced, none is left to come. -/
theorem IsRefreshing.replaceAllSteps {files : List Path} (h : cache.IsRefreshing dictionary files)
    (hsound : cache.IsSound) :
    (cache.replaceAllSteps dictionary files).IsRefreshing dictionary [] ∧
      (cache.replaceAllSteps dictionary files).IsSound := by
  induction files generalizing cache with
  | nil => exact ⟨h, hsound⟩
  | cons file files ih =>
    exact ih h.replaceSteps (hsound.replaceSteps (h.contains_of_mem file List.mem_cons_self) _)

end Cache

namespace Index

variable {index : Index}

/-- A sound cache, and a dictionary and concept files that are up to date. -/
structure Stands (index : Index) : Prop where
  isSound : index.cache.IsSound
  isSettled : index.IsSettled

/-- Assumes: concept files and specification files in order. A build leaves the index sound and settled. -/
theorem stands_buildFrom {conceptFiles specificationFiles : List Path}
    (hconcepts : Path.AreSources .concepts conceptFiles)
    (hspecs : Path.AreSources .specification specificationFiles) (contents : Contents) (index : Index) :
    (index.buildFrom contents conceptFiles specificationFiles).1.Stands :=
  ⟨isSound_buildFrom hconcepts hspecs index, isSettled_buildFrom hconcepts hspecs index⟩

/-! ### Refreshing -/

theorem specifications_refreshConcepts (index : Index) :
    index.refreshConcepts.cache.specifications = index.cache.specifications :=
  Cache.specifications_replaceAllSteps _

theorem concepts_refreshConcepts (index : Index) :
    index.refreshConcepts.cache.concepts = index.cache.concepts :=
  Cache.concepts_replaceAllSteps _

/-- Assumes: a sound cache. Refreshing the concepts settles the index. -/
theorem stands_refreshConcepts (h : index.cache.IsSound) : index.refreshConcepts.Stands := by
  have hrefreshed := (h.concepts.isRefreshing index.rebuildDictionary.dictionary).replaceAllSteps h
  refine ⟨hrefreshed.2, isSettled_of_isRefreshing rfl ?_ hrefreshed.1⟩
  rw [Cache.allConcepts, concepts_refreshConcepts]
  rfl

/-! ### Putting updates into the index -/

theorem Stands.replaceSpecification (h : index.Stands) {spec : Specification}
    (hkind : spec.file.sourceKind = .specification) :
    (index.commit (.replaceSpecification spec)).Stands :=
  ⟨h.isSound.replaceSpecification hkind, h.isSettled.of_same h.isSound.concepts
    ⟨rfl, Cache.sameConcepts_replaceSpecification hkind spec.signatures⟩⟩

theorem Stands.removeSpecification (h : index.Stands) {path : Path}
    (hkind : path.sourceKind = .specification) : (index.commit (.removeSpecification path)).Stands :=
  ⟨h.isSound.removeSpecification hkind, h.isSettled.of_same h.isSound.concepts
    ⟨rfl, Cache.sameConcepts_removeSpecification hkind⟩⟩

theorem Stands.replaceConcepts (h : index.Stands) {path : Path} (hkind : path.sourceKind = .concepts)
    (concepts : List Concept) : (index.commit (.replaceConcepts path concepts)).Stands :=
  stands_refreshConcepts (h.isSound.replaceConcepts hkind concepts)

theorem Stands.removeConcepts (h : index.Stands) {path : Path} (hkind : path.sourceKind = .concepts) :
    (index.commit (.removeConcepts path)).Stands := by
  simp only [commit]
  split
  · exact stands_refreshConcepts (h.isSound.removeConcepts hkind)
  · rename_i hunknown
    exact ⟨h.isSound.removeConcepts hkind,
      h.isSettled.removeConcepts (Bool.eq_false_iff.mpr hunknown)⟩

/-- Forgetting specifications one after another. -/
theorem Stands.removeSpecifications (h : index.Stands) {paths : List Path}
    (hkinds : ∀ path ∈ paths, path.sourceKind = .specification) :
    ({ index with cache := paths.foldl Cache.removeSpecification index.cache } : Index).Stands := by
  induction paths generalizing index with
  | nil => exact h
  | cons path paths ih =>
    exact ih (h.removeSpecification (hkinds path List.mem_cons_self))
      fun other hother ↦ hkinds other (List.mem_cons_of_mem path hother)

theorem isSound_removeConcepts {cache : Cache} (h : cache.IsSound) {files : List Path}
    (hkinds : ∀ file ∈ files, file.sourceKind = .concepts) :
    (files.foldl Cache.removeConcepts cache).IsSound := by
  induction files generalizing cache with
  | nil => exact h
  | cons file files ih =>
    exact ih (h.removeConcepts (hkinds file List.mem_cons_self))
      fun other hother ↦ hkinds other (List.mem_cons_of_mem file hother)

theorem Stands.removeSpecificationsBeneath (h : index.Stands) (directory : Path) :
    (index.removeSpecificationsBeneath directory).Stands := by
  refine h.removeSpecifications fun path hpath ↦ ?_
  exact h.isSound.specifications.sourceKind_eq path
    (PathMap.contains_of_mem_paths h.isSound.specifications.isSpelled (List.mem_filter.mp hpath).1)

theorem Stands.sourceKind_of_mem_conceptFilesBeneath (h : index.Stands) {directory file : Path}
    (hfile : file ∈ index.cache.conceptFilesBeneath directory) : file.sourceKind = .concepts :=
  h.isSound.concepts.sourceKind_eq file
    (PathMap.contains_of_mem_paths h.isSound.concepts.isSpelled (List.mem_filter.mp hfile).1)

theorem Stands.removeTree (h : index.Stands) (directory : Path) :
    (index.commit (.removeTree directory)).Stands := by
  have hleft := h.removeSpecificationsBeneath directory
  show ((index.removeSpecificationsBeneath directory).removeConceptsBeneath directory).Stands
  generalize index.removeSpecificationsBeneath directory = index at hleft
  unfold removeConceptsBeneath
  split
  · exact hleft
  · exact stands_refreshConcepts (isSound_removeConcepts hleft.isSound fun _ hfile ↦
      hleft.sourceKind_of_mem_conceptFilesBeneath hfile)

/-- Assumes: a sound and settled index, and an update on paths of the right kind. The index stays sound
and settled. -/
theorem Stands.commit (h : index.Stands) {update : Update} (hkinds : update.HasKinds) :
    (index.commit update).Stands := by
  cases update with
  | nothing => exact h
  | replaceSpecification spec => exact h.replaceSpecification hkinds
  | removeSpecification path => exact h.removeSpecification hkinds
  | replaceConcepts path concepts => exact h.replaceConcepts hkinds concepts
  | removeConcepts path => exact h.removeConcepts hkinds
  | removeTree directory => exact h.removeTree directory

theorem Stands.apply (h : index.Stands) {contents : Contents} {change : Change} {after : Index}
    (happlied : index.apply contents change = .ok after) : after.Stands := by
  unfold Index.apply at happlied
  cases hprepared : change.prepare contents index.dictionary with
  | error error =>
    rw [hprepared] at happlied
    cases happlied
  | ok update =>
    rw [hprepared] at happlied
    cases happlied
    exact h.commit (Change.hasKinds_of_prepare hprepared)

/-! ### Reachable indices -/

/-- An index that comes about by a build and by changes worked off one after another, each with what
reading gave at its time. -/
inductive IsReachable : Index → Prop
  | start {index : Index} (h : index.IsStart) : IsReachable index
  | apply {index after : Index} (h : IsReachable index) (contents : Contents) (change : Change)
    (happlied : index.apply contents change = .ok after) : IsReachable after

theorem IsReachable.stands (h : index.IsReachable) : index.Stands := by
  induction h with
  | start hstart => exact ⟨hstart.isSound, hstart.isSettled⟩
  | apply _ contents change happlied ih => exact ih.apply happlied

/-- Every index that can be reached is coherent. -/
theorem IsReachable.isCoherent (h : index.IsReachable) : index.IsCoherent :=
  Index.isCoherent h.stands.isSound h.stands.isSettled

/-- Passing over changes that fail, any changes lead from one index that can be reached to another. -/
theorem IsReachable.applyAll (h : index.IsReachable) (contents : Contents) (changes : List Change) :
    (index.applyAll contents changes).IsReachable := by
  induction changes generalizing index with
  | nil => exact h
  | cons change changes ih =>
    have hnext : ((index.apply contents change).toOption.getD index).IsReachable := by
      cases happlied : index.apply contents change with
      | ok after => exact h.apply contents change happlied
      | error error => exact h
    exact ih hnext

end Index

end LiveSpec
