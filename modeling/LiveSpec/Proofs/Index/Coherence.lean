import LiveSpec.Index.Change
import LiveSpec.Proofs.Index.Catalogue

/-!
# Coherence of the index

An index is coherent when its dictionary is that of all its concepts and the catalogue lists exactly
what its files contribute (`Index.IsCoherent`): the own steps of the specification of a path, and the
steps of the admitted concepts of a concept file.

A path holds specifications or concepts, never both, so the cache has two halves that do not touch each
other. The specifications and what they contribute belong together at every moment
(`Cache.SpecificationsAgree`), because both are replaced in one step. What concept files contribute
depends on the dictionary and catches up with it file by file; at every moment only files that are
known contribute anything (`Cache.ConceptsAgree`). An operation on one half leaves the other as it is
(`Cache.SameConcepts`, `Cache.SameSpecifications`). A cache with both halves in order and an orderly
catalogue is sound (`Cache.IsSound`), and a sound index whose dictionary and concept files are up to
date (`Index.IsSettled`) is coherent (`Index.isCoherent`).

Replacing the steps of the concept files one after another brings all of them up to date, whatever they
contributed before: every file is up to date or still to come (`Cache.IsRefreshing`).
-/

set_option autoImplicit false

namespace LiveSpec

/-- Two spellings of one location hold sources of one kind. -/
theorem Path.sourceKind_congr {path other : Path} (h : path.location = other.location) :
    path.sourceKind = other.sourceKind := by
  unfold Path.sourceKind Path.extension? Path.fileName?
  rw [h]

theorem Dictionary.fileSignatures_congr {dictionary : Dictionary} {file other : Path}
    (h : file.location = other.location) :
    dictionary.fileSignatures file = dictionary.fileSignatures other := by
  unfold Dictionary.fileSignatures
  rw [h]

/-- What the concepts that are defined in a file contribute. -/
theorem Dictionary.mem_fileSignatures {dictionary : Dictionary} {file : Path} {signature : String} :
    signature ∈ (dictionary.fileSignatures file).map StepSignature.value ↔
      ∃ concept ∈ dictionary.toList, concept.file.location = file.location ∧
        ∃ step ∈ concept.body, step.isConcept = false ∧ step.value = signature := by
  simp only [fileSignatures, Concept.signatures, atomicSignatures, StepSignature.ofStep,
    List.map_flatMap, List.map_map, List.mem_flatMap, List.mem_filter, List.mem_map,
    Function.comp_apply, decide_eq_true_eq, Bool.not_eq_true', and_assoc]

/-- What the index knows belongs together. -/
structure Index.IsCoherent (index : Index) : Prop where
  /-- The dictionary is built from all known concepts, in the order of their files. -/
  dictionary_eq : index.dictionary = (Dictionary.build index.cache.allConcepts).1
  /-- A path that holds specifications holds a single one, which was read from it. -/
  specification_alone : ∀ (path : Path) (specs : List Specification),
    index.cache.specifications.find? path = some specs →
      ∃ spec, specs = [spec] ∧ spec.file.location = path.location
  /-- The contributors of a signature are the specifications with such a step of their own, and the
  concept files that define an admitted concept with such a step that invokes no concept. -/
  contributor_iff : ∀ (file : Path) (signature : String),
    (∃ contributor ∈ index.cache.contributors signature, contributor.location = file.location) ↔
      (∃ spec, index.cache.specification? file = some spec ∧
        signature ∈ spec.signatures.map StepSignature.value) ∨
      (index.cache.concepts.contains file = true ∧
        ∃ concept ∈ index.dictionary.toList, concept.file.location = file.location ∧
          ∃ step ∈ concept.body, step.isConcept = false ∧ step.value = signature)
  /-- Every entry of the catalogue stands under its signature and has a contributor. -/
  entry_contributed : ∀ (signature : String) (entry : CatalogueEntry),
    index.cache.catalogue.entries[signature]? = some entry →
      entry.signature.value = signature ∧ index.cache.contributors signature ≠ []

namespace Cache

variable {cache before after : Cache} {dictionary : Dictionary}

/-! ### The half of the specifications -/

/-- Every specification is the only one of its path, and contributes its own steps. -/
structure SpecificationsAgree (cache : Cache) : Prop where
  isSpelled : cache.specifications.IsSpelled
  sourceKind_eq : ∀ path : Path, cache.specifications.contains path = true →
    path.sourceKind = .specification
  alone : ∀ (path : Path) (specs : List Specification),
    cache.specifications.find? path = some specs →
      ∃ spec, specs = [spec] ∧ spec.file.location = path.location
  contributes_iff : ∀ (file : Path) (signature : String), file.sourceKind = .specification →
    (cache.catalogue.Contributes file signature ↔
      ∃ spec, cache.specification? file = some spec ∧
        signature ∈ spec.signatures.map StepSignature.value)

/-- Two caches know the same specifications, with the same contributions. -/
structure SameSpecifications (before after : Cache) : Prop where
  specifications_eq : after.specifications = before.specifications
  contributes_iff : ∀ (file : Path) (signature : String), file.sourceKind = .specification →
    (after.catalogue.Contributes file signature ↔ before.catalogue.Contributes file signature)

theorem SpecificationsAgree.of_same (h : before.SpecificationsAgree)
    (hsame : SameSpecifications before after) : after.SpecificationsAgree := by
  have hspecification : ∀ file, after.specification? file = before.specification? file := by
    intro file
    rw [specification?, specification?, hsame.specifications_eq]
  constructor
  · rw [hsame.specifications_eq]
    exact h.isSpelled
  · rw [hsame.specifications_eq]
    exact h.sourceKind_eq
  · rw [hsame.specifications_eq]
    exact h.alone
  · intro file signature hkind
    rw [hsame.contributes_iff file signature hkind, hspecification]
    exact h.contributes_iff file signature hkind

theorem SpecificationsAgree.sourceKind_eq_of_specification? (h : cache.SpecificationsAgree)
    {file : Path} {spec : Specification} (hspec : cache.specification? file = some spec) :
    file.sourceKind = .specification := by
  obtain ⟨specs, hspecs, -⟩ := Option.bind_eq_some_iff.mp hspec
  exact h.sourceKind_eq file (PathMap.contains_iff.mpr ⟨specs, hspecs⟩)

theorem specificationsAgree_empty : Cache.empty.SpecificationsAgree := by
  constructor
  · exact PathMap.isSpelled_empty
  · intro path h
    exact absurd ((PathMap.contains_empty path).symm.trans h) (by decide)
  · intro path specs h
    exact absurd ((PathMap.find?_empty path).symm.trans h) (by simp)
  · intro file signature _
    constructor
    · intro h
      exact absurd h (Catalogue.not_contributes_empty file signature)
    · rintro ⟨spec, hspec, -⟩
      change ((∅ : PathMap (List Specification)).find? file).bind List.getLast? = some spec at hspec
      rw [PathMap.find?_empty] at hspec
      cases hspec

theorem specification?_replaceSpecification {spec : Specification}
    {signatures : List StepSignature} {file : Path} :
    (cache.replaceSpecification spec signatures).specification? file =
      if spec.file.location = file.location then some spec else cache.specification? file := by
  rw [specification?, replaceSpecification, PathMap.find?_set]
  split <;> rfl

/-- Assumes: a specification read from a path of its kind. Storing it with its steps keeps the
specifications in order. -/
theorem SpecificationsAgree.replaceSpecification (h : cache.SpecificationsAgree)
    {spec : Specification} (hkind : spec.file.sourceKind = .specification) :
    (cache.replaceSpecification spec spec.signatures).SpecificationsAgree := by
  constructor
  · exact PathMap.isSpelled_set h.isSpelled spec.file [spec]
  · intro path hpath
    rcases PathMap.contains_set.mp hpath with hsame | hknown
    · rw [← Path.sourceKind_congr hsame]
      exact hkind
    · exact h.sourceKind_eq path hknown
  · intro path specs hspecs
    rw [Cache.replaceSpecification, PathMap.find?_set] at hspecs
    split at hspecs
    · rename_i hsame
      exact ⟨spec, (Option.some.inj hspecs).symm, hsame⟩
    · exact h.alone path specs hspecs
  · intro file signature hfile
    rw [specification?_replaceSpecification, Cache.replaceSpecification,
      Catalogue.contributes_replaceFile]
    by_cases hsame : spec.file.location = file.location
    · simp [hsame]
    · rw [if_neg hsame, if_neg hsame]
      exact h.contributes_iff file signature hfile

theorem specification?_removeSpecification {path file : Path} :
    (cache.removeSpecification path).specification? file =
      if path.location = file.location then none else cache.specification? file := by
  rw [specification?, removeSpecification, PathMap.find?_erase]
  split <;> rfl

/-- Forgetting the specification of a path keeps the others in order. -/
theorem SpecificationsAgree.removeSpecification (h : cache.SpecificationsAgree) (path : Path) :
    (cache.removeSpecification path).SpecificationsAgree := by
  constructor
  · exact PathMap.isSpelled_erase h.isSpelled path
  · intro other hother
    exact h.sourceKind_eq other (PathMap.contains_erase.mp hother).2
  · intro other specs hspecs
    rw [Cache.removeSpecification, PathMap.find?_erase] at hspecs
    split at hspecs
    · cases hspecs
    · exact h.alone other specs hspecs
  · intro file signature hfile
    rw [specification?_removeSpecification, Cache.removeSpecification,
      Catalogue.contributes_removeFile]
    by_cases hsame : path.location = file.location
    · simp [hsame]
    · rw [if_neg hsame, and_iff_right hsame]
      exact h.contributes_iff file signature hfile

/-! ### The half of the concepts -/

/-- Concepts are known from concept files only, and no other file than a known one of these contributes
anything besides the specifications. -/
structure ConceptsAgree (cache : Cache) : Prop where
  isSpelled : cache.concepts.IsSpelled
  sourceKind_eq : ∀ path : Path, cache.concepts.contains path = true → path.sourceKind = .concepts
  contains_of_contributes : ∀ (file : Path) (signature : String), file.sourceKind ≠ .specification →
    cache.catalogue.Contributes file signature → cache.concepts.contains file = true

/-- Two caches know the same concepts, and apart from the specifications they know the same
contributions. -/
structure SameConcepts (before after : Cache) : Prop where
  concepts_eq : after.concepts = before.concepts
  contributes_iff : ∀ (file : Path) (signature : String), file.sourceKind ≠ .specification →
    (after.catalogue.Contributes file signature ↔ before.catalogue.Contributes file signature)

theorem ConceptsAgree.of_same (h : before.ConceptsAgree) (hsame : SameConcepts before after) :
    after.ConceptsAgree := by
  constructor
  · rw [hsame.concepts_eq]
    exact h.isSpelled
  · rw [hsame.concepts_eq]
    exact h.sourceKind_eq
  · intro file signature hkind hcontributes
    rw [hsame.concepts_eq]
    exact h.contains_of_contributes file signature hkind
      ((hsame.contributes_iff file signature hkind).mp hcontributes)

theorem ConceptsAgree.sourceKind_ne (h : cache.ConceptsAgree) {file : Path}
    (hknown : cache.concepts.contains file = true) : file.sourceKind ≠ .specification := by
  rw [h.sourceKind_eq file hknown]
  decide

theorem conceptsAgree_empty : Cache.empty.ConceptsAgree := by
  constructor
  · exact PathMap.isSpelled_empty
  · intro path h
    exact absurd ((PathMap.contains_empty path).symm.trans h) (by decide)
  · intro file signature _ h
    exact absurd h (Catalogue.not_contributes_empty file signature)

/-- Assumes: a concept file. Storing its concepts keeps the concepts in order. -/
theorem ConceptsAgree.replaceConcepts (h : cache.ConceptsAgree) {path : Path}
    (hkind : path.sourceKind = .concepts) (concepts : List Concept) :
    (cache.replaceConcepts path concepts).ConceptsAgree := by
  constructor
  · exact PathMap.isSpelled_set h.isSpelled path concepts
  · intro other hother
    rcases PathMap.contains_set.mp hother with hsame | hknown
    · rw [← Path.sourceKind_congr hsame]
      exact hkind
    · exact h.sourceKind_eq other hknown
  · intro file signature hfile hcontributes
    exact PathMap.contains_set.mpr
      (Or.inr (h.contains_of_contributes file signature hfile hcontributes))

/-- Forgetting the concepts of a path keeps the others in order. -/
theorem ConceptsAgree.removeConcepts (h : cache.ConceptsAgree) (path : Path) :
    (cache.removeConcepts path).ConceptsAgree := by
  constructor
  · exact PathMap.isSpelled_erase h.isSpelled path
  · intro other hother
    exact h.sourceKind_eq other (PathMap.contains_erase.mp hother).2
  · intro file signature hfile hcontributes
    obtain ⟨hother, hcontributed⟩ := Catalogue.contributes_removeFile.mp hcontributes
    exact PathMap.contains_erase.mpr
      ⟨hother, h.contains_of_contributes file signature hfile hcontributed⟩

/-- Assumes: a known concept file. Replacing its steps keeps the concepts in order. -/
theorem ConceptsAgree.replaceSteps (h : cache.ConceptsAgree) {file : Path}
    (hknown : cache.concepts.contains file = true) (signatures : List StepSignature) :
    (cache.replaceSteps file signatures).ConceptsAgree := by
  constructor
  · exact h.isSpelled
  · exact h.sourceKind_eq
  · intro other signature hkind hcontributes
    change cache.concepts.contains other = true
    have hreplaced := Catalogue.contributes_replaceFile.mp hcontributes
    split at hreplaced
    · rename_i hsame
      rw [← PathMap.contains_congr hsame]
      exact hknown
    · exact h.contains_of_contributes other signature hkind hreplaced

/-! ### What one half leaves alone -/

/-- Assumes: a path of a specification, and another path that is none. They are different places. -/
theorem location_ne_of_sourceKind {path other : Path} {kind : SourceKind}
    (hpath : path.sourceKind = kind) (hother : other.sourceKind ≠ kind) :
    path.location ≠ other.location :=
  fun hsame ↦ hother (Path.sourceKind_congr hsame ▸ hpath)

theorem sameConcepts_replaceSpecification {spec : Specification}
    (hkind : spec.file.sourceKind = .specification) (signatures : List StepSignature) :
    SameConcepts cache (cache.replaceSpecification spec signatures) := by
  refine ⟨rfl, fun file signature hfile ↦ ?_⟩
  rw [replaceSpecification, Catalogue.contributes_replaceFile,
    if_neg (location_ne_of_sourceKind hkind hfile)]

theorem sameConcepts_removeSpecification {path : Path} (hkind : path.sourceKind = .specification) :
    SameConcepts cache (cache.removeSpecification path) := by
  refine ⟨rfl, fun file signature hfile ↦ ?_⟩
  rw [removeSpecification, Catalogue.contributes_removeFile,
    and_iff_right (location_ne_of_sourceKind hkind hfile)]

theorem sameSpecifications_replaceConcepts (path : Path) (concepts : List Concept) :
    SameSpecifications cache (cache.replaceConcepts path concepts) :=
  ⟨rfl, fun _ _ _ ↦ Iff.rfl⟩

theorem sameSpecifications_removeConcepts {path : Path} (hkind : path.sourceKind = .concepts) :
    SameSpecifications cache (cache.removeConcepts path) := by
  refine ⟨rfl, fun file signature hfile ↦ ?_⟩
  have hdifferent : path.location ≠ file.location :=
    location_ne_of_sourceKind hkind (by rw [hfile]; decide)
  rw [removeConcepts, Catalogue.contributes_removeFile, and_iff_right hdifferent]

theorem sameSpecifications_replaceSteps {file : Path} (hkind : file.sourceKind = .concepts)
    (signatures : List StepSignature) :
    SameSpecifications cache (cache.replaceSteps file signatures) := by
  refine ⟨rfl, fun other signature hother ↦ ?_⟩
  have hdifferent : file.location ≠ other.location :=
    location_ne_of_sourceKind hkind (by rw [hother]; decide)
  rw [replaceSteps, Catalogue.contributes_replaceFile, if_neg hdifferent]

/-! ### Sound caches -/

/-- What holds of a cache at every moment. -/
structure IsSound (cache : Cache) : Prop where
  catalogue : cache.catalogue.IsOrderly
  specifications : cache.SpecificationsAgree
  concepts : cache.ConceptsAgree

theorem isSound_empty : Cache.empty.IsSound :=
  ⟨Catalogue.isOrderly_empty, specificationsAgree_empty, conceptsAgree_empty⟩

theorem IsSound.replaceSpecification (h : cache.IsSound) {spec : Specification}
    (hkind : spec.file.sourceKind = .specification) :
    (cache.replaceSpecification spec spec.signatures).IsSound :=
  ⟨h.catalogue.replaceFile spec.file spec.signatures, h.specifications.replaceSpecification hkind,
    h.concepts.of_same (sameConcepts_replaceSpecification hkind spec.signatures)⟩

theorem IsSound.removeSpecification (h : cache.IsSound) {path : Path}
    (hkind : path.sourceKind = .specification) : (cache.removeSpecification path).IsSound :=
  ⟨h.catalogue.removeFile path, h.specifications.removeSpecification path,
    h.concepts.of_same (sameConcepts_removeSpecification hkind)⟩

theorem IsSound.replaceConcepts (h : cache.IsSound) {path : Path}
    (hkind : path.sourceKind = .concepts) (concepts : List Concept) :
    (cache.replaceConcepts path concepts).IsSound :=
  ⟨h.catalogue, h.specifications.of_same (sameSpecifications_replaceConcepts path concepts),
    h.concepts.replaceConcepts hkind concepts⟩

theorem IsSound.removeConcepts (h : cache.IsSound) {path : Path}
    (hkind : path.sourceKind = .concepts) : (cache.removeConcepts path).IsSound :=
  ⟨h.catalogue.removeFile path, h.specifications.of_same (sameSpecifications_removeConcepts hkind),
    h.concepts.removeConcepts path⟩

theorem IsSound.replaceSteps (h : cache.IsSound) {file : Path}
    (hknown : cache.concepts.contains file = true) (signatures : List StepSignature) :
    (cache.replaceSteps file signatures).IsSound :=
  ⟨h.catalogue.replaceFile file signatures,
    h.specifications.of_same
      (sameSpecifications_replaceSteps (h.concepts.sourceKind_eq file hknown) signatures),
    h.concepts.replaceSteps hknown signatures⟩

/-! ### Refreshing the steps of concept files -/

/-- A file contributes what it defines in a dictionary. -/
def IsUpToDate (cache : Cache) (dictionary : Dictionary) (file : Path) : Prop :=
  ∀ signature, cache.catalogue.Contributes file signature ↔
    signature ∈ (dictionary.fileSignatures file).map StepSignature.value

/-- Every known concept file is up to date or among the known files that are still to come. -/
structure IsRefreshing (cache : Cache) (dictionary : Dictionary) (files : List Path) : Prop where
  contains_of_mem : ∀ file ∈ files, cache.concepts.contains file = true
  upToDate_or_listed : ∀ file : Path, cache.concepts.contains file = true →
    cache.IsUpToDate dictionary file ∨ ∃ listed ∈ files, listed.location = file.location

theorem IsUpToDate.of_same {file : Path} (hkind : file.sourceKind ≠ .specification)
    (hsame : SameConcepts before after) (h : before.IsUpToDate dictionary file) :
    after.IsUpToDate dictionary file :=
  fun signature ↦ (hsame.contributes_iff file signature hkind).trans (h signature)

theorem IsRefreshing.of_same {files : List Path} (hagree : before.ConceptsAgree)
    (hsame : SameConcepts before after) (h : before.IsRefreshing dictionary files) :
    after.IsRefreshing dictionary files := by
  constructor
  · rw [hsame.concepts_eq]
    exact h.contains_of_mem
  · intro file hknown
    rw [hsame.concepts_eq] at hknown
    rcases h.upToDate_or_listed file hknown with hupToDate | hlisted
    · exact Or.inl (hupToDate.of_same (hagree.sourceKind_ne hknown) hsame)
    · exact Or.inr hlisted

/-- At the start all files are still to come. -/
theorem ConceptsAgree.isRefreshing (h : cache.ConceptsAgree) (dictionary : Dictionary) :
    cache.IsRefreshing dictionary cache.conceptFiles :=
  ⟨fun _ hfile ↦ PathMap.contains_of_mem_paths h.isSpelled hfile,
    fun _ hknown ↦ Or.inr ((PathMap.exists_mem_paths_iff h.isSpelled).mpr hknown)⟩

/-- Replacing the steps of the next file brings it up to date. -/
theorem IsRefreshing.replaceSteps {file : Path} {rest : List Path}
    (h : cache.IsRefreshing dictionary (file :: rest)) :
    (cache.replaceSteps file (dictionary.fileSignatures file)).IsRefreshing dictionary rest := by
  constructor
  · intro other hother
    exact h.contains_of_mem other (List.mem_cons_of_mem file hother)
  · intro other hknown
    by_cases hsame : file.location = other.location
    · left
      intro signature
      rw [Cache.replaceSteps, Catalogue.contributes_replaceFile, if_pos hsame,
        Dictionary.fileSignatures_congr hsame]
    · rcases h.upToDate_or_listed other hknown with hupToDate | ⟨listed, hlisted, hlocation⟩
      · left
        intro signature
        rw [Cache.replaceSteps, Catalogue.contributes_replaceFile, if_neg hsame]
        exact hupToDate signature
      · rcases List.mem_cons.mp hlisted with rfl | hlisted
        · exact absurd hlocation hsame
        · exact Or.inr ⟨listed, hlisted, hlocation⟩

end Cache

namespace Index

variable {index before after : Index}

/-- The dictionary is that of all known concepts, and every concept file is up to date with it. -/
structure IsSettled (index : Index) : Prop where
  dictionary_eq : index.dictionary = (Dictionary.build index.cache.allConcepts).1
  upToDate : ∀ file : Path, index.cache.concepts.contains file = true →
    index.cache.IsUpToDate index.dictionary file

/-- Two indices agree on everything that concerns concepts. -/
structure SameConcepts (before after : Index) : Prop where
  dictionary_eq : after.dictionary = before.dictionary
  cache : Cache.SameConcepts before.cache after.cache

theorem SameConcepts.refl (index : Index) : SameConcepts index index :=
  ⟨rfl, rfl, fun _ _ _ ↦ Iff.rfl⟩

theorem SameConcepts.allConcepts_eq (h : SameConcepts before after) :
    after.cache.allConcepts = before.cache.allConcepts := by
  rw [Cache.allConcepts, Cache.allConcepts, h.cache.concepts_eq]

theorem IsSettled.of_same (hagree : before.cache.ConceptsAgree) (hsame : SameConcepts before after)
    (h : before.IsSettled) : after.IsSettled := by
  constructor
  · rw [hsame.dictionary_eq, hsame.allConcepts_eq]
    exact h.dictionary_eq
  · intro file hknown
    rw [hsame.cache.concepts_eq] at hknown
    rw [hsame.dictionary_eq]
    exact (h.upToDate file hknown).of_same (hagree.sourceKind_ne hknown) hsame.cache

/-- Forgetting a concept file that is not known changes nothing that is known about concepts. -/
theorem IsSettled.removeConcepts (h : index.IsSettled) {path : Path}
    (hunknown : index.cache.concepts.contains path = false) :
    ({ index with cache := index.cache.removeConcepts path } : Index).IsSettled := by
  have hsame : index.cache.concepts.erase path = index.cache.concepts :=
    PathMap.erase_of_not_contains hunknown
  constructor
  · show index.dictionary = (Dictionary.build (index.cache.concepts.erase path).values.flatten).1
    rw [hsame]
    exact h.dictionary_eq
  · intro file hknown signature
    change (index.cache.concepts.erase path).contains file = true at hknown
    obtain ⟨hother, hknown⟩ := PathMap.contains_erase.mp hknown
    rw [Cache.removeConcepts, Catalogue.contributes_removeFile, and_iff_right hother]
    exact h.upToDate file hknown signature

/-- An index that knows no file is settled. -/
theorem isSettled_new (directories : List Path) : (Index.new directories).IsSettled := by
  constructor
  · rfl
  · intro file hknown
    exact absurd ((PathMap.contains_empty file).symm.trans hknown) (by decide)

/-- Assumes: the dictionary of all known concepts, and no concept file that is still to come. The index
is settled. -/
theorem isSettled_of_isRefreshing {dictionary : Dictionary} (hcurrent : index.dictionary = dictionary)
    (hbuilt : dictionary = (Dictionary.build index.cache.allConcepts).1)
    (h : index.cache.IsRefreshing dictionary []) : index.IsSettled := by
  constructor
  · exact hcurrent.trans hbuilt
  · intro file hknown
    rw [hcurrent]
    rcases h.upToDate_or_listed file hknown with hupToDate | ⟨listed, hlisted, -⟩
    · exact hupToDate
    · exact absurd hlisted List.not_mem_nil

/-- Assumes: a sound cache, and a dictionary and concept files that are up to date. Then the index is
coherent. -/
theorem isCoherent (hsound : index.cache.IsSound) (hsettled : index.IsSettled) :
    index.IsCoherent := by
  constructor
  · exact hsettled.dictionary_eq
  · exact hsound.specifications.alone
  · intro file signature
    refine hsound.catalogue.exists_mem_contributors_iff.trans ?_
    by_cases hkind : file.sourceKind = .specification
    · have hunknown : ¬ index.cache.concepts.contains file = true := by
        intro hknown
        rw [hsound.concepts.sourceKind_eq file hknown] at hkind
        cases hkind
      rw [hsound.specifications.contributes_iff file signature hkind]
      exact (or_iff_left fun h ↦ hunknown h.1).symm
    · have hnone : ¬ ∃ spec, index.cache.specification? file = some spec ∧
          signature ∈ spec.signatures.map StepSignature.value := by
        rintro ⟨spec, hspec, -⟩
        exact hkind (hsound.specifications.sourceKind_eq_of_specification? hspec)
      rw [or_iff_right hnone, ← Dictionary.mem_fileSignatures]
      constructor
      · intro hcontributes
        have hknown := hsound.concepts.contains_of_contributes file signature hkind hcontributes
        exact ⟨hknown, (hsettled.upToDate file hknown signature).mp hcontributes⟩
      · rintro ⟨hknown, hdefined⟩
        exact (hsettled.upToDate file hknown signature).mpr hdefined
  · intro signature entry hentry
    exact ⟨hsound.catalogue.value_eq signature entry hentry, hsound.catalogue.contributors_ne_nil hentry⟩

end Index

end LiveSpec
