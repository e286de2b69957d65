import LiveSpec.Proofs.Concepts.Marks
import LiveSpec.Proofs.Index.Accounting
import LiveSpec.Proofs.Index.Changes

/-!
# The steps that the index lists

Bodies of concepts are collected from the files of the concepts and not from the specifications that
invoke them. After a build the listing is complete and exact all the same (`Index.ListsExactly`): it has
the signatures of the steps that the specifications and the admitted concepts have of their own and that
invoke nothing, which are the signatures of all steps in the expanded trees that are no invocations, and
none of these is the signature of a concept.

This holds of every index that is sound and settled, whose concepts were read from the paths they are
stored at (`Cache.ConceptsAreRead`) and whose specifications are expanded with its dictionary
(`Index.listsExactly`). A build leaves such an index, whatever was known before: the specifications and the
concepts that it knows are those that reading its sources gives, and the listing is that of these
(`Index.listsExactly_build`). An index that follows its files is not always one, because a specification
keeps the bodies of concepts that have been changed since.
-/

set_option autoImplicit false

namespace LiveSpec

/-- A value is listed exactly when it is stored for some path. -/
theorem PathMap.mem_values {α : Type} {map : PathMap α} (h : map.IsSpelled) {value : α} :
    value ∈ map.values ↔ ∃ path, map.find? path = some value := by
  simp only [values, toList, List.map_map, List.mem_map, Function.comp_apply, Prod.exists]
  constructor
  · rintro ⟨location, path, stored, hmem, rfl⟩
    have hstored := Std.ExtTreeMap.mem_toList_iff_getElem?_eq_some.mp hmem
    have hlocation : path.location = location := h location (path, stored) hstored
    refine ⟨path, ?_⟩
    rw [find?, stored?, hlocation, hstored]
    rfl
  · rintro ⟨path, hfound⟩
    obtain ⟨⟨spelling, stored⟩, hstored, rfl⟩ := Option.map_eq_some_iff.mp hfound
    exact ⟨path.location, spelling, stored,
      Std.ExtTreeMap.mem_toList_iff_getElem?_eq_some.mpr hstored, rfl⟩

/-! ### What is known was read -/

theorem Concept.file_of_parseAll {file : Path} {text : String} {concepts : List Concept}
    (h : Concept.parseAll file text = .ok concepts) : ∀ concept ∈ concepts, concept.file = file := by
  obtain ⟨draft, -, -, rfl⟩ := parseAll_eq_ok_iff.mp h
  intro concept hconcept
  obtain ⟨read, -, rfl⟩ := List.mem_map.mp (List.mem_reverse.mp hconcept)
  rfl

/-- What is read from a path are the concepts in a text. -/
theorem Contents.exists_parseAll {contents : Contents} {path : Path} {concepts : List Concept}
    (h : contents.concepts path = .ok concepts) :
    ∃ text, Concept.parseAll path text = .ok concepts := by
  obtain ⟨text, -, hparse⟩ := bind_eq_ok_iff.mp h
  exact ⟨text, hparse⟩

/-- What is read from a path is the specification in a text. -/
theorem Contents.exists_parse {contents : Contents} {path : Path} {parsed : Specification}
    (h : contents.specification path = .ok parsed) :
    ∃ text, Specification.parse path text = .ok parsed := by
  obtain ⟨text, -, hparse⟩ := bind_eq_ok_iff.mp h
  exact ⟨text, hparse⟩

/-- Assumes: concepts that have been read, and a specification that was expanded with the dictionary of
these. Its steps are expanded ones. -/
theorem Contents.exists_areExpanded {contents : Contents} {concepts : List Concept}
    (hconcepts : ∀ concept ∈ concepts, concept.IsRead) {path : Path} {spec : Specification}
    (h : contents.expanded (Dictionary.build concepts).1 path = .ok spec) :
    ∃ sources, AreExpanded (Dictionary.build concepts).1 spec.scopes none sources spec.steps := by
  obtain ⟨parsed, hread, hexpand⟩ := expanded_eq_ok h
  obtain ⟨text, hparse⟩ := exists_parse hread
  have hexpanded :=
    Specification.areExpanded_steps_expand hconcepts hparse (congrArg Prod.snd hexpand)
  rw [hexpand] at hexpanded
  exact ⟨parsed.steps, hexpanded⟩

namespace Cache

variable {cache : Cache}

/-- The concepts of every path have been read from it. -/
def ConceptsAreRead (cache : Cache) : Prop :=
  ∀ (path : Path) (concepts : List Concept), cache.concepts.find? path = some concepts →
    ∃ file text, file.location = path.location ∧ Concept.parseAll file text = .ok concepts

/-- Assumes: concepts that have been read from their paths. Each of them is stored at the path of its
file. -/
theorem ConceptsAreRead.of_mem (h : cache.ConceptsAreRead) (hspelled : cache.concepts.IsSpelled)
    {concept : Concept} (hmem : concept ∈ cache.allConcepts) :
    concept.IsRead ∧ cache.concepts.contains concept.file = true := by
  obtain ⟨concepts, hconcepts, hconcept⟩ := List.mem_flatten.mp hmem
  obtain ⟨path, hpath⟩ := (PathMap.mem_values hspelled).mp hconcepts
  obtain ⟨file, text, hlocation, hparse⟩ := h path concepts hpath
  refine ⟨⟨file, text, concepts, hparse, hconcept⟩, ?_⟩
  rw [Concept.file_of_parseAll hparse concept hconcept, PathMap.contains_congr hlocation]
  exact PathMap.contains_iff.mpr ⟨concepts, hpath⟩

/-- Every specification is the one of some path. -/
theorem SpecificationsAgree.mem_allSpecifications (h : cache.SpecificationsAgree) {spec : Specification} :
    spec ∈ cache.allSpecifications ↔ ∃ file, cache.specification? file = some spec := by
  rw [allSpecifications, List.mem_flatten]
  simp only [PathMap.mem_values h.isSpelled, specification?, Option.bind_eq_some_iff]
  constructor
  · rintro ⟨specs, ⟨path, hpath⟩, hspec⟩
    obtain ⟨alone, rfl, -⟩ := h.alone path specs hpath
    obtain rfl := List.mem_singleton.mp hspec
    exact ⟨path, [spec], hpath, rfl⟩
  · rintro ⟨path, specs, hpath, hlast⟩
    exact ⟨specs, ⟨path, hpath⟩, List.mem_of_getLast? hlast⟩

end Cache

/-! ### Complete and exact listings -/

/-- The step is one of a specification itself: a context, or a step of a scenario or of the teardown. -/
def Specification.HasStep (spec : Specification) (step : Step) : Prop :=
  step ∈ spec.contexts ∨ (∃ scenario ∈ spec.scenarios, step ∈ scenario.steps) ∨
    step ∈ spec.tearDownSteps

/-- The steps at the top are the contexts and the steps of the scenarios and of the teardown. -/
theorem Specification.hasStep_iff {spec : Specification} {step : Step} :
    spec.HasStep step ↔ step ∈ spec.steps := by
  simp only [HasStep, contexts, scenarios, tearDownSteps, steps, List.mem_filterMap, List.mem_flatMap]
  constructor
  · rintro (⟨item, hitem, hstep⟩ | ⟨scenario, ⟨item, hitem, hscenario⟩, hstep⟩ |
      ⟨tearDown, ⟨item, hitem, htearDown⟩, hstep⟩)
    · cases item with
      | context found =>
        cases hstep
        exact ⟨_, hitem, List.mem_singleton_self _⟩
      | _ => cases hstep
    · cases item with
      | scenario found =>
        cases hscenario
        exact ⟨_, hitem, hstep⟩
      | _ => cases hscenario
    · cases item with
      | tearDown found =>
        cases htearDown
        exact ⟨_, hitem, hstep⟩
      | _ => cases htearDown
  · rintro ⟨item, hitem, hstep⟩
    cases item with
    | context found =>
      obtain rfl := List.mem_singleton.mp hstep
      exact .inl ⟨.context step, hitem, rfl⟩
    | scenario found => exact .inr (.inl ⟨found, ⟨.scenario found, hitem, rfl⟩, hstep⟩)
    | tearDown found => exact .inr (.inr ⟨found, ⟨.tearDown found, hitem, rfl⟩, hstep⟩)
    | comment _ => cases hstep
    | tags _ => cases hstep
    | dataTable _ => cases hstep

/-- The listing of the steps is complete and exact. -/
structure Index.ListsExactly (index : Index) : Prop where
  /-- What is listed are the steps that a specification or an admitted concept has of its own and that
  invoke no concept. -/
  listed_iff : ∀ signature : String, signature ∈ index.cache.steps.map StepSignature.value ↔
    (∃ spec ∈ index.cache.allSpecifications, ∃ step, spec.HasStep step ∧ step.isConcept = false ∧
      step.value = signature) ∨
    ∃ concept ∈ index.dictionary.toList, ∃ step ∈ concept.body, step.isConcept = false ∧
      step.value = signature
  /-- At every depth of the trees, a step that invokes no concept is listed. -/
  listed_of_mem_preorderAll : ∀ spec ∈ index.cache.allSpecifications, ∀ entry ∈ Step.preorderAll 0 spec.steps,
    entry.2.isConcept = false → entry.2.value ∈ index.cache.steps.map StepSignature.value
  /-- Nothing that is listed has the signature of an admitted concept. -/
  contains_eq_false : ∀ signature ∈ index.cache.steps.map StepSignature.value,
    index.dictionary.contains signature = false

theorem Specification.mem_signatures {spec : Specification} {signature : String} :
    signature ∈ spec.signatures.map StepSignature.value ↔
      ∃ step, spec.HasStep step ∧ step.isConcept = false ∧ step.value = signature := by
  simp only [signatures, atomicSignatures, StepSignature.ofStep, List.map_map, List.mem_map,
    List.mem_filter, Function.comp_apply, Bool.not_eq_true', hasStep_iff, and_assoc]

namespace Index

variable {index : Index}

/-- Assumes: a sound and settled index whose concepts have been read from their paths. An admitted concept
is defined in a known file. -/
theorem Stands.contains_of_mem_toList (h : index.Stands) (hread : index.cache.ConceptsAreRead)
    {concept : Concept} (hconcept : concept ∈ index.dictionary.toList) :
    index.cache.concepts.contains concept.file = true := by
  rw [h.isSettled.dictionary_eq] at hconcept
  obtain ⟨signature, hfound⟩ := Dictionary.mem_toList_iff.mp hconcept
  obtain ⟨definition, isAdmitted, hmem, -, rfl⟩ := Dictionary.search?_build hfound
  exact (hread.of_mem h.isSound.concepts.isSpelled hmem).2

/-- Assumes: a sound and settled index whose concepts have been read from their paths. What is listed are
the own steps of the specifications and of the admitted concepts. -/
theorem Stands.listed_iff (h : index.Stands) (hread : index.cache.ConceptsAreRead) (signature : String) :
    signature ∈ index.cache.steps.map StepSignature.value ↔
      (∃ spec ∈ index.cache.allSpecifications, ∃ step, spec.HasStep step ∧ step.isConcept = false ∧
        step.value = signature) ∨
      ∃ concept ∈ index.dictionary.toList, ∃ step ∈ concept.body, step.isConcept = false ∧
        step.value = signature := by
  have hcoherent := isCoherent h.isSound h.isSettled
  rw [Cache.steps, h.isSound.catalogue.map_value_toList, Std.ExtTreeMap.mem_keys,
    Std.ExtTreeMap.mem_iff_isSome_getElem?, ← h.isSound.catalogue.exists_contributes_iff]
  simp only [← h.isSound.catalogue.exists_mem_contributors_iff]
  constructor
  · rintro ⟨file, hcontributes⟩
    rcases (hcoherent.contributor_iff file signature).mp hcontributes with
      ⟨spec, hspec, hsignature⟩ | ⟨-, concept, hconcept, -, hstep⟩
    · exact .inl ⟨spec, h.isSound.specifications.mem_allSpecifications.mpr ⟨file, hspec⟩,
        Specification.mem_signatures.mp hsignature⟩
    · exact .inr ⟨concept, hconcept, hstep⟩
  · rintro (⟨spec, hspec, hstep⟩ | ⟨concept, hconcept, hstep⟩)
    · obtain ⟨file, hfile⟩ := h.isSound.specifications.mem_allSpecifications.mp hspec
      exact ⟨file, (hcoherent.contributor_iff file signature).mpr
        (.inl ⟨spec, hfile, Specification.mem_signatures.mpr hstep⟩)⟩
    · exact ⟨concept.file, (hcoherent.contributor_iff concept.file signature).mpr
        (.inr ⟨h.contains_of_mem_toList hread hconcept, concept, hconcept, rfl, hstep⟩)⟩

/-- Assumes: a settled index. A step in the body of an admitted concept is marked as an invocation exactly
when its signature is admitted. -/
theorem IsSettled.isConcept_of_mem_body (h : index.IsSettled) {concept : Concept}
    (hconcept : concept ∈ index.dictionary.toList) {step : Step} (hstep : step ∈ concept.body) :
    step.isConcept = index.dictionary.contains step.value := by
  rw [h.dictionary_eq] at hconcept ⊢
  obtain ⟨signature, hfound⟩ := Dictionary.mem_toList_iff.mp hconcept
  exact Dictionary.isConcept_of_search?_build hfound hstep

/-- Assumes: a sound and settled index whose concepts have been read from their paths, and whose
specifications are expanded with its dictionary. Its listing is complete and exact. -/
theorem listsExactly (h : index.Stands) (hread : index.cache.ConceptsAreRead)
    (hexpanded : ∀ spec ∈ index.cache.allSpecifications, ∃ sources,
      AreExpanded index.dictionary spec.scopes none sources spec.steps) : index.ListsExactly := by
  have hlisted := h.listed_iff hread
  refine ⟨hlisted, ?_, ?_⟩
  · intro spec hspec entry hentry hatomic
    obtain ⟨sources, htrees⟩ := hexpanded spec hspec
    rw [hlisted]
    rcases htrees.exists_origin 0 entry hentry with htop | ⟨concept, hconcept, hvalue⟩
    · exact .inl ⟨spec, hspec, entry.2, Specification.hasStep_iff.mpr htop, hatomic, rfl⟩
    · obtain ⟨step, hstep, hsame⟩ := List.mem_map.mp hvalue
      refine .inr ⟨concept, hconcept, step, hstep, ?_, hsame⟩
      rw [h.isSettled.isConcept_of_mem_body hconcept hstep, hsame,
        ← htrees.isConcept_eq_contains 0 entry hentry]
      exact hatomic
  · intro signature hsignature
    rcases (hlisted signature).mp hsignature with
      ⟨spec, hspec, step, hstep, hatomic, rfl⟩ | ⟨concept, hconcept, step, hstep, hatomic, rfl⟩
    · obtain ⟨sources, htrees⟩ := hexpanded spec hspec
      have htop : (0, step) ∈ Step.preorderAll 0 spec.steps :=
        Step.mem_preorderAll_of_mem 0 (Specification.hasStep_iff.mp hstep)
      rw [← htrees.isConcept_eq_contains 0 (0, step) htop]
      exact hatomic
    · rw [← h.isSettled.isConcept_of_mem_body hconcept hstep]
      exact hatomic

/-! ### After a build -/

section BuildFrom

variable {contents : Contents} {conceptFiles specificationFiles : List Path}
  (hconcepts : Path.AreSources .concepts conceptFiles)
  (hspecs : Path.AreSources .specification specificationFiles)

include hconcepts hspecs

/-- Assumes: concept files and specification files in order. After a build the concepts of every path are
those read from it. -/
theorem conceptsAreRead_buildFrom (index : Index) :
    (index.buildFrom contents conceptFiles specificationFiles).1.cache.ConceptsAreRead := by
  rw [buildFrom_fst hspecs]
  intro path concepts hpath
  obtain ⟨file, hfile, hlocation⟩ := (find?_concepts_ofPlan
    (BuildPlan.areSources_conceptFiles contents specificationFiles hconcepts)).mp hpath
  obtain ⟨text, hparse⟩ := Contents.exists_parseAll (BuildPlan.mem_conceptFiles.mp hfile).2
  exact ⟨file, text, hlocation, hparse⟩

end BuildFrom

/-- After a build what is known is what reading the sources gives, and the listing of the steps is complete and
exact. -/
theorem listsExactly_build (index : Index) (disk : Disk) :
    IsAccounted disk.contents (sourcesIn disk .concepts index.directories)
        (sourcesIn disk .specification index.directories) (index.build disk).1 (index.build disk).2 ∧
      (index.build disk).1.ListsExactly := by
  have hconcepts := areSources_sourcesIn disk .concepts index.directories
  have hspecs := areSources_sourcesIn disk .specification index.directories
  have haccounted : IsAccounted disk.contents (sourcesIn disk .concepts index.directories)
      (sourcesIn disk .specification index.directories) (index.build disk).1 (index.build disk).2 :=
    isAccounted_buildFrom index hconcepts hspecs
  have hstands : (index.build disk).1.Stands := stands_buildFrom hconcepts hspecs disk.contents index
  have hread : (index.build disk).1.cache.ConceptsAreRead :=
    conceptsAreRead_buildFrom hconcepts hspecs index
  refine ⟨haccounted, listsExactly hstands hread fun spec hspec ↦ ?_⟩
  rw [haccounted.allSpecifications_eq] at hspec
  obtain ⟨file, -, hexpanded⟩ := List.mem_filterMap.mp hspec
  rw [hstands.isSettled.dictionary_eq] at hexpanded ⊢
  exact Contents.exists_areExpanded
    (fun concept hconcept ↦ (hread.of_mem hstands.isSound.concepts.isSpelled hconcept).1)
    (toOption_eq_some_iff.mp hexpanded)

end Index

end LiveSpec
