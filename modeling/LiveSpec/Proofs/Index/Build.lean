import LiveSpec.Index.Build
import LiveSpec.Proofs.Index.Coherence
import LiveSpec.Proofs.Path.Order

/-!
# What a build makes of the files

A build reads lists of sources of one kind in order (`Path.AreSources`), which is what looking for the
sources in some directories gives (`Index.areSources_sourcesIn`). Whatever the index knew before, it then
knows the concepts of each concept file that could be parsed, the specification of each path that could
be parsed and expanded, and the contributions of these (`Index.buildFrom_fst`). Such an index is sound
and settled, so a build ends in a coherent index (`Index.isSound_buildFrom`,
`Index.isSettled_buildFrom`).
-/

set_option autoImplicit false

namespace LiveSpec

/-! ### Sources -/

/-- Paths of one kind, in order. -/
structure Path.AreSources (kind : SourceKind) (files : List Path) : Prop where
  inOrder : Path.AreInOrder files
  sourceKind_eq : ∀ file ∈ files, file.sourceKind = kind

theorem Path.AreSources.sublist {kind : SourceKind} {files more : List Path}
    (h : Path.AreSources kind more) (hsublist : files.Sublist more) : Path.AreSources kind files :=
  ⟨h.inOrder.sublist hsublist, fun file hfile ↦ h.sourceKind_eq file (hsublist.subset hfile)⟩

theorem Disk.sourceKind_of_mem_sources {disk : Disk} {kind : SourceKind} {root path : Path}
    (h : path ∈ disk.sources kind root) : path.sourceKind = kind := by
  obtain ⟨found, hfound, hsame⟩ := PathSet.exists_of_mem_paths_insertAll h
  rw [← Path.sourceKind_congr hsame]
  exact of_decide_eq_true (List.mem_filter.mp hfound).2

/-- The sources of one kind in some directories are paths of that kind in order. -/
theorem Index.areSources_sourcesIn (disk : Disk) (kind : SourceKind) (directories : List Path) :
    Path.AreSources kind (sourcesIn disk kind directories) := by
  constructor
  · exact PathMap.areInOrder_paths (PathSet.isSpelled_insertAll PathMap.isSpelled_empty _)
  · intro file hfile
    obtain ⟨found, hfound, hsame⟩ := PathSet.exists_of_mem_paths_insertAll hfile
    obtain ⟨directory, -, hfound⟩ := List.mem_flatMap.mp hfound
    rw [← Path.sourceKind_congr hsame]
    exact Disk.sourceKind_of_mem_sources hfound

/-! ### Reading -/

theorem Specification.file_expand (spec : Specification) (dictionary : Dictionary) :
    (spec.expand dictionary).1.file = spec.file := rfl

theorem Specification.file_of_parse {file : Path} {text : String} {spec : Specification}
    (h : Specification.parse file text = .ok spec) : spec.file = file := by
  unfold Specification.parse Specification.ofLines at h
  cases hread : Draft.empty.readAll 1 (Line.classifyAll text) with
  | error refusal =>
    rw [hread] at h
    cases h
  | ok draft =>
    rw [hread] at h
    change (draft.finish file).mapError _ = _ at h
    unfold Draft.finish at h
    split at h
    · cases h
    · cases h
      rfl

namespace Contents

variable {contents : Contents} {dictionary : Dictionary} {path : Path}

/-- An expanded specification is one that was read, with its invocations expanded without a
mismatch. -/
theorem expanded_eq_ok {spec : Specification} (h : contents.expanded dictionary path = .ok spec) :
    ∃ parsed, contents.specification path = .ok parsed ∧ parsed.expand dictionary = (spec, none) := by
  unfold expanded at h
  cases hread : contents.specification path with
  | error error =>
    rw [hread] at h
    cases h
  | ok parsed =>
    rw [hread] at h
    dsimp only [Except.mapError, bind, Except.bind] at h
    split at h
    · rename_i expanded hexpanded
      cases h
      exact ⟨parsed, rfl, hexpanded⟩
    · cases h

theorem file_of_specification {parsed : Specification} (h : contents.specification path = .ok parsed) :
    parsed.file = path := by
  unfold specification at h
  cases hsource : contents.source path with
  | error error =>
    rw [hsource] at h
    cases h
  | ok text =>
    rw [hsource] at h
    exact Specification.file_of_parse h

/-- What is read from a path is a specification of that path. -/
theorem file_of_expanded {spec : Specification} (h : contents.expanded dictionary path = .ok spec) :
    spec.file = path := by
  obtain ⟨parsed, hread, hexpand⟩ := expanded_eq_ok h
  rw [← file_of_specification hread, ← Specification.file_expand parsed dictionary, hexpand]

end Contents

/-! ### What was read -/

namespace BuildPlan

variable {contents : Contents} {conceptFiles specificationFiles : List Path}

theorem mem_partitionResults {α : Type} {results : List (Except IndexError α)} {value : α} :
    value ∈ (partitionResults results).1 ↔ .ok value ∈ results := by
  simp only [partitionResults, List.mem_filterMap]
  constructor
  · rintro ⟨result, hmem, hvalue⟩
    cases result with
    | error error => cases hvalue
    | ok found =>
      cases hvalue
      exact hmem
  · intro hmem
    exact ⟨.ok value, hmem, rfl⟩

theorem conceptFile_eq_ok {path file : Path} {concepts : List Concept} :
    contents.conceptFile path = .ok (file, concepts) ↔
      path = file ∧ contents.concepts file = .ok concepts := by
  unfold Contents.conceptFile
  cases hread : contents.concepts path with
  | error error =>
    constructor
    · intro h
      cases h
    · rintro ⟨rfl, h⟩
      rw [hread] at h
      cases h
  | ok found =>
    constructor
    · intro h
      cases h
      exact ⟨rfl, hread⟩
    · rintro ⟨rfl, h⟩
      rw [hread] at h
      cases h
      rfl

/-- The concept files of a plan are those that could be parsed. -/
theorem mem_conceptFiles {file : Path} {concepts : List Concept} :
    (file, concepts) ∈ (read contents conceptFiles specificationFiles).conceptFiles ↔
      file ∈ conceptFiles ∧ contents.concepts file = .ok concepts := by
  refine mem_partitionResults.trans ?_
  simp only [List.mem_map, conceptFile_eq_ok]
  constructor
  · rintro ⟨path, hpath, rfl, hread⟩
    exact ⟨hpath, hread⟩
  · rintro ⟨hfile, hread⟩
    exact ⟨file, hfile, rfl, hread⟩

/-- The specifications of a plan are those that could be parsed and expanded. -/
theorem mem_specifications {spec : Specification} :
    spec ∈ (read contents conceptFiles specificationFiles).specifications ↔
      spec.file ∈ specificationFiles ∧ contents.expanded
        (read contents conceptFiles specificationFiles).dictionary spec.file = .ok spec := by
  refine mem_partitionResults.trans ?_
  simp only [List.mem_map]
  constructor
  · rintro ⟨path, hpath, hread⟩
    have hfile := Contents.file_of_expanded hread
    subst hfile
    exact ⟨hpath, hread⟩
  · rintro ⟨hfile, hread⟩
    exact ⟨spec.file, hfile, hread⟩

/-- Assumes: a reader whose results carry the path they were read from. The results of reading some files
carry some of these files, in order. -/
theorem sublist_partitionResults {α : Type} {readFile : Path → Except IndexError α} {fileOf : α → Path}
    (h : ∀ path value, readFile path = .ok value → fileOf value = path) (files : List Path) :
    ((partitionResults (files.map readFile)).1.map fileOf).Sublist files := by
  induction files with
  | nil => exact List.Sublist.refl []
  | cons file files ih =>
    simp only [partitionResults, List.map_cons, List.filterMap_cons] at ih ⊢
    cases hread : readFile file with
    | error error => exact ih.cons file
    | ok value =>
      simp only [Except.toOption, List.map_cons]
      rw [h file value hread]
      exact ih.cons_cons file

theorem areSources_conceptFiles (contents : Contents) (specificationFiles : List Path)
    (h : Path.AreSources .concepts conceptFiles) :
    Path.AreSources .concepts
      ((read contents conceptFiles specificationFiles).conceptFiles.map Prod.fst) := by
  refine h.sublist (sublist_partitionResults ?_ conceptFiles)
  rintro path ⟨file, concepts⟩ hread
  exact (conceptFile_eq_ok.mp hread).1.symm

theorem areSources_specifications (contents : Contents) (conceptFiles : List Path)
    (h : Path.AreSources .specification specificationFiles) :
    Path.AreSources .specification
      ((read contents conceptFiles specificationFiles).specifications.map Specification.file) :=
  h.sublist (sublist_partitionResults (fun _ _ hread ↦ Contents.file_of_expanded hread)
    specificationFiles)

end BuildPlan

/-! ### What was stored -/

/-- What the files of a plan contribute: the specifications first, then the concept files. -/
def BuildPlan.contributions (plan : BuildPlan) : List (Path × List StepSignature) :=
  (plan.specifications.map fun spec ↦ (spec.file, spec.signatures)) ++
    plan.conceptFiles.map fun (file, _) ↦ (file, plan.dictionary.fileSignatures file)

namespace Index

variable {index : Index}

theorem foldl_storeConcepts (entries : List (Path × List Concept)) :
    (entries.map fun (file, concepts) ↦ BuildStep.storeConcepts file concepts).foldl perform index =
      { index with cache :=
        { index.cache with concepts := index.cache.concepts.setAll entries } } := by
  induction entries generalizing index with
  | nil => rfl
  | cons entry entries ih =>
    rw [List.map_cons, List.foldl_cons, ih]
    rfl

/-- Assumes: specifications of different paths at which none is stored. Storing them makes each the only
one of its path. -/
theorem foldl_storeSpecification {specs : List Specification}
    (hdifferent : (specs.map fun spec ↦ spec.file.location).Nodup)
    (hnew : ∀ spec ∈ specs, index.cache.specifications.contains spec.file = false) :
    (specs.map BuildStep.storeSpecification).foldl perform index =
      { index with cache :=
        { index.cache with specifications :=
          index.cache.specifications.setAll (specs.map fun spec ↦ (spec.file, [spec])) } } := by
  induction specs generalizing index with
  | nil => rfl
  | cons spec specs ih =>
    rw [List.map_cons, List.nodup_cons] at hdifferent
    have hnone : index.cache.specifications.find? spec.file = none := by
      rw [← Option.isNone_iff_eq_none, ← Option.not_isSome, ← PathMap.contains_eq_isSome,
        hnew spec List.mem_cons_self]
      rfl
    have hstored : index.perform (.storeSpecification spec) =
        { index with cache :=
          { index.cache with specifications :=
            index.cache.specifications.set spec.file [spec] } } := by
      simp only [perform, Cache.appendSpecification, hnone, Option.getD_none, List.nil_append]
    have hlater : ∀ later ∈ specs,
        (index.perform (.storeSpecification spec)).cache.specifications.contains later.file =
          false := by
      intro later hmem
      rw [hstored, Bool.eq_false_iff]
      intro hknown
      rcases PathMap.contains_set.mp hknown with hsame | hknown
      · exact hdifferent.1 (List.mem_map.mpr ⟨later, hmem, hsame.symm⟩)
      · rw [hnew later (List.mem_cons_of_mem spec hmem)] at hknown
        cases hknown
    rw [List.map_cons, List.foldl_cons, ih hdifferent.2 hlater, hstored]
    rfl

theorem foldl_contribute (contributions : List (Path × List StepSignature)) :
    (contributions.map fun (file, signatures) ↦ BuildStep.contribute file signatures).foldl
        perform index =
      { index with cache :=
        { index.cache with catalogue := index.cache.catalogue.insertAll contributions } } := by
  induction contributions generalizing index with
  | nil => rfl
  | cons given contributions ih =>
    rw [List.map_cons, List.foldl_cons, ih]
    rfl

/-- The index that a plan makes. -/
def ofPlan (directories : List Path) (plan : BuildPlan) : Index where
  directories := directories
  dictionary := plan.dictionary
  cache :=
    { specifications := (∅ : PathMap (List Specification)).setAll
        (plan.specifications.map fun spec ↦ (spec.file, [spec]))
      concepts := (∅ : PathMap (List Concept)).setAll plan.conceptFiles
      catalogue := Catalogue.empty.insertAll plan.contributions }

/-- Assumes: specification files in order. What a build makes of an index is given by what it reads. -/
theorem buildFrom_fst {contents : Contents} {conceptFiles specificationFiles : List Path}
    (h : Path.AreSources .specification specificationFiles) :
    (index.buildFrom contents conceptFiles specificationFiles).1 =
      ofPlan index.directories (.read contents conceptFiles specificationFiles) := by
  show (BuildPlan.steps (.read contents conceptFiles specificationFiles)).foldl perform index = _
  have hspecs := BuildPlan.areSources_specifications contents conceptFiles h
  generalize BuildPlan.read contents conceptFiles specificationFiles = plan at hspecs ⊢
  have hdifferent := hspecs.inOrder.nodup
  rw [List.map_map] at hdifferent
  have hcontribute : (plan.specifications.map fun spec ↦
        BuildStep.contribute spec.file spec.signatures) ++
      (plan.conceptFiles.map fun (file, _) ↦
        BuildStep.contribute file (plan.dictionary.fileSignatures file)) =
      plan.contributions.map fun (file, signatures) ↦ .contribute file signatures := by
    rw [BuildPlan.contributions, List.map_append, List.map_map, List.map_map]
    rfl
  rw [BuildPlan.steps, List.append_assoc, hcontribute, List.cons_append, List.cons_append,
    List.foldl_cons, List.foldl_append, List.foldl_append, List.foldl_cons, foldl_storeConcepts,
    foldl_storeSpecification hdifferent fun spec _ ↦ PathMap.contains_empty spec.file,
    foldl_contribute]
  rfl

section OfPlan

variable {directories : List Path} {plan : BuildPlan}

theorem contributes_ofPlan {file : Path} {signature : String} :
    (ofPlan directories plan).cache.catalogue.Contributes file signature ↔
      (∃ spec ∈ plan.specifications, spec.file.location = file.location ∧
        signature ∈ spec.signatures.map StepSignature.value) ∨
      ∃ entry ∈ plan.conceptFiles, entry.1.location = file.location ∧
        signature ∈ (plan.dictionary.fileSignatures entry.1).map StepSignature.value := by
  refine Catalogue.contributes_insertAll.trans ?_
  rw [or_iff_left (Catalogue.not_contributes_empty file signature)]
  simp only [BuildPlan.contributions, List.mem_append, List.mem_map]
  constructor
  · rintro ⟨given, ⟨spec, hspec, rfl⟩ | ⟨entry, hentry, rfl⟩, hfile, hsignature⟩
    · exact Or.inl ⟨spec, hspec, hfile, hsignature⟩
    · exact Or.inr ⟨entry, hentry, hfile, hsignature⟩
  · rintro (⟨spec, hspec, hfile, hsignature⟩ | ⟨entry, hentry, hfile, hsignature⟩)
    · exact ⟨_, Or.inl ⟨spec, hspec, rfl⟩, hfile, hsignature⟩
    · exact ⟨_, Or.inr ⟨entry, hentry, rfl⟩, hfile, hsignature⟩

/-- Assumes: specifications of paths of their kind, in order. A plan puts each at its path, alone. -/
theorem find?_specifications_ofPlan
    (hspecs : Path.AreSources .specification (plan.specifications.map Specification.file))
    {path : Path} {specs : List Specification} :
    (ofPlan directories plan).cache.specifications.find? path = some specs ↔
      ∃ spec ∈ plan.specifications, spec.file.location = path.location ∧ specs = [spec] := by
  have hinOrder : Path.AreInOrder
      ((plan.specifications.map fun spec ↦ (spec.file, [spec])).map Prod.fst) := by
    rw [List.map_map]
    exact hspecs.inOrder
  refine (PathMap.find?_setAll hinOrder).trans ?_
  simp only [List.mem_map, Prod.mk.injEq]
  constructor
  · rintro ⟨given, ⟨spec, hspec, rfl, rfl⟩, hlocation⟩
    exact ⟨spec, hspec, hlocation, rfl⟩
  · rintro ⟨spec, hspec, hlocation, rfl⟩
    exact ⟨spec.file, ⟨spec, hspec, rfl, rfl⟩, hlocation⟩

/-- Assumes: concept files in order. A plan puts the concepts of each at its path. -/
theorem find?_concepts_ofPlan
    (hconcepts : Path.AreSources .concepts (plan.conceptFiles.map Prod.fst))
    {path : Path} {concepts : List Concept} :
    (ofPlan directories plan).cache.concepts.find? path = some concepts ↔
      ∃ file, (file, concepts) ∈ plan.conceptFiles ∧ file.location = path.location :=
  PathMap.find?_setAll hconcepts.inOrder

/-- Assumes: concept files in order. A plan makes its concepts known in the order of their files. -/
theorem allConcepts_ofPlan (hconcepts : Path.AreSources .concepts (plan.conceptFiles.map Prod.fst)) :
    (ofPlan directories plan).cache.allConcepts = plan.conceptFiles.flatMap Prod.snd := by
  show (((∅ : PathMap (List Concept)).setAll plan.conceptFiles).toList.map Prod.snd).flatten = _
  rw [PathMap.toList_setAll hconcepts.inOrder, List.flatMap_def]

theorem contains_concepts_ofPlan
    (hconcepts : Path.AreSources .concepts (plan.conceptFiles.map Prod.fst)) {path : Path} :
    (ofPlan directories plan).cache.concepts.contains path = true ↔
      ∃ entry ∈ plan.conceptFiles, entry.1.location = path.location := by
  rw [PathMap.contains_iff]
  simp only [find?_concepts_ofPlan hconcepts, Prod.exists]
  exact exists_comm.trans (by simp only [exists_and_right])

variable (hspecs : Path.AreSources .specification (plan.specifications.map Specification.file))
  (hconcepts : Path.AreSources .concepts (plan.conceptFiles.map Prod.fst))

include hspecs hconcepts

theorem specificationsAgree_ofPlan : (ofPlan directories plan).cache.SpecificationsAgree := by
  have hkind : ∀ spec ∈ plan.specifications, spec.file.sourceKind = .specification :=
    fun spec hspec ↦ hspecs.sourceKind_eq spec.file (List.mem_map_of_mem hspec)
  constructor
  · exact PathMap.isSpelled_setAll PathMap.isSpelled_empty _
  · intro path hpath
    obtain ⟨specs, hfound⟩ := PathMap.contains_iff.mp hpath
    obtain ⟨spec, hspec, hlocation, -⟩ := (find?_specifications_ofPlan hspecs).mp hfound
    rw [← Path.sourceKind_congr hlocation]
    exact hkind spec hspec
  · intro path specs hfound
    obtain ⟨spec, -, hlocation, rfl⟩ := (find?_specifications_ofPlan hspecs).mp hfound
    exact ⟨spec, rfl, hlocation⟩
  · intro file signature hfile
    rw [contributes_ofPlan, or_iff_left]
    · constructor
      · rintro ⟨spec, hspec, hlocation, hsignature⟩
        refine ⟨spec, ?_, hsignature⟩
        rw [Cache.specification?,
          (find?_specifications_ofPlan hspecs).mpr ⟨spec, hspec, hlocation, rfl⟩]
        rfl
      · rintro ⟨spec, hfound, hsignature⟩
        obtain ⟨specs, hstored, hlast⟩ := Option.bind_eq_some_iff.mp hfound
        obtain ⟨other, hother, hlocation, rfl⟩ := (find?_specifications_ofPlan hspecs).mp hstored
        obtain rfl : other = spec := Option.some.inj hlast
        exact ⟨other, hother, hlocation, hsignature⟩
    · rintro ⟨entry, hentry, hlocation, -⟩
      have hentryKind := hconcepts.sourceKind_eq entry.1 (List.mem_map_of_mem hentry)
      rw [Path.sourceKind_congr hlocation, hfile] at hentryKind
      cases hentryKind

theorem conceptsAgree_ofPlan : (ofPlan directories plan).cache.ConceptsAgree := by
  constructor
  · exact PathMap.isSpelled_setAll PathMap.isSpelled_empty _
  · intro path hpath
    obtain ⟨entry, hentry, hlocation⟩ := (contains_concepts_ofPlan hconcepts).mp hpath
    rw [← Path.sourceKind_congr hlocation]
    exact hconcepts.sourceKind_eq entry.1 (List.mem_map_of_mem hentry)
  · intro file signature hfile hcontributes
    rcases contributes_ofPlan.mp hcontributes with
      ⟨spec, hspec, hlocation, -⟩ | ⟨entry, hentry, hlocation, -⟩
    · rw [← Path.sourceKind_congr hlocation] at hfile
      exact absurd (hspecs.sourceKind_eq spec.file (List.mem_map_of_mem hspec)) hfile
    · exact (contains_concepts_ofPlan hconcepts).mpr ⟨entry, hentry, hlocation⟩

theorem isSound_ofPlan : (ofPlan directories plan).cache.IsSound :=
  ⟨Catalogue.isOrderly_empty.insertAll plan.contributions, specificationsAgree_ofPlan hspecs hconcepts,
    conceptsAgree_ofPlan hspecs hconcepts⟩

/-- Assumes: a plan with the dictionary of its concepts. The index that it makes is settled. -/
theorem isSettled_ofPlan
    (hdictionary : plan.dictionary = (Dictionary.build (plan.conceptFiles.flatMap Prod.snd)).1) :
    (ofPlan directories plan).IsSettled := by
  constructor
  · rw [allConcepts_ofPlan hconcepts]
    exact hdictionary
  · intro file hknown signature
    have hkind := (conceptsAgree_ofPlan hspecs hconcepts).sourceKind_eq file hknown
    obtain ⟨entry, hentry, hlocation⟩ := (contains_concepts_ofPlan hconcepts).mp hknown
    rw [contributes_ofPlan, or_iff_right]
    · constructor
      · rintro ⟨other, -, hother, hsignature⟩
        rw [← Dictionary.fileSignatures_congr hother]
        exact hsignature
      · intro hsignature
        refine ⟨entry, hentry, hlocation, ?_⟩
        rw [Dictionary.fileSignatures_congr hlocation]
        exact hsignature
    · rintro ⟨spec, hspec, hsame, -⟩
      have hspecKind := hspecs.sourceKind_eq spec.file (List.mem_map_of_mem hspec)
      rw [Path.sourceKind_congr hsame, hkind] at hspecKind
      cases hspecKind

end OfPlan

/-! ### Builds -/

section BuildFrom

variable {contents : Contents} {conceptFiles specificationFiles : List Path}
  (hconcepts : Path.AreSources .concepts conceptFiles)
  (hspecs : Path.AreSources .specification specificationFiles)

include hconcepts hspecs

/-- Assumes: concept files and specification files in order. What a build leaves in the cache is
sound. -/
theorem isSound_buildFrom (index : Index) :
    (index.buildFrom contents conceptFiles specificationFiles).1.cache.IsSound := by
  rw [buildFrom_fst hspecs]
  exact isSound_ofPlan (BuildPlan.areSources_specifications contents conceptFiles hspecs)
    (BuildPlan.areSources_conceptFiles contents specificationFiles hconcepts)

/-- Assumes: concept files and specification files in order. A build leaves the index settled. -/
theorem isSettled_buildFrom (index : Index) :
    (index.buildFrom contents conceptFiles specificationFiles).1.IsSettled := by
  rw [buildFrom_fst hspecs]
  exact isSettled_ofPlan (BuildPlan.areSources_specifications contents conceptFiles hspecs)
    (BuildPlan.areSources_conceptFiles contents specificationFiles hconcepts) rfl

end BuildFrom

/-- Where a run can start: an index that knows no file, or one that was just built. -/
inductive IsStart : Index → Prop
  | new (directories : List Path) : IsStart (.new directories)
  | built (earlier : Index) (contents : Contents) (conceptDisk specificationDisk : Disk) :
    IsStart (earlier.buildFrom contents (sourcesIn conceptDisk .concepts earlier.directories)
      (sourcesIn specificationDisk .specification earlier.directories)).1

theorem IsStart.isSound {index : Index} (h : index.IsStart) : index.cache.IsSound := by
  cases h with
  | new directories => exact Cache.isSound_empty
  | built earlier contents conceptDisk specificationDisk =>
    exact isSound_buildFrom (areSources_sourcesIn conceptDisk .concepts earlier.directories)
      (areSources_sourcesIn specificationDisk .specification earlier.directories) earlier

theorem IsStart.isSettled {index : Index} (h : index.IsStart) : index.IsSettled := by
  cases h with
  | new directories => exact isSettled_new directories
  | built earlier contents conceptDisk specificationDisk =>
    exact isSettled_buildFrom (areSources_sourcesIn conceptDisk .concepts earlier.directories)
      (areSources_sourcesIn specificationDisk .specification earlier.directories) earlier

end Index

end LiveSpec
