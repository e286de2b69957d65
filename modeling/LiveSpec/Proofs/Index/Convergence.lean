import LiveSpec.Proofs.Index.Following

/-!
# Following the files comes to what a build gives

From any index that can be reached, removing the paths that are gone, writing the concept files and then
writing the specifications leads to the answers that a build of the same files gives
(`Index.applyAll_answersLike_build`), in whatever order each of the three groups is worked off. The condition
is that the build reports no failure; duplicate and cyclic concepts do not matter.

Both indices are sound and settled, and the answers of such an index depend on nothing but the
specifications and the concepts that it finds at each path (`Index.Stands.answersLike`). So it is enough to
follow these two stores. The removals leave only locations of sources; the writes fill first the one store
and then the other with the values that the build stores (`Index.applyAll_conceptFiles`,
`Index.applyAll_specificationFiles`). Between the two the dictionary is that of the build, because it is the
one of all concepts, so every specification is expanded as in the build.

The argument texts with which a signature is listed are those of the build if one file alone contributes the
signature all the time (`Index.CanFollow.mem_steps`). Without this condition they can be older than
all files (`Index.exists_listed_otherwise_say`).
-/

set_option autoImplicit false

namespace LiveSpec.Index

variable {index first second : Index} {contents : Contents}

/-! ### Answers -/

/-- Two indices give the same answers: the same specifications, the same listing of concepts, the same
dictionary, the same signatures, and for every signature the same contributors, which are compared as
paths are, by location. -/
structure AnswersLike (index other : Index) : Prop where
  allSpecifications_eq : index.cache.allSpecifications = other.cache.allSpecifications
  conceptSummaries_eq : index.cache.conceptSummaries = other.cache.conceptSummaries
  dictionary_eq : index.dictionary = other.dictionary
  signatures_eq : index.cache.steps.map StepSignature.value =
    other.cache.steps.map StepSignature.value
  contributors_eq : ∀ signature, (index.cache.contributors signature).map Path.location =
    (other.cache.contributors signature).map Path.location

section Determined

variable (hfirst : first.Stands) (hsecond : second.Stands)
  (hconcepts : ∀ path, first.cache.concepts.find? path = second.cache.concepts.find? path)

include hfirst hsecond hconcepts

theorem allConcepts_congr : first.cache.allConcepts = second.cache.allConcepts := by
  unfold Cache.allConcepts
  rw [PathMap.values_congr hfirst.isSound.concepts.isSpelled hsecond.isSound.concepts.isSpelled
    hconcepts]

/-- Assumes: two sound and settled indices that find the same concepts at every path. They have the same
dictionary. -/
theorem dictionary_congr : first.dictionary = second.dictionary := by
  rw [hfirst.isSettled.dictionary_eq, hsecond.isSettled.dictionary_eq,
    allConcepts_congr hfirst hsecond hconcepts]

/-- Assumes: two sound and settled indices that find the same concepts at every path. Apart from the
specifications the same files contribute the same signatures. -/
theorem contributes_congr_of_concepts {file : Path} (hkind : file.sourceKind ≠ .specification)
    (signature : String) :
    first.cache.catalogue.Contributes file signature ↔
      second.cache.catalogue.Contributes file signature := by
  have hknown : first.cache.concepts.contains file = second.cache.concepts.contains file := by
    rw [PathMap.contains_eq_isSome, PathMap.contains_eq_isSome, hconcepts]
  by_cases hfile : first.cache.concepts.contains file = true
  · have hother : second.cache.concepts.contains file = true := hknown ▸ hfile
    rw [hfirst.isSettled.upToDate file hfile signature,
      hsecond.isSettled.upToDate file hother signature, dictionary_congr hfirst hsecond hconcepts]
  · have hother : ¬ second.cache.concepts.contains file = true := hknown ▸ hfile
    exact iff_of_false
      (fun h ↦ hfile (hfirst.isSound.concepts.contains_of_contributes file signature hkind h))
      (fun h ↦ hother (hsecond.isSound.concepts.contains_of_contributes file signature hkind h))

variable (hspecs : ∀ path, first.cache.specifications.find? path =
  second.cache.specifications.find? path)

include hspecs

/-- Assumes: two sound and settled indices that find the same concepts and the same specifications at
every path. The same files contribute the same signatures. -/
theorem contributes_congr (file : Path) (signature : String) :
    first.cache.catalogue.Contributes file signature ↔
      second.cache.catalogue.Contributes file signature := by
  by_cases hkind : file.sourceKind = .specification
  · rw [hfirst.isSound.specifications.contributes_iff file signature hkind,
      hsecond.isSound.specifications.contributes_iff file signature hkind,
      Cache.specification?, Cache.specification?, hspecs]
  · exact contributes_congr_of_concepts hfirst hsecond hconcepts hkind signature

theorem signaturesOf_congr (file : Path) : first.signaturesOf file = second.signaturesOf file := by
  rw [signaturesOf, signaturesOf, Cache.specification?, Cache.specification?, hspecs,
    PathMap.contains_eq_isSome, PathMap.contains_eq_isSome, hconcepts,
    dictionary_congr hfirst hsecond hconcepts]

/-- Assumes: two sound and settled indices that find the same concepts and the same specifications at
every path. They give the same answers. -/
theorem Stands.answersLike : first.AnswersLike second := by
  have hcontributes := contributes_congr hfirst hsecond hconcepts hspecs
  constructor
  · unfold Cache.allSpecifications
    rw [PathMap.values_congr hfirst.isSound.specifications.isSpelled
      hsecond.isSound.specifications.isSpelled hspecs]
  · unfold Cache.conceptSummaries
    rw [allConcepts_congr hfirst hsecond hconcepts]
  · exact dictionary_congr hfirst hsecond hconcepts
  · exact Catalogue.map_value_toList_congr hfirst.isSound.catalogue hsecond.isSound.catalogue
      hcontributes
  · exact Catalogue.map_location_contributors_congr hfirst.isSound.catalogue
      hsecond.isSound.catalogue hcontributes

end Determined

/-! ### The three groups -/

/-- The changes that follow the files: some paths are removed, then concept files are written, then
specifications. -/
def following (removals conceptFiles specificationFiles : List Path) : List Change :=
  removals.map .remove ++ conceptFiles.map .write ++ specificationFiles.map .write

theorem applyAll_following (index : Index) (contents : Contents)
    (removals conceptFiles specificationFiles : List Path) :
    index.applyAll contents (following removals conceptFiles specificationFiles) =
      ((index.applyAll contents (removals.map .remove)).applyAll contents
        (conceptFiles.map .write)).applyAll contents (specificationFiles.map .write) := by
  rw [following, applyAll_append, applyAll_append]

/-- At the start of some changes and after each of them, no other file than a given one contributes a
signature. -/
def IsSoleContributor (index : Index) (contents : Contents) (changes : List Change) (file : Path)
    (signature : String) : Prop :=
  ∀ earlier, earlier <+: changes →
    ∀ contributor ∈ (index.applyAll contents earlier).cache.contributors signature,
      contributor.location = file.location

section Groups

variable {conceptFiles specificationFiles : List Path}
  (hsources : contents.ReadsCleanly conceptFiles specificationFiles)

include hsources

/-- Assumes: clean sources, and an index that knows nothing from elsewhere. Writing the concept files, in any
order, fills the concepts, and the dictionary is that of the build. The specifications are as before. -/
theorem applyAll_conceptFiles (h : index.Stands)
    (hknown : ∀ path, index.Knows path →
      ∃ file ∈ conceptFiles ++ specificationFiles, file.location = path.location)
    {writes : List Path} (hwrites : writes.Perm conceptFiles) :
    (index.applyAll contents (writes.map .write)).Stands ∧
      (index.applyAll contents (writes.map .write)).cache.concepts.IsFilling conceptFiles
        contents.conceptsOf [] ∧
      (index.applyAll contents (writes.map .write)).dictionary =
        (BuildPlan.read contents conceptFiles specificationFiles).dictionary ∧
      (index.applyAll contents (writes.map .write)).cache.specifications =
        index.cache.specifications := by
  have hfilling : index.cache.concepts.IsFilling conceptFiles contents.conceptsOf writes := by
    constructor
    · intro path hpath
      obtain ⟨file, hfile, hsame⟩ := hknown path (Or.inr hpath)
      refine ⟨file, (List.mem_append.mp hfile).resolve_right fun hspec ↦ ?_, hsame⟩
      have hkind := hsources.specifications.sourceKind_eq file hspec
      rw [Path.sourceKind_congr hsame, h.isSound.concepts.sourceKind_eq path hpath] at hkind
      cases hkind
    · intro source hsource
      exact Or.inl (hwrites.mem_iff.mpr hsource)
  obtain ⟨hstands, hfilled, hkept⟩ := applyAll_concepts h hsources.concepts hsources.exists_concepts
    hwrites.subset hfilling
  refine ⟨hstands, hfilled, ?_, hkept⟩
  -- A build has the same concepts, so it has the same dictionary.
  rw [dictionary_congr hstands (stands_buildFrom hsources.concepts hsources.specifications contents index)
    (hfilled.find?_eq (hsources.isFilling_concepts_buildFrom index)), buildFrom_fst hsources.specifications]
  rfl

/-- Assumes: clean sources, and an index with the dictionary of the build that knows no specifications from
elsewhere. Writing the specifications, in any order, fills them. The concepts are as before. -/
theorem applyAll_specificationFiles (h : index.Stands)
    (hdictionary : index.dictionary =
      (BuildPlan.read contents conceptFiles specificationFiles).dictionary)
    (hknown : ∀ path, index.cache.specifications.contains path = true →
      ∃ file ∈ conceptFiles ++ specificationFiles, file.location = path.location)
    {writes : List Path} (hwrites : writes.Perm specificationFiles) :
    (index.applyAll contents (writes.map .write)).Stands ∧
      (index.applyAll contents (writes.map .write)).cache.specifications.IsFilling specificationFiles
        (contents.specificationsOf
          (BuildPlan.read contents conceptFiles specificationFiles).dictionary) [] ∧
      (index.applyAll contents (writes.map .write)).cache.concepts = index.cache.concepts := by
  have hread := hsources.exists_specification
  rw [← hdictionary] at hread ⊢
  have hfilling : index.cache.specifications.IsFilling specificationFiles
      (contents.specificationsOf index.dictionary) writes := by
    constructor
    · intro path hpath
      obtain ⟨file, hfile, hsame⟩ := hknown path hpath
      refine ⟨file, (List.mem_append.mp hfile).resolve_left fun hconcept ↦ ?_, hsame⟩
      have hkind := hsources.concepts.sourceKind_eq file hconcept
      rw [Path.sourceKind_congr hsame, h.isSound.specifications.sourceKind_eq path hpath] at hkind
      cases hkind
    · intro source hsource
      exact Or.inl (hwrites.mem_iff.mpr hsource)
  exact applyAll_specifications h hsources.specifications hread hwrites.subset hfilling

end Groups

/-- What it takes to follow the files: a sound and settled index, clean sources, nothing known but these and
what is to be removed, and all sources to be written, those of each kind in any order. -/
structure CanFollow (index : Index) (contents : Contents) (conceptFiles specificationFiles removals
    conceptWrites specificationWrites : List Path) : Prop where
  stands : index.Stands
  sources : contents.ReadsCleanly conceptFiles specificationFiles
  known : ∀ path, index.Knows path →
    ∃ file ∈ removals ++ (conceptFiles ++ specificationFiles), file.location = path.location
  conceptWrites_perm : conceptWrites.Perm conceptFiles
  specificationWrites_perm : specificationWrites.Perm specificationFiles

namespace CanFollow

variable {conceptFiles specificationFiles removals conceptWrites specificationWrites : List Path}
  (h : index.CanFollow contents conceptFiles specificationFiles removals conceptWrites
    specificationWrites)

include h

theorem stands_buildFrom :
    (index.buildFrom contents conceptFiles specificationFiles).1.Stands :=
  Index.stands_buildFrom h.sources.concepts h.sources.specifications contents index

/-- Following the files stores what the build stores. -/
theorem find?_eq :
    (index.applyAll contents (following removals conceptWrites specificationWrites)).Stands ∧
      (∀ path, (index.applyAll contents
          (following removals conceptWrites specificationWrites)).cache.concepts.find? path =
        (index.buildFrom contents conceptFiles specificationFiles).1.cache.concepts.find? path) ∧
      ∀ path, (index.applyAll contents
          (following removals conceptWrites specificationWrites)).cache.specifications.find? path =
        (index.buildFrom contents conceptFiles specificationFiles).1.cache.specifications.find? path := by
  rw [applyAll_following]
  obtain ⟨hremoved, hleft⟩ := applyAll_removals h.stands contents h.known
  obtain ⟨hwritten, hfilled, hdictionary, hkept⟩ :=
    applyAll_conceptFiles h.sources hremoved hleft h.conceptWrites_perm
  obtain ⟨hstands, hspecsFilled, hconceptsKept⟩ :=
    applyAll_specificationFiles h.sources hwritten hdictionary
      (fun path hpath ↦ hleft path (Or.inl (hkept ▸ hpath))) h.specificationWrites_perm
  refine ⟨hstands, ?_, hspecsFilled.find?_eq (h.sources.isFilling_specifications_buildFrom index)⟩
  rw [hconceptsKept]
  exact hfilled.find?_eq (h.sources.isFilling_concepts_buildFrom index)

/-- Following the files gives the answers of the build. -/
theorem answersLike :
    (index.applyAll contents (following removals conceptWrites specificationWrites)).AnswersLike
      (index.buildFrom contents conceptFiles specificationFiles).1 := by
  obtain ⟨hstands, hconcepts, hspecs⟩ := h.find?_eq
  exact hstands.answersLike h.stands_buildFrom hconcepts hspecs

/-- In the end the same files contribute the same signatures as after the build. -/
theorem contributes_iff (file : Path) (signature : String) :
    (index.applyAll contents
      (following removals conceptWrites specificationWrites)).cache.catalogue.Contributes file signature ↔
        (index.buildFrom contents conceptFiles specificationFiles).1.cache.catalogue.Contributes file
          signature := by
  obtain ⟨hstands, hconcepts, hspecs⟩ := h.find?_eq
  exact contributes_congr hstands h.stands_buildFrom hconcepts hspecs file signature

/-! ### Argument texts -/

variable {file : Path} {signature : String}
  (honly : ∀ earlier, earlier <+: following removals conceptWrites specificationWrites →
    (index.applyAll contents earlier).cache.catalogue.OnlyFrom file signature)

include honly

/-- A signature that no other file contributes than one of the sources, at any time while the files are
followed, is listed in the end as this file has it. -/
theorem hasOwnForm
    (hsource : ∃ source ∈ conceptFiles ++ specificationFiles, source.location = file.location) :
    (index.applyAll contents
      (following removals conceptWrites specificationWrites)).HasOwnForm file signature := by
  have honlyConcepts : ∀ earlier, earlier <+: conceptWrites.map Change.write →
      ((index.applyAll contents (removals.map .remove)).applyAll contents
        earlier).cache.catalogue.OnlyFrom file signature := by
    intro earlier hearlier
    rw [← applyAll_append]
    refine honly _ (List.IsPrefix.trans ?_ (List.prefix_append _ _))
    exact (List.prefix_append_right_inj _).mpr hearlier
  have honlySpecs : ∀ earlier, earlier <+: specificationWrites.map Change.write →
      (((index.applyAll contents (removals.map .remove)).applyAll contents
        (conceptWrites.map .write)).applyAll contents earlier).cache.catalogue.OnlyFrom file
          signature := by
    intro earlier hearlier
    rw [← applyAll_append, ← applyAll_append, ← List.append_assoc]
    exact honly _ ((List.prefix_append_right_inj _).mpr hearlier)
  have hconcepts : conceptWrites ⊆ conceptFiles := h.conceptWrites_perm.subset
  have hspecs : specificationWrites ⊆ specificationFiles := h.specificationWrites_perm.subset
  rw [applyAll_following]
  obtain ⟨hremoved, hleft⟩ := applyAll_removals h.stands contents h.known
  obtain ⟨hwritten, -, hdictionary, -⟩ :=
    applyAll_conceptFiles h.sources hremoved hleft h.conceptWrites_perm
  have hread := h.sources.exists_specification
  rw [← hdictionary] at hread
  refine hasOwnForm_applyAll_specifications hwritten
    (fun written hmem ↦ h.sources.specifications.sourceKind_eq written (hspecs hmem))
    (fun written hmem ↦ hread written (hspecs hmem)) honlySpecs ?_
  obtain ⟨source, hsource, hsame⟩ := hsource
  rcases List.mem_append.mp hsource with hconcept | hspec
  · refine Or.inr (hasOwnForm_applyAll_concepts hremoved
      (fun written hmem ↦ h.sources.concepts.sourceKind_eq written (hconcepts hmem))
      (fun written hmem ↦ h.sources.exists_concepts written (hconcepts hmem)) honlyConcepts ?_)
    exact Or.inl ⟨source, h.conceptWrites_perm.mem_iff.mpr hconcept, hsame⟩
  · exact Or.inl ⟨source, h.specificationWrites_perm.mem_iff.mpr hspec, hsame⟩

/-- A signature that some file contributes after the build, but only one file at any time while the files are
followed, is listed in the same form in the end. -/
theorem form?_eq
    (hlisted : ∃ other, (index.buildFrom contents conceptFiles
      specificationFiles).1.cache.catalogue.Contributes other signature) :
    (index.applyAll contents
      (following removals conceptWrites specificationWrites)).cache.catalogue.form? signature =
        (index.buildFrom contents conceptFiles
          specificationFiles).1.cache.catalogue.form? signature := by
  have honlyBuilt : (index.buildFrom contents conceptFiles
      specificationFiles).1.cache.catalogue.OnlyFrom file signature := by
    intro other hother
    exact honly _ List.prefix_rfl other ((h.contributes_iff other signature).mpr hother)
  have hcontributes : (index.buildFrom contents conceptFiles
      specificationFiles).1.cache.catalogue.Contributes file signature := by
    obtain ⟨other, hother⟩ := hlisted
    exact (Catalogue.Contributes.congr (honlyBuilt other hother)).mp hother
  have hown := h.hasOwnForm honly (h.sources.exists_source_of_contributes hcontributes)
  have hownBuilt := hasOwnForm_buildFrom h.sources.concepts h.sources.specifications hcontributes honlyBuilt
  obtain ⟨hstands, hconcepts, hspecs⟩ := h.find?_eq
  rw [hown, hownBuilt, signaturesOf_congr hstands h.stands_buildFrom hconcepts hspecs]

end CanFollow

/-- Assumes: an index that can be reached and can follow the files. A form that the build lists is listed in
the end, if no other file than a given one contributes its signature while the files are followed. -/
theorem CanFollow.mem_steps {conceptFiles specificationFiles removals conceptWrites
    specificationWrites : List Path}
    (h : index.CanFollow contents conceptFiles specificationFiles removals conceptWrites
      specificationWrites) (hreachable : index.IsReachable) {file : Path} {listed : StepSignature}
    (hlisted : listed ∈ (index.buildFrom contents conceptFiles specificationFiles).1.cache.steps)
    (hsole : index.IsSoleContributor contents
      (following removals conceptWrites specificationWrites) file listed.value) :
    listed ∈ (index.applyAll contents
      (following removals conceptWrites specificationWrites)).cache.steps := by
  have hstands := fun earlier ↦ (hreachable.applyAll contents earlier).stands
  have honly : ∀ earlier, earlier <+: following removals conceptWrites specificationWrites →
      (index.applyAll contents earlier).cache.catalogue.OnlyFrom file listed.value := by
    intro earlier hearlier
    exact (hstands earlier).isSound.catalogue.onlyFrom_iff.mpr (hsole earlier hearlier)
  have hbuilt := h.stands_buildFrom.isSound.catalogue
  refine (hstands _).isSound.catalogue.mem_toList_iff.mpr ?_
  rw [h.form?_eq honly (hbuilt.exists_contributes_of_mem_toList hlisted)]
  exact hbuilt.mem_toList_iff.mp hlisted

/-- The paths that an index knows something from and that are none of some files. -/
def gone (index : Index) (files : List Path) : List Path :=
  (index.cache.specifications.paths ++ index.cache.concepts.paths).filter fun path ↦
    files.all fun file ↦ file.location ≠ path.location

theorem exists_of_knows (h : index.Stands) {files : List Path} {path : Path}
    (hknows : index.Knows path) :
    ∃ file ∈ index.gone files ++ files, file.location = path.location := by
  have hlisted : ∃ listed ∈ index.cache.specifications.paths ++ index.cache.concepts.paths,
      listed.location = path.location := by
    rcases hknows with hspec | hconcept
    · obtain ⟨listed, hlisted, hsame⟩ :=
        (PathMap.exists_mem_paths_iff h.isSound.specifications.isSpelled).mpr hspec
      exact ⟨listed, List.mem_append_left _ hlisted, hsame⟩
    · obtain ⟨listed, hlisted, hsame⟩ :=
        (PathMap.exists_mem_paths_iff h.isSound.concepts.isSpelled).mpr hconcept
      exact ⟨listed, List.mem_append_right _ hlisted, hsame⟩
  by_cases hfile : ∃ file ∈ files, file.location = path.location
  · obtain ⟨file, hfile, hsame⟩ := hfile
    exact ⟨file, List.mem_append_right _ hfile, hsame⟩
  · obtain ⟨listed, hlisted, hsame⟩ := hlisted
    refine ⟨listed, List.mem_append_left _ (List.mem_filter.mpr ⟨hlisted, ?_⟩), hsame⟩
    rw [List.all_eq_true]
    intro file hmem
    exact decide_eq_true fun hother ↦ hfile ⟨file, hmem, hother.trans hsame⟩

/-- Assumes: an index that can be reached, a disk of which a build reports no failure, the paths that the
index knows and that are not among the sources on the disk, the concept files on the disk, and the
specifications on the disk, each in any order. Removing the first, writing the second and then writing the
third gives the answers of the build, and the form in which a signature is listed is that of the build
unless more than one file has contributed the signature on the way. -/
theorem applyAll_answersLike_build (h : index.IsReachable) (disk : Disk)
    (hclean : (index.build disk).2.failures = [])
    {removals conceptFiles specificationFiles : List Path}
    (hremovals : removals.Perm (index.gone (sourcesIn disk .concepts index.directories ++
      sourcesIn disk .specification index.directories)))
    (hconcepts : conceptFiles.Perm (sourcesIn disk .concepts index.directories))
    (hspecs : specificationFiles.Perm (sourcesIn disk .specification index.directories)) :
    (index.applyAll disk.contents (following removals conceptFiles specificationFiles)).AnswersLike
        (index.build disk).1 ∧
      ∀ (file : Path) (listed : StepSignature), listed ∈ (index.build disk).1.cache.steps →
        index.IsSoleContributor disk.contents (following removals conceptFiles specificationFiles) file
            listed.value →
          listed ∈ (index.applyAll disk.contents
            (following removals conceptFiles specificationFiles)).cache.steps := by
  have hfollow : index.CanFollow disk.contents (sourcesIn disk .concepts index.directories)
      (sourcesIn disk .specification index.directories) removals conceptFiles specificationFiles := by
    refine ⟨h.stands, ⟨areSources_sourcesIn disk .concepts index.directories,
      areSources_sourcesIn disk .specification index.directories, hclean⟩, ?_, hconcepts, hspecs⟩
    intro path hknows
    obtain ⟨file, hfile, hsame⟩ := exists_of_knows h.stands hknows
    refine ⟨file, ?_, hsame⟩
    rcases List.mem_append.mp hfile with hgone | hsource
    · exact List.mem_append_left _ (hremovals.mem_iff.mpr hgone)
    · exact List.mem_append_right _ hsource
  exact ⟨hfollow.answersLike, fun file listed ↦ hfollow.mem_steps h⟩

/-- A specification and two concept files, of which the second defines the concept of the first again. -/
def payDisk : Disk :=
  ⟨((((∅ : Std.ExtTreeMap Place DiskEntry).insert ["w"] .directory).insert ["w", "login.cpt"]
    (.text "# Log in\n* Open page\n")).insert ["w", "other.cpt"]
    (.text "# Log in\n* Open door\n# Log out\n* Close \"front\" page\n")).insert ["w", "pay.spec"]
    (.text "# Pay\n* Log in\n* Pay\n"), []⟩

/-- An index that knows one of these files with other content, under another spelling, and a file that is
gone. -/
def staleIndex : Index :=
  (new [⟨"/w"⟩]).applyAll (fun _ ↦ .ok "# Log in\n* Open window\n")
    [.write ⟨"/w//login.cpt"⟩, .write ⟨"/w/old.spec"⟩]

/-- The file that is gone is removed, and the others are written, the concept files in another order than
that of their paths. The step that only one of them contributes is listed with its argument. -/
theorem applyAll_answersLike_build_pay :
    (staleIndex.build payDisk).2.failures = [] ∧
      (staleIndex.applyAll payDisk.contents (following [⟨"/w/old.spec"⟩]
        [⟨"/w/other.cpt"⟩, ⟨"/w/login.cpt"⟩] [⟨"/w/pay.spec"⟩])).AnswersLike
          (staleIndex.build payDisk).1 ∧
      ⟨"Close \x7b\x7d page", "Close <front> page", ["front"]⟩ ∈
        (staleIndex.applyAll payDisk.contents (following [⟨"/w/old.spec"⟩]
          [⟨"/w/other.cpt"⟩, ⟨"/w/login.cpt"⟩] [⟨"/w/pay.spec"⟩])).cache.steps := by
  have hreachable : staleIndex.IsReachable := (IsReachable.start (.new [⟨"/w"⟩])).applyAll _ _
  have hclean : (staleIndex.build payDisk).2.failures = [] := by decide +kernel
  have hremovals : [⟨"/w/old.spec"⟩].Perm (staleIndex.gone
      (sourcesIn payDisk .concepts staleIndex.directories ++
        sourcesIn payDisk .specification staleIndex.directories)) := by decide +kernel
  have hconcepts : [⟨"/w/other.cpt"⟩, ⟨"/w/login.cpt"⟩].Perm
      (sourcesIn payDisk .concepts staleIndex.directories) := by decide +kernel
  have hspecs : [⟨"/w/pay.spec"⟩].Perm (sourcesIn payDisk .specification staleIndex.directories) := by
    decide +kernel
  have hfollowed := applyAll_answersLike_build hreachable payDisk hclean hremovals hconcepts hspecs
  have hsole : ∀ n < 5, ∀ contributor ∈ (staleIndex.applyAll payDisk.contents
      ((following [⟨"/w/old.spec"⟩] [⟨"/w/other.cpt"⟩, ⟨"/w/login.cpt"⟩]
        [⟨"/w/pay.spec"⟩]).take n)).cache.contributors "Close \x7b\x7d page",
      contributor.location = (⟨"/w/other.cpt"⟩ : Path).location := by decide +kernel
  refine ⟨hclean, hfollowed.1, hfollowed.2 ⟨"/w/other.cpt"⟩ _ (by decide +kernel) ?_⟩
  intro earlier hearlier
  rw [List.prefix_iff_eq_take.mp hearlier]
  exact hsole earlier.length (Nat.lt_succ_of_le hearlier.length_le)

/-- A specification with a step that another one had with another argument, and that one without it. -/
def sayDisk : Disk :=
  ⟨(((∅ : Std.ExtTreeMap Place DiskEntry).insert ["w"] .directory).insert ["w", "first.spec"]
    (.text "# First\n* Say \"new\"\n")).insert ["w", "second.spec"] (.text "# Second\n* Pay\n"), []⟩

/-- An index that knows the second specification as it was. -/
def saidIndex : Index :=
  (new [⟨"/w"⟩]).applyAll (fun _ ↦ .ok "# Second\n* Say \"old\"\n") [.write ⟨"/w/second.spec"⟩]

/-- The condition of `applyAll_answersLike_build` on the contributors cannot be restricted to those of the
files on the disk. Here only one of them contributes a signature, but it is written while the other one still
does, and so the signature keeps the argument that is not on the disk any more. -/
theorem exists_listed_otherwise_say :
    saidIndex.IsReachable ∧ (saidIndex.build sayDisk).2.failures = [] ∧
      [].Perm (saidIndex.gone (sourcesIn sayDisk .concepts saidIndex.directories ++
        sourcesIn sayDisk .specification saidIndex.directories)) ∧
      [].Perm (sourcesIn sayDisk .concepts saidIndex.directories) ∧
      [⟨"/w/first.spec"⟩, ⟨"/w/second.spec"⟩].Perm
        (sourcesIn sayDisk .specification saidIndex.directories) ∧
      ¬ ∀ listed ∈ (saidIndex.build sayDisk).1.cache.steps,
        ((saidIndex.build sayDisk).1.cache.contributors listed.value).length ≤ 1 →
          listed ∈ (saidIndex.applyAll sayDisk.contents
            (following [] [] [⟨"/w/first.spec"⟩, ⟨"/w/second.spec"⟩])).cache.steps := by
  refine ⟨(IsReachable.start (.new [⟨"/w"⟩])).applyAll _ _, ?_, ?_, ?_, ?_, ?_⟩
  · decide +kernel
  · decide +kernel
  · decide +kernel
  · decide +kernel
  · decide +kernel

end LiveSpec.Index
