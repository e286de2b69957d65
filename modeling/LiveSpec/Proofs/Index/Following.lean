import LiveSpec.Proofs.Index.Forms

/-!
# Following the files step by step

When changes are worked off one after another, removing a path leaves nothing that is known from it
(`Index.applyAll_removals`), and writing the sources of one kind fills the store of that kind with what a
build without failures stores (`Index.applyAll_concepts`, `Index.applyAll_specifications`), in whatever order
they are written. While they are written, a signature that one file alone contributes comes to be listed as
this file has it (`Index.hasOwnForm_applyAll_concepts`, `Index.hasOwnForm_applyAll_specifications`).
-/

set_option autoImplicit false

namespace LiveSpec

/-! ### What a clean build stores -/

theorem exists_ok_of_partitionResults {α : Type} {readFile : Path → Except IndexError α}
    {files : List Path} (h : (partitionResults (files.map readFile)).2 = []) :
    ∀ file ∈ files, ∃ value, readFile file = .ok value := by
  intro file hfile
  cases hread : readFile file with
  | ok value => exact ⟨value, rfl⟩
  | error error =>
    have hmem : error ∈ (partitionResults (files.map readFile)).2 :=
      List.mem_filterMap.mpr ⟨.error error, List.mem_map.mpr ⟨file, hfile, hread⟩, rfl⟩
    rw [h] at hmem
    exact absurd hmem List.not_mem_nil

namespace Contents

variable {contents : Contents} {conceptFiles specificationFiles : List Path}

/-- What is stored for a concept file. -/
def conceptsOf (contents : Contents) (file : Path) : List Concept :=
  (contents.concepts file).toOption.getD []

/-- What is stored for the path of a specification. -/
def specificationsOf (contents : Contents) (dictionary : Dictionary) (file : Path) :
    List Specification :=
  (contents.expanded dictionary file).toOption.toList

/-- Sources of both kinds in order, of which a build reports no failure. -/
structure ReadsCleanly (contents : Contents) (conceptFiles specificationFiles : List Path) : Prop where
  concepts : Path.AreSources .concepts conceptFiles
  specifications : Path.AreSources .specification specificationFiles
  failures_eq_nil : (BuildPlan.read contents conceptFiles specificationFiles).failures = []

namespace ReadsCleanly

variable (h : contents.ReadsCleanly conceptFiles specificationFiles)

include h

/-- Every concept file of a build without failures can be parsed. -/
theorem exists_concepts : ∀ file ∈ conceptFiles, ∃ concepts, contents.concepts file = .ok concepts := by
  intro file hfile
  obtain ⟨⟨path, concepts⟩, hread⟩ :=
    exists_ok_of_partitionResults (List.append_eq_nil_iff.mp h.failures_eq_nil).1 file hfile
  obtain ⟨rfl, hconcepts⟩ := BuildPlan.conceptFile_eq_ok.mp hread
  exact ⟨concepts, hconcepts⟩

/-- Every specification of a build without failures can be expanded with its dictionary. -/
theorem exists_specification : ∀ file ∈ specificationFiles, ∃ spec, contents.expanded
    (BuildPlan.read contents conceptFiles specificationFiles).dictionary file = .ok spec :=
  exists_ok_of_partitionResults (List.append_eq_nil_iff.mp h.failures_eq_nil).2

/-- A build without failures fills the concepts. -/
theorem isFilling_concepts_buildFrom (index : Index) :
    (index.buildFrom contents conceptFiles specificationFiles).1.cache.concepts.IsFilling conceptFiles
      contents.conceptsOf [] := by
  rw [Index.buildFrom_fst h.specifications]
  have hsources := BuildPlan.areSources_conceptFiles contents specificationFiles h.concepts
  constructor
  · intro path hpath
    obtain ⟨⟨file, concepts⟩, hentry, hsame⟩ := (Index.contains_concepts_ofPlan hsources).mp hpath
    exact ⟨file, (BuildPlan.mem_conceptFiles.mp hentry).1, hsame⟩
  · intro source hsource
    obtain ⟨concepts, hread⟩ := h.exists_concepts source hsource
    refine Or.inr ((Index.find?_concepts_ofPlan hsources).mpr ⟨source, ?_, rfl⟩)
    rw [conceptsOf, hread]
    exact BuildPlan.mem_conceptFiles.mpr ⟨hsource, hread⟩

/-- A build without failures fills the specifications. -/
theorem isFilling_specifications_buildFrom (index : Index) :
    (index.buildFrom contents conceptFiles specificationFiles).1.cache.specifications.IsFilling
      specificationFiles (contents.specificationsOf
        (BuildPlan.read contents conceptFiles specificationFiles).dictionary) [] := by
  rw [Index.buildFrom_fst h.specifications]
  have hsources := BuildPlan.areSources_specifications contents conceptFiles h.specifications
  constructor
  · intro path hpath
    obtain ⟨specs, hfound⟩ := PathMap.contains_iff.mp hpath
    obtain ⟨spec, hspec, hsame, -⟩ := (Index.find?_specifications_ofPlan hsources).mp hfound
    exact ⟨spec.file, (BuildPlan.mem_specifications.mp hspec).1, hsame⟩
  · intro source hsource
    obtain ⟨spec, hread⟩ := h.exists_specification source hsource
    have hfile := file_of_expanded hread
    subst hfile
    refine Or.inr ((Index.find?_specifications_ofPlan hsources).mpr ⟨spec, ?_, rfl, ?_⟩)
    · exact BuildPlan.mem_specifications.mpr ⟨hsource, hread⟩
    · rw [specificationsOf, hread]
      rfl

/-- What a file contributes after a build it contributes as one of the sources. -/
theorem exists_source_of_contributes {index : Index} {file : Path} {signature : String}
    (hcontributes : (index.buildFrom contents conceptFiles
      specificationFiles).1.cache.catalogue.Contributes file signature) :
    ∃ source ∈ conceptFiles ++ specificationFiles, source.location = file.location := by
  have hbuilt := (Index.stands_buildFrom h.concepts h.specifications contents index).isSound
  by_cases hkind : file.sourceKind = .specification
  · obtain ⟨spec, hspec, -⟩ :=
      (hbuilt.specifications.contributes_iff file signature hkind).mp hcontributes
    obtain ⟨specs, hfound, -⟩ := Option.bind_eq_some_iff.mp hspec
    obtain ⟨source, hmem, hsame⟩ := (h.isFilling_specifications_buildFrom index).known file
      (PathMap.contains_iff.mpr ⟨specs, hfound⟩)
    exact ⟨source, List.mem_append_right _ hmem, hsame⟩
  · obtain ⟨source, hmem, hsame⟩ := (h.isFilling_concepts_buildFrom index).known file
      (hbuilt.concepts.contains_of_contributes file signature hkind hcontributes)
    exact ⟨source, List.mem_append_left _ hmem, hsame⟩

end ReadsCleanly

end Contents

namespace Index

variable {index : Index} {contents : Contents}

/-! ### Following the files -/

theorem applyAll_append (index : Index) (contents : Contents) (changes more : List Change) :
    index.applyAll contents (changes ++ more) =
      (index.applyAll contents changes).applyAll contents more :=
  List.foldl_append

/-- A change that can be prepared is put into the index before the others. -/
theorem applyAll_cons {change : Change} {update : Update} (changes : List Change)
    (h : change.prepare contents index.dictionary = .ok update) :
    index.applyAll contents (change :: changes) = (index.commit update).applyAll contents changes := by
  rw [applyAll, List.foldl_cons, apply, h]
  rfl

/-- Something is known from a path. -/
def Knows (index : Index) (path : Path) : Prop :=
  index.cache.specifications.contains path = true ∨ index.cache.concepts.contains path = true

/-- What is known after a path was removed was known before, from another path. -/
theorem exists_update_of_remove (h : index.Stands) (contents : Contents) (removed : Path) :
    ∃ update, (Change.remove removed).prepare contents index.dictionary = .ok update ∧
      ∀ path, (index.commit update).Knows path →
        index.Knows path ∧ removed.location ≠ path.location := by
  have hspecs := h.isSound.specifications.sourceKind_eq
  have hconcepts := h.isSound.concepts.sourceKind_eq
  cases hkind : removed.sourceKind with
  | specification =>
    refine ⟨.removeSpecification removed, by simp only [Change.prepare, hkind], ?_⟩
    rintro path (hspec | hconcept)
    · obtain ⟨hother, hknown⟩ := PathMap.contains_erase.mp hspec
      exact ⟨Or.inl hknown, hother⟩
    · refine ⟨Or.inr hconcept, Cache.location_ne_of_sourceKind hkind ?_⟩
      rw [hconcepts path hconcept]
      decide
  | concepts =>
    refine ⟨.removeConcepts removed, by simp only [Change.prepare, hkind], ?_⟩
    intro path hpath
    have hstores : (index.commit (.removeConcepts removed)).cache.specifications =
          index.cache.specifications ∧
        (index.commit (.removeConcepts removed)).cache.concepts =
          index.cache.concepts.erase removed := by
      simp only [commit]
      split
      · exact ⟨specifications_refreshConcepts _, concepts_refreshConcepts _⟩
      · exact ⟨rfl, rfl⟩
    rw [Knows, hstores.1, hstores.2] at hpath
    rcases hpath with hspec | hconcept
    · refine ⟨Or.inl hspec, Cache.location_ne_of_sourceKind hkind ?_⟩
      rw [hspecs path hspec]
      decide
    · obtain ⟨hother, hknown⟩ := PathMap.contains_erase.mp hconcept
      exact ⟨Or.inr hknown, hother⟩
  | other =>
    refine ⟨.nothing, by simp only [Change.prepare, hkind], ?_⟩
    intro path hpath
    refine ⟨hpath, Cache.location_ne_of_sourceKind hkind ?_⟩
    rcases hpath with hspec | hconcept
    · rw [hspecs path hspec]
      decide
    · rw [hconcepts path hconcept]
      decide

/-- Assumes: an index that knows nothing but what is to be removed and what has a source. After the
removals it knows only what has a source. -/
theorem applyAll_removals (h : index.Stands) (contents : Contents) {removals sources : List Path}
    (hknown : ∀ path, index.Knows path →
      ∃ file ∈ removals ++ sources, file.location = path.location) :
    (index.applyAll contents (removals.map .remove)).Stands ∧
      ∀ path, (index.applyAll contents (removals.map .remove)).Knows path →
        ∃ file ∈ sources, file.location = path.location := by
  induction removals generalizing index with
  | nil => exact ⟨h, hknown⟩
  | cons removed removals ih =>
    obtain ⟨update, hprepare, hleft⟩ := exists_update_of_remove h contents removed
    rw [List.map_cons, applyAll_cons _ hprepare]
    refine ih (h.commit (Change.hasKinds_of_prepare hprepare)) fun path hpath ↦ ?_
    obtain ⟨hbefore, hother⟩ := hleft path hpath
    obtain ⟨file, hfile, hsame⟩ := hknown path hbefore
    rcases List.mem_cons.mp hfile with rfl | hfile
    · exact absurd hsame hother
    · exact ⟨file, hfile, hsame⟩

/-- Assumes: concept files in order that can all be parsed, some of which are still to be written. Writing
them fills the concepts and leaves the specifications as they are. -/
theorem applyAll_concepts (h : index.Stands) {sources rest : List Path}
    (hsources : Path.AreSources .concepts sources)
    (hread : ∀ file ∈ sources, ∃ concepts, contents.concepts file = .ok concepts)
    (hrest : rest ⊆ sources)
    (hfilling : index.cache.concepts.IsFilling sources contents.conceptsOf rest) :
    (index.applyAll contents (rest.map .write)).Stands ∧
      (index.applyAll contents (rest.map .write)).cache.concepts.IsFilling sources
        contents.conceptsOf [] ∧
      (index.applyAll contents (rest.map .write)).cache.specifications =
        index.cache.specifications := by
  induction rest generalizing index with
  | nil => exact ⟨h, hfilling, rfl⟩
  | cons file rest ih =>
    have hfile := hrest List.mem_cons_self
    have hkind := hsources.sourceKind_eq file hfile
    obtain ⟨concepts, hconcepts⟩ := hread file hfile
    have hstored : (index.commit (.replaceConcepts file concepts)).cache.concepts =
        index.cache.concepts.set file (contents.conceptsOf file) := by
      rw [Contents.conceptsOf, hconcepts]
      exact concepts_refreshConcepts _
    rw [List.map_cons, applyAll_cons _ (Change.prepare_write_concepts hkind hconcepts)]
    obtain ⟨hstands, hfilled, hkept⟩ := ih (h.replaceConcepts hkind concepts)
      (fun other hother ↦ hrest (List.mem_cons_of_mem file hother))
      (hstored ▸ hfilling.set hfile hsources.inOrder.nodup)
    exact ⟨hstands, hfilled, hkept.trans (specifications_refreshConcepts _)⟩

/-- Assumes: specification files in order that can all be expanded with the current dictionary, some of
which are still to be written. Writing them fills the specifications and leaves the concepts and the
dictionary as they are. -/
theorem applyAll_specifications (h : index.Stands) {sources rest : List Path}
    (hsources : Path.AreSources .specification sources)
    (hread : ∀ file ∈ sources, ∃ spec, contents.expanded index.dictionary file = .ok spec)
    (hrest : rest ⊆ sources)
    (hfilling : index.cache.specifications.IsFilling sources
      (contents.specificationsOf index.dictionary) rest) :
    (index.applyAll contents (rest.map .write)).Stands ∧
      (index.applyAll contents (rest.map .write)).cache.specifications.IsFilling sources
        (contents.specificationsOf index.dictionary) [] ∧
      (index.applyAll contents (rest.map .write)).cache.concepts = index.cache.concepts := by
  induction rest generalizing index with
  | nil => exact ⟨h, hfilling, rfl⟩
  | cons file rest ih =>
    have hfile := hrest List.mem_cons_self
    have hkind := hsources.sourceKind_eq file hfile
    obtain ⟨spec, hspec⟩ := hread file hfile
    have hspecFile := Contents.file_of_expanded hspec
    have hstored : (index.commit (.replaceSpecification spec)).cache.specifications =
        index.cache.specifications.set file
          (contents.specificationsOf index.dictionary file) := by
      rw [Contents.specificationsOf, hspec, ← hspecFile]
      rfl
    have hspecKind : spec.file.sourceKind = .specification := hspecFile ▸ hkind
    have hnext := hfilling.set hfile hsources.inOrder.nodup
    rw [← hstored] at hnext
    rw [List.map_cons, applyAll_cons _ (Change.prepare_write_specification hkind hspec)]
    exact ih (h.replaceSpecification hspecKind) hread
      (fun other hother ↦ hrest (List.mem_cons_of_mem file hother)) hnext

/-! ### The forms while writing -/

/-- Assumes: files that can be written one after another while an invariant holds, each of which leaves a
signature in the form of one file when it is that file, and otherwise when the signature was in that form
before. If at most one file contributes the signature all the time, then it is in the form of that file after
the writes. -/
theorem hasOwnForm_applyAll_writes {file : Path} {signature : String} {rest : List Path}
    (invariant : Index → Prop)
    (hstep : ∀ index, invariant index → ∀ written ∈ rest, ∃ update,
      (Change.write written).prepare contents index.dictionary = .ok update ∧
        invariant (index.commit update) ∧ (index.cache.catalogue.OnlyFrom file signature →
          (index.commit update).cache.catalogue.OnlyFrom file signature →
            written.location = file.location ∨ index.HasOwnForm file signature →
              (index.commit update).HasOwnForm file signature))
    (h : invariant index)
    (honly : ∀ earlier, earlier <+: rest.map Change.write →
      (index.applyAll contents earlier).cache.catalogue.OnlyFrom file signature)
    (hown : (∃ written ∈ rest, written.location = file.location) ∨ index.HasOwnForm file signature) :
    (index.applyAll contents (rest.map .write)).HasOwnForm file signature := by
  induction rest generalizing index with
  | nil => exact hown.resolve_left (by simp)
  | cons written rest ih =>
    obtain ⟨update, hprepare, hinvariant, hform⟩ := hstep index h written List.mem_cons_self
    have honlyNext : ∀ earlier, earlier <+: rest.map Change.write →
        ((index.commit update).applyAll contents earlier).cache.catalogue.OnlyFrom file signature := by
      intro earlier hearlier
      rw [← applyAll_cons earlier hprepare]
      exact honly _ (List.cons_prefix_cons.mpr ⟨rfl, hearlier⟩)
    rw [List.map_cons, applyAll_cons _ hprepare]
    refine ih (fun index h other hother ↦ hstep index h other (List.mem_cons_of_mem written hother))
      hinvariant honlyNext ?_
    by_cases hlater : ∃ other ∈ rest, other.location = file.location
    · exact Or.inl hlater
    · refine Or.inr (hform (honly [] List.nil_prefix) (honlyNext [] List.nil_prefix) ?_)
      rcases hown with ⟨other, hother, hsame⟩ | hown
      · rcases List.mem_cons.mp hother with rfl | hother
        · exact Or.inl hsame
        · exact absurd ⟨other, hother, hsame⟩ hlater
      · exact Or.inr hown

/-- Assumes: concept files that can all be parsed. After they were written, a signature that at most one file
contributes all the time is listed as that file has it, if this is one of the files or it was so before. -/
theorem hasOwnForm_applyAll_concepts (h : index.Stands) {file : Path} {signature : String}
    {rest : List Path} (hkinds : ∀ written ∈ rest, written.sourceKind = .concepts)
    (hread : ∀ written ∈ rest, ∃ concepts, contents.concepts written = .ok concepts)
    (honly : ∀ earlier, earlier <+: rest.map Change.write →
      (index.applyAll contents earlier).cache.catalogue.OnlyFrom file signature)
    (hown : (∃ written ∈ rest, written.location = file.location) ∨ index.HasOwnForm file signature) :
    (index.applyAll contents (rest.map .write)).HasOwnForm file signature := by
  refine hasOwnForm_applyAll_writes Stands (fun index h written hwritten ↦ ?_) h honly hown
  have hkind := hkinds written hwritten
  obtain ⟨concepts, hconcepts⟩ := hread written hwritten
  exact ⟨_, Change.prepare_write_concepts hkind hconcepts, h.replaceConcepts hkind concepts,
    HasOwnForm.replaceConcepts h.isSound hkind⟩

/-- Assumes: specification files that can all be expanded with the current dictionary. After they were
written, a signature that at most one file contributes all the time is listed as that file has it, if this is
one of the files or it was so before. -/
theorem hasOwnForm_applyAll_specifications (h : index.Stands) {file : Path} {signature : String}
    {rest : List Path} (hkinds : ∀ written ∈ rest, written.sourceKind = .specification)
    (hread : ∀ written ∈ rest, ∃ spec, contents.expanded index.dictionary written = .ok spec)
    (honly : ∀ earlier, earlier <+: rest.map Change.write →
      (index.applyAll contents earlier).cache.catalogue.OnlyFrom file signature)
    (hown : (∃ written ∈ rest, written.location = file.location) ∨ index.HasOwnForm file signature) :
    (index.applyAll contents (rest.map .write)).HasOwnForm file signature := by
  refine hasOwnForm_applyAll_writes (fun other ↦ other.Stands ∧ other.dictionary = index.dictionary)
    (fun other hother written hwritten ↦ ?_) ⟨h, rfl⟩ honly hown
  have hkind := hkinds written hwritten
  obtain ⟨spec, hspec⟩ := hread written hwritten
  have hfile := Contents.file_of_expanded hspec
  subst hfile
  rw [← hother.2] at hspec
  exact ⟨_, Change.prepare_write_specification hkind hspec,
    ⟨hother.1.replaceSpecification hkind, hother.2⟩, HasOwnForm.replaceSpecification hother.1.isSound⟩

end Index

end LiveSpec
