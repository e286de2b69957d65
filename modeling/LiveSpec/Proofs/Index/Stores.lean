import LiveSpec.Proofs.Index.Listing
import LiveSpec.Proofs.Index.Repetition

/-!
# The stores determine the answers

An index that can be reached is determined by its two stores, what is known of the specifications and what
is known of the concepts, but for the forms in which signatures are listed
(`Index.IsReachable.sameButForms`). The dictionary and the contributions follow from them, because such
an index is sound and settled. The contributors are the same down to their spellings: a specification is
listed as its own file is spelled and a concept file as the store of the concepts spells it, and every
change keeps it so (`Cache.SpellsContributors`, `Index.spellsContributors_commit`).

What an update does to either store is given by itself (`Index.specifications_commit`,
`Index.concepts_commit`). With that every change also keeps that all concepts have been read from their
files (`Index.IsReachable.conceptsAreRead`).
-/

set_option autoImplicit false

namespace LiveSpec

/-! ### What updates do to the stores -/

/-- What an update does to the specifications. -/
def Update.onSpecifications : Update → PathMap (List Specification) → PathMap (List Specification)
  | replaceSpecification spec, map => map.set spec.file [spec]
  | removeSpecification path, map => map.erase path
  | removeTree directory, map => (map.pathsBeneath directory).foldl PathMap.erase map
  | nothing, map => map
  | replaceConcepts _ _, map => map
  | removeConcepts _, map => map

/-- What an update does to the concepts. -/
def Update.onConcepts : Update → PathMap (List Concept) → PathMap (List Concept)
  | replaceConcepts path concepts, map => map.set path concepts
  | removeConcepts path, map => map.erase path
  | removeTree directory, map => (map.pathsBeneath directory).foldl PathMap.erase map
  | nothing, map => map
  | replaceSpecification _, map => map
  | removeSpecification _, map => map

namespace Index

theorem specifications_commit (index : Index) (update : Update) :
    (index.commit update).cache.specifications = update.onSpecifications index.cache.specifications := by
  cases update with
  | nothing => rfl
  | replaceSpecification spec => rfl
  | removeSpecification path => rfl
  | replaceConcepts path concepts => exact specifications_refreshConcepts _
  | removeConcepts path =>
    simp only [commit]
    split
    · exact specifications_refreshConcepts _
    · rfl
  | removeTree directory => exact specifications_removeTree index directory

theorem concepts_commit (index : Index) (update : Update) :
    (index.commit update).cache.concepts = update.onConcepts index.cache.concepts := by
  cases update with
  | nothing => rfl
  | replaceSpecification spec => rfl
  | removeSpecification path => rfl
  | replaceConcepts path concepts => exact concepts_refreshConcepts _
  | removeConcepts path =>
    simp only [commit]
    split
    · exact concepts_refreshConcepts _
    · rfl
  | removeTree directory => exact concepts_removeTree index directory

end Index

/-! ### How contributors are spelled -/

namespace Catalogue

variable {catalogue : Catalogue} {signature : String} {path spelled : Path}

theorem spelling?_empty (signature : String) (path : Path) :
    Catalogue.empty.spelling? signature path = none := by
  have hnone : Catalogue.empty.entries[signature]? = none := Std.ExtTreeMap.getElem?_empty
  rw [spelling?, hnone]
  rfl

/-- A contributor of a catalogue that was filled with contributions is spelled as in one of these. -/
theorem exists_of_spelling?_insertAll {contributions : List (Path × List StepSignature)}
    (h : (catalogue.insertAll contributions).spelling? signature path = some spelled) :
    catalogue.spelling? signature path = some spelled ∨
      ∃ signatures, (spelled, signatures) ∈ contributions ∧ spelled.location = path.location := by
  induction contributions generalizing catalogue with
  | nil => exact .inl h
  | cons given contributions ih =>
    rcases ih h with hfirst | ⟨signatures, hmem, hlocation⟩
    · rw [spelling?_insert, Option.or_eq_some_iff] at hfirst
      rcases hfirst with hbefore | ⟨-, hgiven⟩
      · exact .inl hbefore
      · split_ifs at hgiven with hboth
        cases hgiven
        exact .inr ⟨given.2, List.mem_cons_self, hboth.1⟩
    · exact .inr ⟨signatures, List.mem_cons_of_mem given hmem, hlocation⟩

end Catalogue

namespace Cache

variable {cache before after : Cache} {path other : Path}

/-- The spelling under which a known file contributes: that of its specification, or the one under which
its concepts are stored. -/
def spelledAs? (cache : Cache) (path : Path) : Option Path :=
  if path.sourceKind = .specification then (cache.specification? path).map Specification.file
  else (cache.concepts.stored? path).map Prod.fst

/-- Every contributor is spelled as its file is. -/
def SpellsContributors (cache : Cache) : Prop :=
  ∀ signature path spelled, cache.catalogue.spelling? signature path = some spelled →
    cache.spelledAs? path = some spelled

theorem spelledAs?_replaceSpecification {spec : Specification}
    (hkind : spec.file.sourceKind = .specification) (signatures : List StepSignature) :
    (cache.replaceSpecification spec signatures).spelledAs? path =
      if spec.file.location = path.location then some spec.file else cache.spelledAs? path := by
  unfold spelledAs?
  rw [specification?_replaceSpecification]
  by_cases hsame : spec.file.location = path.location
  · rw [if_pos hsame, if_pos hsame, if_pos (Path.sourceKind_congr hsame ▸ hkind)]
    rfl
  · rw [if_neg hsame, if_neg hsame]
    rfl

theorem spelledAs?_removeSpecification (hother : path.location ≠ other.location) :
    (cache.removeSpecification path).spelledAs? other = cache.spelledAs? other := by
  unfold spelledAs?
  rw [specification?_removeSpecification, if_neg hother]
  rfl

/-- Storing concepts leaves the spelling of every known file as it is. -/
theorem spelledAs?_replaceConcepts {spelled : Path} (hspelled : cache.spelledAs? other = some spelled)
    (concepts : List Concept) :
    (cache.replaceConcepts path concepts).spelledAs? other = some spelled := by
  unfold spelledAs? at hspelled ⊢
  split_ifs at hspelled ⊢ with hkind
  · exact hspelled
  · rw [replaceConcepts, PathMap.stored?_set]
    split_ifs with hsame
    · rw [PathMap.stored?, hsame, ← PathMap.stored?, hspelled]
      rfl
    · exact hspelled

theorem spelledAs?_removeConcepts (hother : path.location ≠ other.location) :
    (cache.removeConcepts path).spelledAs? other = cache.spelledAs? other := by
  unfold spelledAs?
  rw [removeConcepts, PathMap.stored?_erase, if_neg hother]
  rfl

namespace SpellsContributors

theorem empty : Cache.empty.SpellsContributors := by
  intro signature path spelled h
  cases (Catalogue.spelling?_empty signature path).symm.trans h

/-- Assumes: a cache with the contributors of another one, apart from one file, and with the same spellings
of these. Forgetting what the file contributes keeps every contributor spelled as its file is. -/
theorem of_removeFile (h : before.SpellsContributors) {removed : Path}
    (hcatalogue : after.catalogue = before.catalogue.removeFile removed)
    (hother : ∀ path, removed.location ≠ path.location → after.spelledAs? path = before.spelledAs? path) :
    after.SpellsContributors := by
  intro signature path spelled hspelled
  rw [hcatalogue, Catalogue.spelling?_removeFile] at hspelled
  split_ifs at hspelled with hsame
  rw [hother path hsame]
  exact h signature path spelled hspelled

/-- Assumes: a cache with the contributors of another one, apart from one file, which is spelled as it is
given. Replacing what the file contributes keeps every contributor spelled as its file is. -/
theorem of_replaceFile (h : before.SpellsContributors) {replaced : Path} {signatures : List StepSignature}
    (hcatalogue : after.catalogue = before.catalogue.replaceFile replaced signatures)
    (hsame : ∀ path, replaced.location = path.location → after.spelledAs? path = some replaced)
    (hother : ∀ path, replaced.location ≠ path.location → after.spelledAs? path = before.spelledAs? path) :
    after.SpellsContributors := by
  intro signature path spelled hspelled
  rw [hcatalogue, Catalogue.spelling?_replaceFile] at hspelled
  split_ifs at hspelled with hlocation hcontributes
  · cases hspelled
    exact hsame path hlocation
  · rw [hother path hlocation]
    exact h signature path spelled hspelled

theorem replaceSpecification (h : cache.SpellsContributors) {spec : Specification}
    (hkind : spec.file.sourceKind = .specification) (signatures : List StepSignature) :
    (cache.replaceSpecification spec signatures).SpellsContributors := by
  refine h.of_replaceFile rfl ?_ ?_
  · intro path hsame
    rw [spelledAs?_replaceSpecification hkind, if_pos hsame]
  · intro path hother
    rw [spelledAs?_replaceSpecification hkind, if_neg hother]

theorem removeSpecification (h : cache.SpellsContributors) (path : Path) :
    (cache.removeSpecification path).SpellsContributors :=
  h.of_removeFile rfl fun _ hother ↦ spelledAs?_removeSpecification hother

theorem replaceConcepts (h : cache.SpellsContributors) (path : Path) (concepts : List Concept) :
    (cache.replaceConcepts path concepts).SpellsContributors :=
  fun signature other spelled hspelled ↦
    spelledAs?_replaceConcepts (h signature other spelled hspelled) concepts

theorem removeConcepts (h : cache.SpellsContributors) (path : Path) :
    (cache.removeConcepts path).SpellsContributors :=
  h.of_removeFile rfl fun _ hother ↦ spelledAs?_removeConcepts hother

/-- Assumes: files that are spelled as they are given. -/
theorem replaceAllSteps (h : cache.SpellsContributors) {files : List Path} (dictionary : Dictionary)
    (hfiles : ∀ file ∈ files, ∀ path : Path, file.location = path.location →
      cache.spelledAs? path = some file) :
    (cache.replaceAllSteps dictionary files).SpellsContributors := by
  induction files generalizing cache with
  | nil => exact h
  | cons file files ih =>
    have hfile : (cache.replaceSteps file (dictionary.fileSignatures file)).SpellsContributors :=
      h.of_replaceFile rfl (hfiles file List.mem_cons_self) fun _ _ ↦ rfl
    exact ih hfile fun later hlater ↦ hfiles later (List.mem_cons_of_mem file hlater)

theorem removeSpecifications (h : cache.SpellsContributors) (paths : List Path) :
    (paths.foldl Cache.removeSpecification cache).SpellsContributors := by
  induction paths generalizing cache with
  | nil => exact h
  | cons path paths ih => exact ih (h.removeSpecification path)

theorem removeAllConcepts (h : cache.SpellsContributors) (paths : List Path) :
    (paths.foldl Cache.removeConcepts cache).SpellsContributors := by
  induction paths generalizing cache with
  | nil => exact h
  | cons path paths ih => exact ih (h.removeConcepts path)

end SpellsContributors

/-- Assumes: concept files that agree with the catalogue. Each is spelled as it is listed. -/
theorem ConceptsAgree.spelledAs?_eq (h : cache.ConceptsAgree) {file : Path}
    (hfile : file ∈ cache.conceptFiles) (hsame : file.location = path.location) :
    cache.spelledAs? path = some file := by
  obtain ⟨location, concepts, hstored⟩ := PathMap.mem_paths.mp hfile
  have hlocation : file.location = location := h.isSpelled location (file, concepts) hstored
  have hknown := PathMap.contains_of_mem_paths h.isSpelled hfile
  have hkind : path.sourceKind ≠ .specification := by
    rw [← Path.sourceKind_congr hsame, h.sourceKind_eq file hknown]
    decide
  rw [spelledAs?, if_neg hkind, PathMap.stored?, ← hsame, hlocation, hstored]
  rfl

end Cache

/-! ### Every index that can be reached -/

namespace Index

variable {index first second : Index}

/-- Assumes: a sound cache. Refreshing the concepts keeps every contributor spelled as its file is. -/
theorem spellsContributors_refreshConcepts (hsound : index.cache.IsSound)
    (h : index.cache.SpellsContributors) : index.refreshConcepts.cache.SpellsContributors :=
  Cache.SpellsContributors.replaceAllSteps h index.rebuildDictionary.dictionary
    fun _ hfile _ hsame ↦ hsound.concepts.spelledAs?_eq hfile hsame

theorem spellsContributors_removeTree (hstands : index.Stands) (h : index.cache.SpellsContributors)
    (directory : Path) : (index.commit (.removeTree directory)).cache.SpellsContributors := by
  have hspecs : (index.removeSpecificationsBeneath directory).cache.SpellsContributors :=
    h.removeSpecifications _
  have hleft := hstands.removeSpecificationsBeneath directory
  show ((index.removeSpecificationsBeneath directory).removeConceptsBeneath
    directory).cache.SpellsContributors
  generalize index.removeSpecificationsBeneath directory = index at hspecs hleft
  unfold removeConceptsBeneath
  split
  · exact hspecs
  · refine spellsContributors_refreshConcepts ?_ (hspecs.removeAllConcepts _)
    exact isSound_removeConcepts hleft.isSound fun file hfile ↦
      hleft.sourceKind_of_mem_conceptFilesBeneath hfile

/-- Assumes: a sound and settled index, and an update on paths of the right kind. Every contributor stays
spelled as its file is. -/
theorem spellsContributors_commit (hstands : index.Stands) (h : index.cache.SpellsContributors)
    {update : Update} (hkinds : update.HasKinds) : (index.commit update).cache.SpellsContributors := by
  cases update with
  | nothing => exact h
  | replaceSpecification spec => exact h.replaceSpecification hkinds spec.signatures
  | removeSpecification path => exact h.removeSpecification path
  | replaceConcepts path concepts =>
    exact spellsContributors_refreshConcepts (hstands.isSound.replaceConcepts hkinds concepts)
      (h.replaceConcepts path concepts)
  | removeConcepts path =>
    simp only [commit]
    split
    · exact spellsContributors_refreshConcepts (hstands.isSound.removeConcepts hkinds)
        (h.removeConcepts path)
    · exact h.removeConcepts path
  | removeTree directory => exact spellsContributors_removeTree hstands h directory

/-- Assumes: specifications and concept files in order. A plan spells every contributor as its file is. -/
theorem spellsContributors_ofPlan {directories : List Path} {plan : BuildPlan}
    (hspecs : Path.AreSources .specification (plan.specifications.map Specification.file))
    (hconcepts : Path.AreSources .concepts (plan.conceptFiles.map Prod.fst)) :
    (ofPlan directories plan).cache.SpellsContributors := by
  intro signature path spelled hspelled
  rcases Catalogue.exists_of_spelling?_insertAll hspelled with hempty | ⟨signatures, hmem, hlocation⟩
  · cases (Catalogue.spelling?_empty signature path).symm.trans hempty
  · have hkind := Path.sourceKind_congr hlocation
    rcases List.mem_append.mp hmem with hgiven | hgiven
    · obtain ⟨spec, hspec, hgiven⟩ := List.mem_map.mp hgiven
      obtain ⟨rfl, -⟩ := Prod.mk.inj hgiven
      rw [hspecs.sourceKind_eq spec.file (List.mem_map_of_mem hspec)] at hkind
      rw [Cache.spelledAs?, if_pos hkind.symm, Cache.specification?,
        (find?_specifications_ofPlan hspecs).mpr ⟨spec, hspec, hlocation, rfl⟩]
      rfl
    · obtain ⟨entry, hentry, hgiven⟩ := List.mem_map.mp hgiven
      obtain ⟨rfl, -⟩ := Prod.mk.inj hgiven
      rw [hconcepts.sourceKind_eq entry.1 (List.mem_map_of_mem hentry)] at hkind
      have hstored := (PathMap.getElem?_setAll_empty hconcepts.inOrder).mpr ⟨hentry, hlocation⟩
      rw [Cache.spelledAs?, if_neg (by rw [← hkind]; decide)]
      exact congrArg (Option.map Prod.fst) hstored

theorem IsStart.spellsContributors (h : index.IsStart) : index.cache.SpellsContributors := by
  cases h with
  | new directories => exact Cache.SpellsContributors.empty
  | built earlier contents conceptDisk specificationDisk =>
    have hspecs := areSources_sourcesIn specificationDisk .specification earlier.directories
    rw [buildFrom_fst hspecs]
    exact spellsContributors_ofPlan (BuildPlan.areSources_specifications contents _ hspecs)
      (BuildPlan.areSources_conceptFiles contents _
        (areSources_sourcesIn conceptDisk .concepts earlier.directories))

theorem IsReachable.spellsContributors (h : index.IsReachable) : index.cache.SpellsContributors := by
  induction h with
  | start hstart => exact hstart.spellsContributors
  | apply hbefore contents change happlied ih =>
    obtain ⟨update, hprepared, rfl⟩ := map_eq_ok_iff.mp happlied
    exact spellsContributors_commit hbefore.stands ih (Change.hasKinds_of_prepare hprepared)

/-! ### Concepts that have been read -/

/-- Assumes: concepts that have been read from their files. They are still when what has been prepared for a
change, with whatever dictionary, is put into the index. -/
theorem conceptsAreRead_commit {contents : Contents} {dictionary : Dictionary} {change : Change}
    {update : Update} (h : index.cache.ConceptsAreRead)
    (hprepared : change.prepare contents dictionary = .ok update) :
    (index.commit update).cache.ConceptsAreRead := by
  intro path concepts hfound
  rw [concepts_commit] at hfound
  cases update with
  | nothing => exact h path concepts hfound
  | replaceSpecification spec => exact h path concepts hfound
  | removeSpecification removed => exact h path concepts hfound
  | replaceConcepts written new =>
    rw [Update.onConcepts, PathMap.find?_set] at hfound
    split_ifs at hfound with hsame
    · cases hfound
      obtain ⟨text, hparse⟩ := Contents.exists_parseAll (eq_write_of_prepare hprepared).2.2
      exact ⟨written, text, hsame, hparse⟩
    · exact h path concepts hfound
  | removeConcepts removed =>
    rw [Update.onConcepts, PathMap.find?_erase] at hfound
    split_ifs at hfound
    exact h path concepts hfound
  | removeTree directory =>
    rw [Update.onConcepts, PathMap.find?, PathMap.stored?, PathMap.getElem?_foldl_erase] at hfound
    split_ifs at hfound
    · cases hfound
    · exact h path concepts hfound

theorem IsReachable.conceptsAreRead (h : index.IsReachable) : index.cache.ConceptsAreRead := by
  induction h with
  | start hstart =>
    cases hstart with
    | new directories =>
      intro path concepts hfound
      change (∅ : PathMap (List Concept)).find? path = some concepts at hfound
      rw [PathMap.find?_empty] at hfound
      cases hfound
    | built earlier contents conceptDisk specificationDisk =>
      exact conceptsAreRead_buildFrom (areSources_sourcesIn conceptDisk .concepts earlier.directories)
        (areSources_sourcesIn specificationDisk .specification earlier.directories) earlier
  | apply _ contents change happlied ih =>
    obtain ⟨update, hprepared, rfl⟩ := map_eq_ok_iff.mp happlied
    exact conceptsAreRead_commit ih hprepared

/-! ### Equal stores -/

/-- Two indices are the same, but for the forms in which signatures are listed. -/
structure SameButForms (index other : Index) : Prop where
  specifications_eq : index.cache.specifications = other.cache.specifications
  concepts_eq : index.cache.concepts = other.cache.concepts
  allSpecifications_eq : index.cache.allSpecifications = other.cache.allSpecifications
  conceptSummaries_eq : index.cache.conceptSummaries = other.cache.conceptSummaries
  dictionary_eq : index.dictionary = other.dictionary
  signatures_eq :
    index.cache.steps.map StepSignature.value = other.cache.steps.map StepSignature.value
  contributors_eq : ∀ signature, index.cache.contributors signature = other.cache.contributors signature

/-- Assumes: two indices that can be reached, with the same specifications and the same concepts. They are
the same, but for the forms in which signatures are listed. -/
theorem IsReachable.sameButForms (hfirst : first.IsReachable) (hsecond : second.IsReachable)
    (hspecs : first.cache.specifications = second.cache.specifications)
    (hconcepts : first.cache.concepts = second.cache.concepts) : first.SameButForms second := by
  have hfoundSpecs : ∀ path,
      first.cache.specifications.find? path = second.cache.specifications.find? path :=
    fun path ↦ by rw [hspecs]
  have hfoundConcepts : ∀ path, first.cache.concepts.find? path = second.cache.concepts.find? path :=
    fun path ↦ by rw [hconcepts]
  have hlike := hfirst.stands.answersLike hsecond.stands hfoundConcepts hfoundSpecs
  have hcontributes := contributes_congr hfirst.stands hsecond.stands hfoundConcepts hfoundSpecs
  have hspelledAs : ∀ path, first.cache.spelledAs? path = second.cache.spelledAs? path := by
    intro path
    rw [Cache.spelledAs?, Cache.spelledAs?, Cache.specification?, Cache.specification?, hspecs, hconcepts]
  have hspelling : ∀ signature path, first.cache.catalogue.spelling? signature path =
      second.cache.catalogue.spelling? signature path := by
    intro signature path
    have hsome := hcontributes path signature
    rw [Catalogue.contributes_iff_isSome_spelling?, Catalogue.contributes_iff_isSome_spelling?] at hsome
    cases hone : first.cache.catalogue.spelling? signature path with
    | none =>
      rw [hone] at hsome
      exact (Option.not_isSome_iff_eq_none.mp (by simp [← hsome])).symm
    | some spelled =>
      rw [hone] at hsome
      obtain ⟨other, hother⟩ := Option.isSome_iff_exists.mp (hsome.mp rfl)
      have hfile := hfirst.spellsContributors signature path spelled hone
      rw [hspelledAs, hsecond.spellsContributors signature path other hother] at hfile
      rw [hother, hfile]
  exact ⟨hspecs, hconcepts, hlike.allSpecifications_eq, hlike.conceptSummaries_eq, hlike.dictionary_eq,
    hlike.signatures_eq, Catalogue.contributors_congr hfirst.stands.isSound.catalogue
      hsecond.stands.isSound.catalogue hspelling⟩

end Index

end LiveSpec
