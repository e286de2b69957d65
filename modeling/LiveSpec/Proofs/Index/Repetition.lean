import LiveSpec.Proofs.Grammar.Reading
import LiveSpec.Proofs.Index.Convergence
import LiveSpec.Proofs.Index.Provenance
import LiveSpec.Proofs.Index.TreeRemoval

/-!
# Working a change off again

A change that is worked off twice, with the same files, finds the second time what it has left behind the first
time. Forgetting what is gone and storing what is there change nothing then (`Index.Stands.commit_commit`).
Writing a concept file, however, refreshes the steps of all concept files, and they are replaced one after
another. A file that comes first can find a signature that another one still contributes, which is listed in the
form of the other, although the other one is about to give it up (`Index.exists_listed_otherwise_again_part`).
The second time such a signature is left to the one file (`Index.IsLeftTo`), and it is listed as this file has
it.

Nothing else can differ (`Index.applyAll_again`). The contributors of a signature are the same down to their
spellings, because these are the spellings of the replaced files (`Catalogue.spelling?_replaceFile`). A
signature with two contributors keeps its form, since one of them is there whenever the other is replaced
(`Cache.form?_replaceAllSteps_of_two`). With that the form that the second time gives depends on the files alone,
and the third time changes nothing.
-/

set_option autoImplicit false

namespace LiveSpec

namespace Catalogue

variable {catalogue first second : Catalogue} {file : Path} {signature : String}

/-! ### Spellings of contributors -/

/-- The spelling under which a path is listed among the contributors of a signature. -/
def spelling? (catalogue : Catalogue) (signature : String) (path : Path) : Option Path :=
  (catalogue.entries[signature]?).bind fun entry ↦ (PathMap.stored? entry.files path).map Prod.fst

theorem contributes_iff_isSome_spelling? {path : Path} :
    catalogue.Contributes path signature ↔ (catalogue.spelling? signature path).isSome = true := by
  unfold Contributes spelling? PathMap.contains
  cases catalogue.entries[signature]? <;> simp

/-- Adding a signature spells a contributor that was none before as it is given. -/
theorem spelling?_insertOne {new : StepSignature} {path : Path} :
    (insertOne file catalogue new).spelling? signature path =
      (catalogue.spelling? signature path).or
        (if file.location = path.location ∧ new.value = signature then some file else none) := by
  simp only [spelling?, insertOne, Std.ExtTreeMap.getElem?_insert, Std.compare_eq_iff_eq]
  by_cases hsame : new.value = signature
  · subst hsame
    simp only [PathSet.insert, PathMap.set, PathMap.stored?, if_true, Option.bind_some,
      Std.ExtTreeMap.getElem?_insert, Std.compare_eq_iff_eq, and_true]
    by_cases hlocation : file.location = path.location
    · rw [if_pos hlocation, if_pos hlocation, hlocation]
      cases catalogue.entries[new.value]? with
      | none => rfl
      | some entry =>
        rw [Option.bind_some]
        cases entry.files.entries[path.location]? <;> rfl
    · rw [if_neg hlocation, if_neg hlocation, Option.or_none]
      cases catalogue.entries[new.value]? <;> rfl
  · rw [if_neg hsame, if_neg fun hboth ↦ hsame hboth.2, Option.or_none]

theorem spelling?_insert {forms : List StepSignature} {path : Path} :
    (catalogue.insert file forms).spelling? signature path =
      (catalogue.spelling? signature path).or
        (if file.location = path.location ∧ signature ∈ forms.map StepSignature.value then some file
          else none) := by
  induction forms generalizing catalogue with
  | nil => simp [insert]
  | cons new forms ih =>
    refine ih.trans ?_
    rw [spelling?_insertOne, Option.or_assoc, List.map_cons]
    by_cases hlocation : file.location = path.location
    · by_cases hsame : signature = new.value
      · simp [hlocation, hsame]
      · simp [hlocation, hsame, Ne.symm hsame]
    · simp [hlocation]

theorem spelling?_removeFile {path : Path} :
    (catalogue.removeFile file).spelling? signature path =
      if file.location = path.location then none else catalogue.spelling? signature path := by
  simp only [spelling?, removeFile, Std.ExtTreeMap.getElem?_filterMap']
  cases catalogue.entries[signature]? with
  | none => simp
  | some entry =>
    have herase : PathMap.stored? (PathMap.erase entry.files file) path =
        if file.location = path.location then none else PathMap.stored? entry.files path := by
      simp only [PathMap.stored?, PathMap.erase, Std.ExtTreeMap.getElem?_erase, Std.compare_eq_iff_eq]
    simp only [Option.bind_some, CatalogueEntry.withoutFile?]
    split
    · next hempty =>
      have hnone : PathMap.stored? (PathMap.erase entry.files file) path = none := by
        rw [PathMap.stored?, Std.ExtTreeMap.isEmpty_iff.mp hempty, Std.ExtTreeMap.getElem?_empty]
      rw [hnone] at herase
      rw [Option.bind_none]
      split_ifs at herase ⊢
      · rfl
      · rw [← herase]
        rfl
    · rw [Option.bind_some, herase]
      split_ifs <;> rfl

/-- Replacing a file spells it as it is given where it contributes, and leaves the others as they are. -/
theorem spelling?_replaceFile {forms : List StepSignature} {path : Path} :
    (catalogue.replaceFile file forms).spelling? signature path =
      if file.location = path.location then
        if signature ∈ forms.map StepSignature.value then some file else none
      else catalogue.spelling? signature path := by
  rw [replaceFile, spelling?_insert, spelling?_removeFile]
  by_cases hlocation : file.location = path.location
  · simp [hlocation]
  · simp [hlocation]

/-! ### Equal catalogues -/

section Ext

variable (hfirst : first.IsOrderly) (hsecond : second.IsOrderly)
  (hspelling : ∀ signature path, first.spelling? signature path = second.spelling? signature path)

include hfirst hsecond hspelling

/-- Assumes: two orderly catalogues that spell the contributors of every signature alike. They list the same
contributors. -/
theorem files_congr (signature : String) :
    (first.entries[signature]?).map CatalogueEntry.files =
      (second.entries[signature]?).map CatalogueEntry.files := by
  have hcontributes : ∀ file signature,
      first.Contributes file signature ↔ second.Contributes file signature := by
    intro file signature
    rw [contributes_iff_isSome_spelling?, contributes_iff_isSome_spelling?, hspelling]
  have hsome := isSome_getElem?_congr hfirst hsecond hcontributes signature
  have hpaths := hspelling signature
  unfold spelling? at hpaths
  cases hone : first.entries[signature]? with
  | none =>
    rw [hone] at hsome
    rw [Option.isNone_iff_eq_none.mp (Option.isSome_eq_false_iff.mp hsome.symm)]
  | some entry =>
    rw [hone] at hsome hpaths
    obtain ⟨other, hother⟩ := Option.isSome_iff_exists.mp hsome.symm
    rw [hother] at hpaths
    rw [hother]
    exact congrArg some (PathSet.eq_of_stored?_eq (hfirst.isSpelled signature entry hone)
      (hsecond.isSpelled signature other hother) hpaths)

theorem contributors_congr (signature : String) :
    first.contributors signature = second.contributors signature := by
  have hfiles := files_congr hfirst hsecond hspelling signature
  unfold contributors
  cases hone : first.entries[signature]? with
  | none =>
    rw [hone] at hfiles
    rw [Option.map_eq_none_iff.mp hfiles.symm]
  | some entry =>
    rw [hone] at hfiles
    obtain ⟨other, hother, hsame⟩ := Option.map_eq_some_iff.mp hfiles.symm
    rw [hother]
    exact congrArg PathMap.paths hsame.symm

/-- Assumes: two orderly catalogues that spell the contributors of every signature alike and list it in the same
form. They are the same. -/
theorem eq_of_spelling?_eq (hform : ∀ signature, first.form? signature = second.form? signature) :
    first = second := by
  have hentries : first.entries = second.entries := by
    refine Std.ExtTreeMap.ext_getElem? fun signature ↦ ?_
    have hfiles := files_congr hfirst hsecond hspelling signature
    have hforms := hform signature
    unfold form? at hforms
    cases hone : first.entries[signature]? with
    | none =>
      rw [hone] at hfiles
      exact (Option.map_eq_none_iff.mp hfiles.symm).symm
    | some entry =>
      rw [hone] at hfiles hforms
      obtain ⟨other, hother, hsame⟩ := Option.map_eq_some_iff.mp hfiles.symm
      rw [hother] at hforms ⊢
      obtain ⟨signature, files⟩ := entry
      obtain ⟨otherSignature, otherFiles⟩ := other
      obtain rfl : signature = otherSignature := Option.some.inj hforms
      obtain rfl : otherFiles = files := hsame
      rfl
  cases first
  cases second
  exact congrArg mk hentries

end Ext

/-! ### The same again -/

theorem exists_of_not_onlyFrom (h : ¬ catalogue.OnlyFrom file signature) :
    ∃ other, catalogue.Contributes other signature ∧ other.location ≠ file.location := by
  unfold OnlyFrom at h
  push Not at h
  exact h

/-- Assumes: another file contributes a signature. Replacing a file leaves its form as it is. -/
theorem form?_replaceFile_of_contributes {other : Path} (h : catalogue.Contributes other signature)
    (hother : other.location ≠ file.location) (forms : List StepSignature) :
    (catalogue.replaceFile file forms).form? signature = catalogue.form? signature := by
  have hleft : (catalogue.removeFile file).Contributes other signature :=
    contributes_removeFile.mpr ⟨hother.symm, h⟩
  obtain ⟨entry, hentry, -⟩ := h
  rw [replaceFile, form?_insert, form?_removeFile_of_contributes hleft, form?, hentry]
  rfl

/-- Assumes: an orderly catalogue. Replacing a file again changes nothing. -/
theorem IsOrderly.replaceFile_replaceFile (h : catalogue.IsOrderly) (file : Path)
    (forms : List StepSignature) :
    (catalogue.replaceFile file forms).replaceFile file forms = catalogue.replaceFile file forms := by
  have hreplaced := h.replaceFile file forms
  refine eq_of_spelling?_eq (hreplaced.replaceFile file forms) hreplaced (fun signature path ↦ ?_)
    fun signature ↦ ?_
  · rw [spelling?_replaceFile]
    split
    · next hsame => rw [spelling?_replaceFile, if_pos hsame]
    · rfl
  · by_cases honly : (catalogue.replaceFile file forms).OnlyFrom file signature
    · have hbefore : catalogue.OnlyFrom file signature := by
        intro other hother
        by_contra hdifferent
        refine hdifferent (honly other (contributes_replaceFile.mpr ?_))
        rwa [if_neg (Ne.symm hdifferent)]
      rw [form?_replaceFile_of_onlyFrom hreplaced honly, form?_replaceFile_of_onlyFrom h hbefore]
    · obtain ⟨other, hother, hdifferent⟩ := exists_of_not_onlyFrom honly
      exact form?_replaceFile_of_contributes hother hdifferent forms

/-- Assumes: an orderly catalogue to which a file contributes nothing. Withdrawing it changes nothing. -/
theorem IsOrderly.removeFile_eq_self (h : catalogue.IsOrderly)
    (hnone : ∀ signature, ¬ catalogue.Contributes file signature) : catalogue.removeFile file = catalogue := by
  refine eq_of_spelling?_eq (h.removeFile file) h (fun signature path ↦ ?_) fun signature ↦
    form?_removeFile_of_not_contributes h (hnone signature)
  rw [spelling?_removeFile]
  split
  · next hsame =>
    have hunknown := hnone signature
    rw [Contributes.congr hsame, contributes_iff_isSome_spelling?, Option.not_isSome_iff_eq_none] at hunknown
    exact hunknown.symm
  · rfl

end Catalogue

/-! ### Replacing the steps of concept files again -/

namespace Cache

variable {cache other : Cache} {dictionary : Dictionary} {files : List Path} {signature : String}

theorem spelling?_replaceAllSteps_of_other {path : Path}
    (h : ∀ file ∈ files, file.location ≠ path.location) :
    (cache.replaceAllSteps dictionary files).catalogue.spelling? signature path =
      cache.catalogue.spelling? signature path := by
  induction files generalizing cache with
  | nil => rfl
  | cons file files ih =>
    refine (ih fun later hlater ↦ h later (List.mem_cons_of_mem file hlater)).trans ?_
    exact Catalogue.spelling?_replaceFile.trans (if_neg (h file List.mem_cons_self))

/-- Assumes: two caches that spell all contributors alike apart from some files. When the steps of these files
have been replaced, they spell all contributors alike. -/
theorem spelling?_replaceAllSteps_congr
    (h : ∀ path, (∀ file ∈ files, file.location ≠ path.location) →
      cache.catalogue.spelling? signature path = other.catalogue.spelling? signature path) (path : Path) :
    (cache.replaceAllSteps dictionary files).catalogue.spelling? signature path =
      (other.replaceAllSteps dictionary files).catalogue.spelling? signature path := by
  induction files generalizing cache other with
  | nil => exact h path (by simp)
  | cons file files ih =>
    refine ih fun path hlater ↦ ?_
    refine Catalogue.spelling?_replaceFile.trans (Eq.trans ?_ Catalogue.spelling?_replaceFile.symm)
    by_cases hsame : file.location = path.location
    · rw [if_pos hsame, if_pos hsame]
    · rw [if_neg hsame, if_neg hsame]
      exact h path (List.forall_mem_cons.mpr ⟨hsame, hlater⟩)

/-- Replacing the steps of the same files again spells all contributors as before. -/
theorem spelling?_replaceAllSteps_again (path : Path) :
    ((cache.replaceAllSteps dictionary files).replaceAllSteps dictionary files).catalogue.spelling?
        signature path =
      (cache.replaceAllSteps dictionary files).catalogue.spelling? signature path :=
  spelling?_replaceAllSteps_congr (fun _ hother ↦ spelling?_replaceAllSteps_of_other hother) path

theorem contributes_replaceSteps_of_isUpToDate {file path : Path} (h : cache.IsUpToDate dictionary file) :
    (cache.replaceSteps file (dictionary.fileSignatures file)).catalogue.Contributes path signature ↔
      cache.catalogue.Contributes path signature := by
  refine Catalogue.contributes_replaceFile.trans ?_
  split
  · next hsame => rw [← h signature, Catalogue.Contributes.congr hsame]
  · rfl

/-- Assumes: files that are up to date, and two files that contribute a signature. When the steps of the former
have been replaced, the signature has the form that it had. -/
theorem form?_replaceAllSteps_of_two (h : ∀ file ∈ files, cache.IsUpToDate dictionary file)
    {one two : Path} (hone : cache.catalogue.Contributes one signature)
    (htwo : cache.catalogue.Contributes two signature) (hdifferent : one.location ≠ two.location) :
    (cache.replaceAllSteps dictionary files).catalogue.form? signature =
      cache.catalogue.form? signature := by
  induction files generalizing cache with
  | nil => rfl
  | cons file files ih =>
    have hfile := h file List.mem_cons_self
    have hsame := @contributes_replaceSteps_of_isUpToDate cache dictionary
    have hkept : (cache.replaceSteps file (dictionary.fileSignatures file)).catalogue.form? signature =
        cache.catalogue.form? signature := by
      by_cases hthis : one.location = file.location
      · exact Catalogue.form?_replaceFile_of_contributes htwo
          (fun hboth ↦ hdifferent (hthis.trans hboth.symm)) _
      · exact Catalogue.form?_replaceFile_of_contributes hone hthis _
    refine (ih (fun later hlater signature ↦ ?_) ((hsame hfile).mpr hone) ((hsame hfile).mpr htwo)).trans
      hkept
    rw [hsame hfile]
    exact h later (List.mem_cons_of_mem file hlater) signature

end Cache

namespace Index

variable {index : Index} {file path : Path} {signature : String}

/-! ### Refreshing again -/

/-- A concept file is the only file that contributes a signature. -/
structure IsLeftTo (index : Index) (file : Path) (signature : String) : Prop where
  isKnown : index.cache.concepts.contains file = true
  contributes : index.cache.catalogue.Contributes file signature
  onlyFrom : index.cache.catalogue.OnlyFrom file signature

/-- A settled index refreshes its concepts with the dictionary that it has. -/
theorem IsSettled.cache_refreshConcepts (h : index.IsSettled) : index.refreshConcepts.cache =
    index.cache.replaceAllSteps index.dictionary index.cache.conceptFiles := by
  rw [h.dictionary_eq]
  rfl

theorem IsSettled.dictionary_refreshConcepts (h : index.IsSettled) :
    index.refreshConcepts.dictionary = index.dictionary := h.dictionary_eq.symm

theorem Stands.contributes_refreshConcepts (h : index.Stands) :
    index.refreshConcepts.cache.catalogue.Contributes path signature ↔
      index.cache.catalogue.Contributes path signature :=
  contributes_congr (stands_refreshConcepts h.isSound) h
    (fun _ ↦ by rw [concepts_refreshConcepts]) (fun _ ↦ by rw [specifications_refreshConcepts]) path
    signature

theorem Stands.onlyFrom_refreshConcepts (h : index.Stands) :
    index.refreshConcepts.cache.catalogue.OnlyFrom file signature ↔
      index.cache.catalogue.OnlyFrom file signature :=
  forall_congr' fun _ ↦ imp_congr_left h.contributes_refreshConcepts

/-- Assumes: a sound index. Refreshing its concepts a second time spells all contributors as the first time
did. -/
theorem spelling?_refreshConcepts_again (h : index.cache.IsSound) (signature : String) (path : Path) :
    index.refreshConcepts.refreshConcepts.cache.catalogue.spelling? signature path =
      index.refreshConcepts.cache.catalogue.spelling? signature path := by
  rw [(stands_refreshConcepts h).isSettled.cache_refreshConcepts, Cache.conceptFiles,
    concepts_refreshConcepts]
  exact Cache.spelling?_replaceAllSteps_again path

/-- Refreshing the concepts of a settled index lists a signature that is left to a concept file as this file has
it. -/
theorem Stands.form?_of_isLeftTo (h : index.Stands) (hleft : index.IsLeftTo file signature) :
    index.refreshConcepts.cache.catalogue.form? signature =
      firstForm? (index.dictionary.fileSignatures file) signature := by
  rw [form?_refreshConcepts index h.isSound hleft.onlyFrom
    (h.onlyFrom_refreshConcepts.mpr hleft.onlyFrom), if_pos hleft.isKnown,
    h.isSettled.dictionary_refreshConcepts]

/-- It lists every other signature as before. -/
theorem Stands.form?_of_not_isLeftTo (h : index.Stands)
    (hnot : ∀ file, ¬ index.IsLeftTo file signature) :
    index.refreshConcepts.cache.catalogue.form? signature = index.cache.catalogue.form? signature := by
  by_cases hsome : ∃ one, index.cache.catalogue.Contributes one signature
  · obtain ⟨one, hone⟩ := hsome
    by_cases honly : index.cache.catalogue.OnlyFrom one signature
    · have hunknown : ¬ index.cache.concepts.contains one = true :=
        fun hknown ↦ hnot one ⟨hknown, hone, honly⟩
      rw [form?_refreshConcepts index h.isSound honly (h.onlyFrom_refreshConcepts.mpr honly),
        if_neg hunknown]
    · obtain ⟨two, htwo, hdifferent⟩ := Catalogue.exists_of_not_onlyFrom honly
      rw [h.isSettled.cache_refreshConcepts]
      refine Cache.form?_replaceAllSteps_of_two (fun listed hlisted ↦ ?_) hone htwo hdifferent.symm
      exact h.isSettled.upToDate listed
        (PathMap.contains_of_mem_paths h.isSound.concepts.isSpelled hlisted)
  · rw [not_exists] at hsome
    have hafter := (stands_refreshConcepts h.isSound).isSound.catalogue.form?_eq_none fun one hone ↦
      hsome one (h.contributes_refreshConcepts.mp hone)
    rw [hafter, h.isSound.catalogue.form?_eq_none hsome]

theorem Stands.isLeftTo_refreshConcepts (h : index.Stands) :
    index.refreshConcepts.IsLeftTo file signature ↔ index.IsLeftTo file signature := by
  have hknown : index.refreshConcepts.cache.concepts.contains file =
      index.cache.concepts.contains file := by rw [concepts_refreshConcepts]
  constructor
  · rintro ⟨hisKnown, hcontributes, honly⟩
    exact ⟨hknown ▸ hisKnown, h.contributes_refreshConcepts.mp hcontributes,
      h.onlyFrom_refreshConcepts.mp honly⟩
  · rintro ⟨hisKnown, hcontributes, honly⟩
    exact ⟨hknown.trans hisKnown, h.contributes_refreshConcepts.mpr hcontributes,
      h.onlyFrom_refreshConcepts.mpr honly⟩

/-- Refreshing the concepts of a settled index changes nothing but the catalogue. -/
theorem IsSettled.refreshConcepts_eq (h : index.IsSettled)
    (hcatalogue : index.refreshConcepts.cache.catalogue = index.cache.catalogue) :
    index.refreshConcepts = index := by
  have hspecs := specifications_refreshConcepts index
  have hconcepts := concepts_refreshConcepts index
  have hdictionary := h.dictionary_refreshConcepts
  have hdirectories : index.refreshConcepts.directories = index.directories := rfl
  generalize index.refreshConcepts = refreshed at *
  obtain ⟨directories, dictionary, specs, concepts, catalogue⟩ := refreshed
  obtain ⟨_, _, _, _, _⟩ := index
  dsimp only at hspecs hconcepts hcatalogue hdictionary hdirectories
  rw [hspecs, hconcepts, hcatalogue, hdictionary, hdirectories]

/-- Assumes: a sound index. Refreshing its concepts a third time changes nothing. -/
theorem refreshConcepts_third (h : index.cache.IsSound) :
    index.refreshConcepts.refreshConcepts.refreshConcepts = index.refreshConcepts.refreshConcepts := by
  have hfirst := stands_refreshConcepts h
  have hsecond := stands_refreshConcepts hfirst.isSound
  have hthird := stands_refreshConcepts hsecond.isSound
  have hcatalogue : index.refreshConcepts.refreshConcepts.refreshConcepts.cache.catalogue =
      index.refreshConcepts.refreshConcepts.cache.catalogue := by
    refine Catalogue.eq_of_spelling?_eq hthird.isSound.catalogue hsecond.isSound.catalogue
      (spelling?_refreshConcepts_again hfirst.isSound) fun signature ↦ ?_
    by_cases hleft : ∃ file, index.refreshConcepts.IsLeftTo file signature
    · obtain ⟨file, hleft⟩ := hleft
      rw [hfirst.form?_of_isLeftTo hleft,
        hsecond.form?_of_isLeftTo (hfirst.isLeftTo_refreshConcepts.mpr hleft),
        hfirst.isSettled.dictionary_refreshConcepts]
    · rw [not_exists] at hleft
      exact hsecond.form?_of_not_isLeftTo fun file ↦
        hfirst.isLeftTo_refreshConcepts.not.mpr (hleft file)
  exact hsecond.isSettled.refreshConcepts_eq hcatalogue

/-! ### Putting the same update into the index again -/

/-- Assumes: a sound cache that knows no specification of a path of that kind. Forgetting it changes nothing. -/
theorem removeSpecification_of_not_contains {cache : Cache} (h : cache.IsSound)
    (hkind : path.sourceKind = .specification) (hunknown : cache.specifications.contains path = false) :
    cache.removeSpecification path = cache := by
  have hnone : ∀ signature, ¬ cache.catalogue.Contributes path signature := by
    intro signature hcontributes
    obtain ⟨spec, hspec, -⟩ := (h.specifications.contributes_iff path signature hkind).mp hcontributes
    obtain ⟨specs, hstored, -⟩ := Option.bind_eq_some_iff.mp hspec
    rw [PathMap.contains_iff.mpr ⟨specs, hstored⟩] at hunknown
    cases hunknown
  rw [Cache.removeSpecification, PathMap.erase_of_not_contains hunknown,
    h.catalogue.removeFile_eq_self hnone]

/-- Assumes: a sound cache that does not know a concept file. Forgetting it changes nothing. -/
theorem removeConcepts_of_not_contains {cache : Cache} (h : cache.IsSound)
    (hkind : path.sourceKind = .concepts) (hunknown : cache.concepts.contains path = false) :
    cache.removeConcepts path = cache := by
  have hnone : ∀ signature, ¬ cache.catalogue.Contributes path signature := by
    intro signature hcontributes
    have hknown := h.concepts.contains_of_contributes path signature (by rw [hkind]; decide) hcontributes
    rw [hknown] at hunknown
    cases hunknown
  rw [Cache.removeConcepts, PathMap.erase_of_not_contains hunknown, h.catalogue.removeFile_eq_self hnone]

theorem contains_concepts_commit_removeConcepts (index : Index) (path : Path) :
    (index.commit (.removeConcepts path)).cache.concepts.contains path = false := by
  simp only [commit]
  split
  · rw [concepts_refreshConcepts]
    exact PathMap.contains_erase_self _ path
  · exact PathMap.contains_erase_self _ path

/-- Assumes: a sound index that knows nothing beneath a directory. Forgetting it changes nothing. -/
theorem commit_removeTree_of_isClearOf {directory : Path} (h : index.cache.IsSound)
    (hclear : index.IsClearOf directory) : index.commit (.removeTree directory) = index := by
  have hspecs : index.cache.specificationsBeneath directory = [] := by
    refine List.filter_eq_nil_iff.mpr fun listed hlisted hbeneath ↦ ?_
    exact hclear listed hbeneath
      (.inl (PathMap.contains_of_mem_paths h.specifications.isSpelled hlisted))
  have hconcepts : index.cache.conceptFilesBeneath directory = [] := by
    refine List.filter_eq_nil_iff.mpr fun listed hlisted hbeneath ↦ ?_
    exact hclear listed hbeneath (.inr (PathMap.contains_of_mem_paths h.concepts.isSpelled hlisted))
  have hleft : index.removeSpecificationsBeneath directory = index := by
    rw [removeSpecificationsBeneath, hspecs, List.foldl_nil]
  rw [commit, hleft, removeConceptsBeneath, hconcepts]

/-- Storing concepts that are stored already only refreshes the concepts. -/
theorem commit_replaceConcepts_of_find? {concepts : List Concept}
    (h : index.cache.concepts.find? path = some concepts) :
    index.commit (.replaceConcepts path concepts) = index.refreshConcepts := by
  rw [commit, Cache.replaceConcepts, PathMap.set_of_find? h]

theorem find?_commit_replaceConcepts (index : Index) (path : Path) (concepts : List Concept) :
    (index.commit (.replaceConcepts path concepts)).cache.concepts.find? path = some concepts := by
  rw [commit, concepts_refreshConcepts]
  exact PathMap.find?_set_self _ path concepts

/-- Assumes: a sound and settled index, and an update on paths of the right kind that stores no concepts. When it
is put into the index a second time, it changes nothing. -/
theorem Stands.commit_commit (h : index.Stands) {update : Update} (hkinds : update.HasKinds)
    (hupdate : ∀ path concepts, update ≠ .replaceConcepts path concepts) :
    (index.commit update).commit update = index.commit update := by
  have hafter := (h.commit hkinds).isSound
  cases update with
  | nothing => rfl
  | replaceSpecification spec =>
    have hstored := PathMap.find?_set_self index.cache.specifications spec.file [spec]
    simp only [Index.commit, Cache.replaceSpecification, PathMap.set_of_find? hstored,
      h.isSound.catalogue.replaceFile_replaceFile]
  | removeSpecification path =>
    have hsame : (index.cache.removeSpecification path).removeSpecification path =
        index.cache.removeSpecification path :=
      removeSpecification_of_not_contains hafter hkinds (PathMap.contains_erase_self _ path)
    simp only [Index.commit, hsame]
  | replaceConcepts path concepts => exact absurd rfl (hupdate path concepts)
  | removeConcepts path =>
    have hunknown := contains_concepts_commit_removeConcepts index path
    generalize index.commit (.removeConcepts path) = removed at hunknown hafter
    rw [Index.commit, hunknown, removeConcepts_of_not_contains hafter hkinds hunknown]
    rfl
  | removeTree directory =>
    exact commit_removeTree_of_isClearOf hafter (isClearOf_removeTree h.isSound directory)

/-! ### The same change again -/

section Again

variable {contents : Contents} {change : Change} {update : Update}

/-- What has been prepared for a change is prepared for it again when it has been put into the index. -/
theorem prepare_again (h : change.prepare contents index.dictionary = .ok update) :
    change.prepare contents (index.commit update).dictionary = .ok update := by
  cases change with
  | write path =>
    simp only [Change.prepare] at h ⊢
    split at h
    · obtain ⟨spec, hspec, rfl⟩ := map_eq_ok_iff.mp h
      exact h
    · exact h
    · exact h
  | remove path => exact h
  | removeTree directory => exact h

/-- Only the write of a concept file that can be parsed stores concepts. -/
theorem eq_write_of_prepare {concepts : List Concept} {dictionary : Dictionary}
    (h : change.prepare contents dictionary = .ok (.replaceConcepts path concepts)) :
    change = .write path ∧ path.sourceKind = .concepts ∧ contents.concepts path = .ok concepts := by
  cases change with
  | write written =>
    simp only [Change.prepare] at h
    split at h
    · obtain ⟨spec, -, hspec⟩ := map_eq_ok_iff.mp h
      cases hspec
    · next hkind =>
      obtain ⟨found, hread, hfound⟩ := map_eq_ok_iff.mp h
      cases hfound
      exact ⟨rfl, hkind, mapError_eq_ok_iff.mp hread⟩
    · cases h
  | remove removed =>
    simp only [Change.prepare] at h
    split at h <;> cases h
  | removeTree directory => cases h

/-- Two indices answer alike, but for the form of a signature that is left to a concept file. -/
structure Repeats (once twice : Index) : Prop where
  allSpecifications_eq : twice.cache.allSpecifications = once.cache.allSpecifications
  conceptSummaries_eq : twice.cache.conceptSummaries = once.cache.conceptSummaries
  dictionary_eq : twice.dictionary = once.dictionary
  signatures_eq : twice.cache.steps.map StepSignature.value = once.cache.steps.map StepSignature.value
  contributors_eq : ∀ signature, twice.cache.contributors signature = once.cache.contributors signature
  form?_eq : ∀ signature, (∀ file, ¬ once.IsLeftTo file signature) →
    twice.cache.catalogue.form? signature = once.cache.catalogue.form? signature

theorem Repeats.refl (index : Index) : Repeats index index :=
  ⟨rfl, rfl, rfl, rfl, fun _ ↦ rfl, fun _ _ ↦ rfl⟩

/-- Assumes: a sound index. Refreshing its concepts twice repeats refreshing them once. -/
theorem repeats_refreshConcepts (h : index.cache.IsSound) :
    Repeats index.refreshConcepts index.refreshConcepts.refreshConcepts := by
  have hfirst := stands_refreshConcepts h
  have hsecond := stands_refreshConcepts hfirst.isSound
  have hlike := hsecond.answersLike hfirst (fun _ ↦ by rw [concepts_refreshConcepts])
    fun _ ↦ by rw [specifications_refreshConcepts]
  refine ⟨hlike.allSpecifications_eq, hlike.conceptSummaries_eq, hlike.dictionary_eq,
    hlike.signatures_eq, fun signature ↦ ?_, fun signature ↦ hfirst.form?_of_not_isLeftTo⟩
  exact Catalogue.contributors_congr hsecond.isSound.catalogue hfirst.isSound.catalogue
    (spelling?_refreshConcepts_again h) signature

/-- Assumes: a sound and settled index, and a concept file. Storing its concepts a second time lists what is left to
a concept file as this file has it and leaves the other answers as they are. A third time changes nothing. -/
theorem Stands.repeats_replaceConcepts (h : index.Stands) (hkind : path.sourceKind = .concepts)
    (concepts : List Concept) {once twice : Index}
    (honce : index.commit (.replaceConcepts path concepts) = once)
    (htwice : once.commit (.replaceConcepts path concepts) = twice) :
    Repeats once twice ∧
      (∀ file signature, once.IsLeftTo file signature → twice.cache.catalogue.form? signature =
        firstForm? (once.dictionary.fileSignatures file) signature) ∧
      twice.commit (.replaceConcepts path concepts) = twice := by
  have hsound := h.isSound.replaceConcepts hkind concepts
  have hstands : once.Stands := honce ▸ h.replaceConcepts hkind concepts
  have hstored : once.cache.concepts.find? path = some concepts :=
    honce ▸ find?_commit_replaceConcepts index path concepts
  have hrefreshed : once.refreshConcepts = twice :=
    (commit_replaceConcepts_of_find? hstored).symm.trans htwice
  have hagain : twice.cache.concepts.find? path = some concepts := by
    rw [← hrefreshed, concepts_refreshConcepts]
    exact hstored
  rw [commit_replaceConcepts_of_find? hagain, ← hrefreshed, ← honce]
  refine ⟨repeats_refreshConcepts hsound, fun file signature hleft ↦ ?_, refreshConcepts_third hsound⟩
  rw [honce] at hleft ⊢
  exact hstands.form?_of_isLeftTo hleft

/-- Assumes: an index that can be reached. Working a change off again leaves every answer as it is, but for the
form in which a signature is listed that is left to a concept file. That form changes only where a concept
file is written, and then it becomes the first one that the file has for the signature. Once more changes
nothing. -/
theorem applyAll_again (h : index.IsReachable) (contents : Contents) (change : Change) :
    Repeats (index.applyAll contents [change]) (index.applyAll contents [change, change]) ∧
      (index.applyAll contents [change, change] = index.applyAll contents [change] ∨
        ∃ path concepts, change = .write path ∧ path.sourceKind = .concepts ∧
          contents.concepts path = .ok concepts ∧
          ∀ file signature, (index.applyAll contents [change]).IsLeftTo file signature →
            (index.applyAll contents [change, change]).cache.catalogue.form? signature =
              firstForm? ((index.applyAll contents [change]).dictionary.fileSignatures file) signature) ∧
      index.applyAll contents [change, change, change] = index.applyAll contents [change, change] := by
  cases hprepared : change.prepare contents index.dictionary with
  | error error =>
    have hfailed : ∀ changes, index.applyAll contents (change :: changes) =
        index.applyAll contents changes := by
      intro changes
      rw [applyAll, List.foldl_cons, apply, hprepared]
      rfl
    have hnone : index.applyAll contents [] = index := rfl
    rw [hfailed [change, change], hfailed [change], hfailed [], hnone]
    exact ⟨.refl index, .inl rfl, rfl⟩
  | ok update =>
    have hstands := h.stands
    have hkinds := Change.hasKinds_of_prepare hprepared
    have hsecond := prepare_again hprepared
    have honce : index.applyAll contents [change] = index.commit update :=
      applyAll_cons [] hprepared
    have htwice : index.applyAll contents [change, change] = (index.commit update).commit update :=
      (applyAll_cons [change] hprepared).trans (applyAll_cons [] hsecond)
    have hthrice : index.applyAll contents [change, change, change] =
        ((index.commit update).commit update).commit update :=
      (applyAll_cons [change, change] hprepared).trans
        ((applyAll_cons [change] hsecond).trans (applyAll_cons [] (prepare_again hsecond)))
    rw [honce, htwice, hthrice]
    by_cases hupdate : ∃ path concepts, update = .replaceConcepts path concepts
    · obtain ⟨path, concepts, rfl⟩ := hupdate
      obtain ⟨hchange, hkind, hread⟩ := eq_write_of_prepare hprepared
      obtain ⟨hrepeats, hform, hthird⟩ := hstands.repeats_replaceConcepts hkind concepts rfl rfl
      exact ⟨hrepeats, .inr ⟨path, concepts, hchange, hkind, hread, hform⟩, hthird⟩
    · rw [not_exists] at hupdate
      have hsame := hstands.commit_commit hkinds fun path concepts heq ↦ hupdate path ⟨concepts, heq⟩
      rw [hsame, hsame]
      exact ⟨.refl _, .inl rfl, rfl⟩

end Again

/-- An index that knows one concept file. -/
def partIndex : Index :=
  (new [⟨"specs"⟩]).applyAll (fun _ ↦ .ok "# Part <y>\n* Say <y>\n") [.write ⟨"specs/b.cpt"⟩]

/-- A second concept file comes before the first one. It invokes a step that the first one has, and defines the
concept of the first one otherwise. -/
def partContents : Contents := fun path ↦
  if path = ⟨"specs/a.cpt"⟩ then .ok "# Greet <x>\n* Say <x>\n# Part <y>\n* Leave\n"
  else .ok "# Part <y>\n* Say <y>\n"

/-- The second concept file is written three times. It alone contributes the shared step after the first time, and
it still does. -/
theorem applyAll_again_part :
    partIndex.IsReachable ∧
      (partIndex.applyAll partContents [.write ⟨"specs/a.cpt"⟩]).cache.contributors "Say \x7b\x7d" =
        [⟨"specs/a.cpt"⟩] ∧
      (partIndex.applyAll partContents [.write ⟨"specs/a.cpt"⟩, .write ⟨"specs/a.cpt"⟩]).cache.contributors
        "Say \x7b\x7d" = [⟨"specs/a.cpt"⟩] ∧
      partIndex.applyAll partContents
          [.write ⟨"specs/a.cpt"⟩, .write ⟨"specs/a.cpt"⟩, .write ⟨"specs/a.cpt"⟩] =
        partIndex.applyAll partContents [.write ⟨"specs/a.cpt"⟩, .write ⟨"specs/a.cpt"⟩] := by
  have hreachable : partIndex.IsReachable := (IsReachable.start (.new [⟨"specs"⟩])).applyAll _ _
  have honce : (partIndex.applyAll partContents [.write ⟨"specs/a.cpt"⟩]).cache.contributors
      "Say \x7b\x7d" = [⟨"specs/a.cpt"⟩] := by decide +kernel
  obtain ⟨hrepeats, -, hthird⟩ := applyAll_again hreachable partContents (.write ⟨"specs/a.cpt"⟩)
  exact ⟨hreachable, honce, (hrepeats.contributors_eq _).trans honce, hthird⟩

/-- Writing a concept file again, with the same content, can change what is listed. When the second concept file is
written, its step is added while the first file still contributes the same step, so the argument of the first
file is kept. The first file is replaced after that and does not contribute the step any more, since its concept
is now a duplicate. When the second file is written again it is the only contributor, and its own argument is
listed. -/
theorem exists_listed_otherwise_again_part :
    partIndex.IsReachable ∧
      (partIndex.applyAll partContents [.write ⟨"specs/a.cpt"⟩]).cache.steps =
        [⟨"Leave", "Leave", []⟩, ⟨"Say \x7b\x7d", "Say <y>", ["y"]⟩] ∧
      (partIndex.applyAll partContents
          [.write ⟨"specs/a.cpt"⟩, .write ⟨"specs/a.cpt"⟩]).cache.steps =
        [⟨"Leave", "Leave", []⟩, ⟨"Say \x7b\x7d", "Say <x>", ["x"]⟩] := by
  refine ⟨(IsReachable.start (.new [⟨"specs"⟩])).applyAll _ _, ?_, ?_⟩
  · decide +kernel
  · decide +kernel

end Index

end LiveSpec
