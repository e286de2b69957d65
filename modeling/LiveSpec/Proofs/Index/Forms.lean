import LiveSpec.Proofs.Index.Changes

/-!
# The form in which a signature is listed

The catalogue lists a signature with the argument texts of one step. That is the first one that was
contributed (`Catalogue.form?_insert`), and it is kept as long as any file contributes the signature, even
when the file that it came from no longer does. So the form depends on the past of an index, except where one
file alone is concerned: writing the only file that contributes a signature lists it in the first form that
this file has for it (`Catalogue.form?_replaceFile_of_onlyFrom`), and writing other files leaves it there
(`Catalogue.form?_replaceFile_of_other`).

For an index this is said by `Index.HasOwnForm`, which every write preserves, and which the write of the file
itself establishes (`Index.HasOwnForm.replaceSpecification`, `Index.HasOwnForm.replaceConcepts`).
-/

set_option autoImplicit false

namespace LiveSpec

/-- The first form of a signature among some. -/
def firstForm? (forms : List StepSignature) (signature : String) : Option StepSignature :=
  forms.find? fun form ↦ form.value = signature

theorem firstForm?_append (forms more : List StepSignature) (signature : String) :
    firstForm? (forms ++ more) signature =
      (firstForm? forms signature).or (firstForm? more signature) :=
  List.find?_append

theorem firstForm?_eq_none {forms : List StepSignature} {signature : String}
    (h : signature ∉ forms.map StepSignature.value) : firstForm? forms signature = none := by
  refine List.find?_eq_none.mpr fun form hform hsame ↦ h ?_
  exact List.mem_map.mpr ⟨form, hform, of_decide_eq_true hsame⟩

/-- Assumes: lists that have no other first form of a signature than a given one, which one of them has. It is
the first one among all. -/
theorem firstForm?_flatMap {contributions : List (Path × List StepSignature)} {signature : String}
    {form : Option StepSignature}
    (hall : ∀ given ∈ contributions,
      firstForm? given.2 signature = none ∨ firstForm? given.2 signature = form)
    (hsome : ∃ given ∈ contributions, firstForm? given.2 signature = form) :
    firstForm? (contributions.flatMap Prod.snd) signature = form := by
  rw [firstForm?, List.find?_flatMap]
  cases hfound : contributions.findSome? fun given ↦ given.2.find? fun form ↦ form.value = signature with
  | none =>
    obtain ⟨given, hgiven, hform⟩ := hsome
    rw [← hform]
    exact (List.findSome?_eq_none_iff.mp hfound given hgiven).symm
  | some found =>
    obtain ⟨given, hgiven, hform⟩ := List.exists_of_findSome?_eq_some hfound
    have hother := (hall given hgiven).resolve_left fun hnone ↦ by
      rw [firstForm?, hform] at hnone
      cases hnone
    rw [← hother]
    exact hform.symm

namespace Catalogue

variable {catalogue : Catalogue} {file : Path} {signature : String}

/-- The form in which a signature is listed. -/
def form? (catalogue : Catalogue) (signature : String) : Option StepSignature :=
  (catalogue.entries[signature]?).map CatalogueEntry.signature

/-- Only one file contributes a signature, if any does. -/
def OnlyFrom (catalogue : Catalogue) (file : Path) (signature : String) : Prop :=
  ∀ other, catalogue.Contributes other signature → other.location = file.location

/-! ### The first form counts -/

theorem form?_insertOne {new : StepSignature} : (insertOne file catalogue new).form? signature =
    (catalogue.form? signature).or (firstForm? [new] signature) := by
  simp only [form?, insertOne, Std.ExtTreeMap.getElem?_insert, Std.compare_eq_iff_eq]
  by_cases hsame : new.value = signature
  · subst hsame
    cases hentry : catalogue.entries[new.value]? with
    | some entry => simp
    | none => simp [firstForm?]
  · simp [hsame, firstForm?]

/-- A signature that is listed keeps its form; another one is listed in the first form that is added. -/
theorem form?_insert {forms : List StepSignature} : (catalogue.insert file forms).form? signature =
    (catalogue.form? signature).or (firstForm? forms signature) := by
  induction forms generalizing catalogue with
  | nil => exact (Option.or_none).symm
  | cons new forms ih =>
    refine ih.trans ?_
    rw [form?_insertOne, Option.or_assoc, ← firstForm?_append]
    rfl

theorem form?_insertAll {contributions : List (Path × List StepSignature)} :
    (catalogue.insertAll contributions).form? signature =
      (catalogue.form? signature).or (firstForm? (contributions.flatMap Prod.snd) signature) := by
  induction contributions generalizing catalogue with
  | nil => exact (Option.or_none).symm
  | cons given contributions ih =>
    refine ih.trans ?_
    rw [form?_insert, Option.or_assoc, ← firstForm?_append]
    rfl

/-! ### What is kept -/

/-- Assumes: an orderly catalogue. Only one file contributes a signature exactly when all contributors that are
listed are spellings of it. -/
theorem IsOrderly.onlyFrom_iff (h : catalogue.IsOrderly) : catalogue.OnlyFrom file signature ↔
    ∀ contributor ∈ catalogue.contributors signature, contributor.location = file.location := by
  constructor
  · intro honly contributor hlisted
    exact honly contributor (h.exists_mem_contributors_iff.mp ⟨contributor, hlisted, rfl⟩)
  · intro hlisted other hother
    obtain ⟨contributor, hmem, hsame⟩ := h.exists_mem_contributors_iff.mpr hother
    exact hsame.symm.trans (hlisted contributor hmem)

theorem OnlyFrom.congr {other : Path} (h : catalogue.OnlyFrom file signature)
    (hsame : file.location = other.location) : catalogue.OnlyFrom other signature :=
  fun contributor hcontributes ↦ (h contributor hcontributes).trans hsame

/-- Assumes: an orderly catalogue. A signature that no file contributes is not listed. -/
theorem IsOrderly.form?_eq_none (h : catalogue.IsOrderly)
    (hnone : ∀ file, ¬ catalogue.Contributes file signature) : catalogue.form? signature = none := by
  have hunlisted : ¬ (catalogue.entries[signature]?).isSome = true := by
    rw [← h.exists_contributes_iff]
    exact fun ⟨file, hfile⟩ ↦ hnone file hfile
  rw [form?, Option.not_isSome_iff_eq_none.mp hunlisted]
  rfl

/-- Withdrawing a file that does not contribute a signature leaves its form as it is. -/
theorem form?_removeFile_of_not_contributes (h : catalogue.IsOrderly)
    (hnot : ¬ catalogue.Contributes file signature) :
    (catalogue.removeFile file).form? signature = catalogue.form? signature := by
  simp only [form?, removeFile, Std.ExtTreeMap.getElem?_filterMap']
  cases hentry : catalogue.entries[signature]? with
  | none => rfl
  | some entry =>
    have hunknown : entry.files.contains file = false := by
      rw [Bool.eq_false_iff]
      exact fun hfile ↦ hnot ⟨entry, hentry, hfile⟩
    have hkept : PathMap.erase entry.files file = entry.files :=
      PathMap.erase_of_not_contains hunknown
    have hwithout : CatalogueEntry.withoutFile? file entry = some entry := by
      refine withoutFile?_eq_some.mpr ⟨?_, ?_⟩
      · rw [hkept]
        exact h.isEmpty_eq signature entry hentry
      · rw [hkept]
    rw [Option.bind_some, hwithout]

/-- Assumes: a file contributes a signature after another was withdrawn. The form is as before. -/
theorem form?_removeFile_of_contributes {other : Path}
    (h : (catalogue.removeFile file).Contributes other signature) :
    (catalogue.removeFile file).form? signature = catalogue.form? signature := by
  obtain ⟨left, hleft, -⟩ := h
  have hentries := hleft
  simp only [removeFile, Std.ExtTreeMap.getElem?_filterMap'] at hentries
  obtain ⟨entry, hentry, hwithout⟩ := Option.bind_eq_some_iff.mp hentries
  obtain ⟨-, rfl⟩ := withoutFile?_eq_some.mp hwithout
  rw [form?, form?, hleft, hentry]
  rfl

/-- Assumes: an orderly catalogue in which at most one file contributes a signature. When that file is
replaced, the signature gets the first form that the file has for it. -/
theorem form?_replaceFile_of_onlyFrom (h : catalogue.IsOrderly)
    (honly : catalogue.OnlyFrom file signature) (forms : List StepSignature) :
    (catalogue.replaceFile file forms).form? signature = firstForm? forms signature := by
  have hgone : (catalogue.removeFile file).form? signature = none := by
    refine (h.removeFile file).form?_eq_none fun other hother ↦ ?_
    obtain ⟨hdifferent, hcontributes⟩ := contributes_removeFile.mp hother
    exact hdifferent (honly other hcontributes).symm
  rw [replaceFile, form?_insert, hgone, Option.none_or]

/-- Assumes: an orderly catalogue. Replacing a file that neither contributes a signature nor comes to do so
leaves the form as it is. -/
theorem form?_replaceFile_of_other (h : catalogue.IsOrderly)
    (hnot : ¬ catalogue.Contributes file signature) {forms : List StepSignature}
    (hforms : signature ∉ forms.map StepSignature.value) :
    (catalogue.replaceFile file forms).form? signature = catalogue.form? signature := by
  rw [replaceFile, form?_insert, firstForm?_eq_none hforms, Option.or_none,
    form?_removeFile_of_not_contributes h hnot]

/-- Assumes: an orderly catalogue in which at most one file contributes a signature, and that what replaces
the contributions of some file does not add another contributor. The signature gets the first form of that
one file when it is replaced, and keeps the form that it has when another file is replaced. -/
theorem form?_replaceFile (h : catalogue.IsOrderly) (honly : catalogue.OnlyFrom file signature)
    {replaced : Path} {forms : List StepSignature}
    (hforms : replaced.location = file.location ∨ signature ∉ forms.map StepSignature.value) :
    (catalogue.replaceFile replaced forms).form? signature =
      if replaced.location = file.location then firstForm? forms signature
      else catalogue.form? signature := by
  by_cases hsame : replaced.location = file.location
  · rw [if_pos hsame]
    exact form?_replaceFile_of_onlyFrom h (honly.congr hsame.symm) forms
  · rw [if_neg hsame]
    refine form?_replaceFile_of_other h ?_ (hforms.resolve_left hsame)
    exact fun hcontributes ↦ hsame (honly replaced hcontributes)

theorem OnlyFrom.replaceFile (honly : catalogue.OnlyFrom file signature) {replaced : Path}
    {forms : List StepSignature}
    (hforms : replaced.location = file.location ∨ signature ∉ forms.map StepSignature.value) :
    (catalogue.replaceFile replaced forms).OnlyFrom file signature := by
  intro other hother
  have hreplaced := contributes_replaceFile.mp hother
  split at hreplaced
  · rename_i hsame
    rw [← hsame]
    exact hforms.resolve_right fun hnot ↦ hnot hreplaced
  · exact honly other hreplaced

/-- A file whose replaced contributions have a signature that only one file contributes is that file. -/
theorem OnlyFrom.location_eq_or_not_mem {replaced : Path} {forms : List StepSignature}
    (h : (catalogue.replaceFile replaced forms).OnlyFrom file signature) :
    replaced.location = file.location ∨ signature ∉ forms.map StepSignature.value := by
  by_cases hmem : signature ∈ forms.map StepSignature.value
  · exact Or.inl (h replaced (contributes_replaceFile.mpr (by rwa [if_pos rfl])))
  · exact Or.inr hmem

/-- Assumes: an orderly catalogue. A form is listed exactly when it is the one of its signature. -/
theorem IsOrderly.mem_toList_iff (h : catalogue.IsOrderly) {listed : StepSignature} :
    listed ∈ catalogue.toList ↔ catalogue.form? listed.value = some listed := by
  rw [toList, values_eq_map_toList, form?, Option.map_eq_some_iff]
  simp only [List.mem_map, Prod.exists, Std.ExtTreeMap.mem_toList_iff_getElem?_eq_some]
  constructor
  · rintro ⟨entry, ⟨signature, other, hentry, rfl⟩, rfl⟩
    rw [h.value_eq signature other hentry]
    exact ⟨other, hentry, rfl⟩
  · rintro ⟨entry, hentry, rfl⟩
    exact ⟨entry, ⟨entry.signature.value, entry, hentry, rfl⟩, rfl⟩

/-- Assumes: an orderly catalogue. A signature that is listed is contributed by some file. -/
theorem IsOrderly.exists_contributes_of_mem_toList (h : catalogue.IsOrderly) {listed : StepSignature}
    (hlisted : listed ∈ catalogue.toList) : ∃ file, catalogue.Contributes file listed.value := by
  have hform := h.mem_toList_iff.mp hlisted
  obtain ⟨entry, hentry, -⟩ := Option.map_eq_some_iff.mp hform
  refine h.exists_contributes_iff.mpr ?_
  rw [hentry]
  rfl

end Catalogue

namespace Cache

variable {cache : Cache} {dictionary : Dictionary} {file : Path} {signature : String}

/-- Assumes: an orderly catalogue in which at most one file contributes a signature, and concept files of
which no other defines it. When their steps have been replaced, the signature has the first form that the
one file has for it in the dictionary, if that file is among them. -/
theorem form?_replaceAllSteps (h : cache.catalogue.IsOrderly)
    (honly : cache.catalogue.OnlyFrom file signature) {files : List Path}
    (hfiles : ∀ other ∈ files, other.location = file.location ∨
      signature ∉ (dictionary.fileSignatures other).map StepSignature.value) :
    (cache.replaceAllSteps dictionary files).catalogue.form? signature =
      if ∃ other ∈ files, other.location = file.location then
        firstForm? (dictionary.fileSignatures file) signature
      else cache.catalogue.form? signature := by
  induction files generalizing cache with
  | nil => rw [if_neg (by simp)]; rfl
  | cons replaced files ih =>
    have hreplaced := hfiles replaced List.mem_cons_self
    have hform := Catalogue.form?_replaceFile h honly hreplaced
    refine (ih (h.replaceFile replaced _) (honly.replaceFile hreplaced) fun other hother ↦
      hfiles other (List.mem_cons_of_mem replaced hother)).trans ?_
    by_cases hlater : ∃ other ∈ files, other.location = file.location
    · obtain ⟨other, hother, hsame⟩ := hlater
      rw [if_pos ⟨other, hother, hsame⟩,
        if_pos ⟨other, List.mem_cons_of_mem replaced hother, hsame⟩]
    · rw [if_neg hlater]
      refine hform.trans ?_
      by_cases hsame : replaced.location = file.location
      · rw [if_pos hsame, if_pos ⟨replaced, List.mem_cons_self, hsame⟩,
          Dictionary.fileSignatures_congr hsame]
      · have hnone : ¬ ∃ other ∈ replaced :: files, other.location = file.location := by
          rintro ⟨other, hother, hlocation⟩
          rcases List.mem_cons.mp hother with rfl | hother
          · exact hsame hlocation
          · exact hlater ⟨other, hother, hlocation⟩
        rw [if_neg hsame, if_neg hnone]

end Cache

namespace Index

variable {index : Index} {file : Path} {signature : String}

/-! ### The form of one file -/

/-- The signatures that an index has from a file. -/
def signaturesOf (index : Index) (file : Path) : List StepSignature :=
  match index.cache.specification? file with
  | some spec => spec.signatures
  | none =>
    if index.cache.concepts.contains file then index.dictionary.fileSignatures file else []

/-- A signature is listed as one file has it. -/
def HasOwnForm (index : Index) (file : Path) (signature : String) : Prop :=
  index.cache.catalogue.form? signature = firstForm? (index.signaturesOf file) signature

theorem signaturesOf_of_concepts (h : index.cache.IsSound)
    (hknown : index.cache.concepts.contains file = true) :
    index.signaturesOf file = index.dictionary.fileSignatures file := by
  have hnone : index.cache.specification? file = none := by
    rw [Option.eq_none_iff_forall_ne_some]
    intro spec hspec
    have hkind := h.specifications.sourceKind_eq_of_specification? hspec
    rw [h.concepts.sourceKind_eq file hknown] at hkind
    cases hkind
  rw [signaturesOf, hnone, if_pos hknown]

/-- Assumes: a sound index. Storing a specification lists a signature that only one file contributes as that
file has it, if this is the file of the specification or the signature was listed so before. -/
theorem HasOwnForm.replaceSpecification (h : index.cache.IsSound) {spec : Specification}
    (hbefore : index.cache.catalogue.OnlyFrom file signature)
    (hafter : (index.commit (.replaceSpecification spec)).cache.catalogue.OnlyFrom file signature)
    (hown : spec.file.location = file.location ∨ index.HasOwnForm file signature) :
    (index.commit (.replaceSpecification spec)).HasOwnForm file signature := by
  have hform := Catalogue.form?_replaceFile h.catalogue hbefore hafter.location_eq_or_not_mem
  refine hform.trans ?_
  rw [signaturesOf, commit, Cache.specification?_replaceSpecification]
  by_cases hsame : spec.file.location = file.location
  · rw [if_pos hsame, if_pos hsame]
  · rw [if_neg hsame, if_neg hsame]
    exact hown.resolve_left hsame

/-- Assumes: a sound index, and a signature that at most one file contributes before and after. Refreshing the
concepts lists it in the first form that this file has for it, if this is a concept file, and keeps the form
that it has otherwise. -/
theorem form?_refreshConcepts (index : Index) (h : index.cache.IsSound)
    (hbefore : index.cache.catalogue.OnlyFrom file signature)
    (hafter : index.refreshConcepts.cache.catalogue.OnlyFrom file signature) :
    index.refreshConcepts.cache.catalogue.form? signature =
      if index.cache.concepts.contains file = true then
        firstForm? (index.refreshConcepts.dictionary.fileSignatures file) signature
      else index.cache.catalogue.form? signature := by
  have hfiles : ∀ other ∈ index.cache.conceptFiles, other.location = file.location ∨
      signature ∉ (index.refreshConcepts.dictionary.fileSignatures other).map StepSignature.value := by
    intro other hother
    have hknown : index.refreshConcepts.cache.concepts.contains other = true := by
      rw [concepts_refreshConcepts]
      exact PathMap.contains_of_mem_paths h.concepts.isSpelled hother
    have hcontributes := (stands_refreshConcepts h).isSettled.upToDate other hknown signature
    by_cases hsignature :
        signature ∈ (index.refreshConcepts.dictionary.fileSignatures other).map StepSignature.value
    · exact Or.inl (hafter other (hcontributes.mpr hsignature))
    · exact Or.inr hsignature
  have hlisted : (∃ other ∈ index.cache.conceptFiles, other.location = file.location) ↔
      index.cache.concepts.contains file = true := PathMap.exists_mem_paths_iff h.concepts.isSpelled
  refine (Cache.form?_replaceAllSteps h.catalogue hbefore hfiles).trans ?_
  simp only [hlisted]

/-- Assumes: a sound index. Storing the concepts of a file lists a signature that only one file contributes
as that file has it, if this is the concept file or the signature was listed so before. -/
theorem HasOwnForm.replaceConcepts (h : index.cache.IsSound) {path : Path}
    (hkind : path.sourceKind = .concepts) {concepts : List Concept}
    (hbefore : index.cache.catalogue.OnlyFrom file signature)
    (hafter : (index.commit (.replaceConcepts path concepts)).cache.catalogue.OnlyFrom file signature)
    (hown : path.location = file.location ∨ index.HasOwnForm file signature) :
    (index.commit (.replaceConcepts path concepts)).HasOwnForm file signature := by
  have hstored := h.replaceConcepts hkind concepts
  refine (form?_refreshConcepts { index with cache := index.cache.replaceConcepts path concepts }
    hstored hbefore hafter).trans ?_
  have hconcepts : (index.commit (.replaceConcepts path concepts)).cache.concepts =
      index.cache.concepts.set path concepts := concepts_refreshConcepts _
  by_cases hknown : (index.cache.concepts.set path concepts).contains file = true
  · have hknownAfter : (index.commit (.replaceConcepts path concepts)).cache.concepts.contains file =
        true := by rw [hconcepts]; exact hknown
    refine (if_pos hknown).trans ?_
    have hstands : (index.commit (.replaceConcepts path concepts)).Stands :=
      stands_refreshConcepts hstored
    rw [signaturesOf_of_concepts hstands.isSound hknownAfter]
    rfl
  · have hother : ¬ path.location = file.location :=
      fun hsame ↦ hknown (PathMap.contains_set.mpr (Or.inl hsame))
    have hunknown : ¬ index.cache.concepts.contains file = true :=
      fun hold ↦ hknown (PathMap.contains_set.mpr (Or.inr hold))
    have hspecification : (index.commit (.replaceConcepts path concepts)).cache.specification? file =
        index.cache.specification? file := by
      rw [Cache.specification?, commit, specifications_refreshConcepts]
      rfl
    refine (if_neg hknown).trans ((hown.resolve_left hother).trans ?_)
    rw [signaturesOf, signaturesOf, hspecification, hconcepts, if_neg hunknown, if_neg hknown]

/-! ### The form after a build -/

section OfPlan

variable {directories : List Path} {plan : BuildPlan}
  (hspecs : Path.AreSources .specification (plan.specifications.map Specification.file))
  (hconcepts : Path.AreSources .concepts (plan.conceptFiles.map Prod.fst))

include hspecs hconcepts

theorem signaturesOf_ofPlan {given : Path × List StepSignature} (hgiven : given ∈ plan.contributions)
    (hsame : given.1.location = file.location) :
    (ofPlan directories plan).signaturesOf file = given.2 := by
  rcases List.mem_append.mp hgiven with hspec | hconcept
  · obtain ⟨spec, hmem, rfl⟩ := List.mem_map.mp hspec
    have hfound : (ofPlan directories plan).cache.specification? file = some spec := by
      rw [Cache.specification?,
        (find?_specifications_ofPlan hspecs).mpr ⟨spec, hmem, hsame, rfl⟩]
      rfl
    rw [signaturesOf, hfound]
  · obtain ⟨entry, hentry, rfl⟩ := List.mem_map.mp hconcept
    rw [signaturesOf_of_concepts (isSound_ofPlan hspecs hconcepts)
      ((contains_concepts_ofPlan hconcepts).mpr ⟨entry, hentry, hsame⟩)]
    exact (Dictionary.fileSignatures_congr hsame).symm

/-- A build lists a signature that one file alone contributes as that file has it. -/
theorem hasOwnForm_ofPlan
    (hcontributes : (ofPlan directories plan).cache.catalogue.Contributes file signature)
    (honly : (ofPlan directories plan).cache.catalogue.OnlyFrom file signature) :
    (ofPlan directories plan).HasOwnForm file signature := by
  have hgiven : ∃ given ∈ plan.contributions, given.1.location = file.location := by
    obtain ⟨given, hgiven, hsame, -⟩ := (Catalogue.contributes_insertAll.mp hcontributes).resolve_right
      (Catalogue.not_contributes_empty file signature)
    exact ⟨given, hgiven, hsame⟩
  refine Catalogue.form?_insertAll.trans ?_
  have hnone : Catalogue.empty.form? signature = none :=
    Catalogue.isOrderly_empty.form?_eq_none fun other ↦ Catalogue.not_contributes_empty other signature
  rw [hnone, Option.none_or]
  refine firstForm?_flatMap ?_ ?_
  · intro other hother
    by_cases hsame : other.1.location = file.location
    · exact Or.inr (by rw [signaturesOf_ofPlan hspecs hconcepts hother hsame])
    · refine Or.inl (firstForm?_eq_none fun hsignature ↦ hsame ?_)
      exact honly other.1 (Catalogue.contributes_insertAll.mpr (Or.inl ⟨other, hother, rfl, hsignature⟩))
  · obtain ⟨given, hgiven, hsame⟩ := hgiven
    exact ⟨given, hgiven, by rw [signaturesOf_ofPlan hspecs hconcepts hgiven hsame]⟩

end OfPlan

/-- Assumes: concept files and specification files in order. A build lists a signature that one file alone
contributes as that file has it. -/
theorem hasOwnForm_buildFrom {contents : Contents} {conceptFiles specificationFiles : List Path}
    (hconcepts : Path.AreSources .concepts conceptFiles)
    (hspecs : Path.AreSources .specification specificationFiles)
    (hcontributes : (index.buildFrom contents conceptFiles
      specificationFiles).1.cache.catalogue.Contributes file signature)
    (honly : (index.buildFrom contents conceptFiles
      specificationFiles).1.cache.catalogue.OnlyFrom file signature) :
    (index.buildFrom contents conceptFiles specificationFiles).1.HasOwnForm file signature := by
  rw [buildFrom_fst hspecs] at hcontributes honly ⊢
  exact hasOwnForm_ofPlan (BuildPlan.areSources_specifications contents conceptFiles hspecs)
    (BuildPlan.areSources_conceptFiles contents specificationFiles hconcepts) hcontributes honly

end Index

end LiveSpec
