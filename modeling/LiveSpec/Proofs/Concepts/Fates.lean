import LiveSpec.Proofs.Concepts.Marks
import LiveSpec.Proofs.Concepts.SimpleCycles
import LiveSpec.Proofs.Index.Accounting

/-!
# What becomes of every concept

A dictionary is built in three passes: definitions that come too late are dropped, what the cycle search records is
left out, and the bodies of the others are marked. An occurrence in the list of concepts therefore has one of three
fates (`Dictionary.HasFate`). It is a duplicate when an earlier occurrence has its signature, whatever becomes of that
one, and the report names the file of the earliest. Otherwise it is the first definition of its signature, and it is
either admitted, with the steps of its body marked by what is admitted (`Concept.IsMarkedBy`), or reported with a
cycle.

The fates of all occurrences, in order (`Dictionary.HaveFates`), make up the dictionary and the reports: every entry
and every report belongs to one occurrence (`Dictionary.accountsForEach_build`). Duplicates are reported in the order
of the list (`Dictionary.HaveFates.reports_define`). Entries and cycles are ordered by signature, and no two first
definitions share one (`Dictionary.HaveFates.pairwise_defined?`), so for them it is enough to compare members.
-/

set_option autoImplicit false

namespace LiveSpec

/-- What becomes of one occurrence in a list of concepts. -/
inductive Fate where
  /-- It is in the dictionary, with the steps of its body marked. -/
  | admitted (marked : Concept)
  /-- Its signature was defined before. -/
  | duplicate (signature : String) (file firstFile : Path)
  /-- It is left out because of a cycle. -/
  | cyclic (signature : String) (file : Path) (cycle : List String)

namespace Fate

/-- The concept that is admitted. -/
def admitted? : Fate → Option Concept
  | admitted marked => some marked
  | _ => none

/-- The report of what is not admitted. -/
def report? : Fate → Option ConceptError
  | admitted _ => none
  | duplicate signature file firstFile => some (.duplicate signature file firstFile)
  | cyclic signature file cycle => some (.cycle signature file cycle)

/-- The signature that an occurrence is the first definition of. -/
def defined? : Fate → Option String
  | admitted marked => some marked.signature
  | duplicate _ _ _ => none
  | cyclic signature _ _ => some signature

theorem eq_of_admitted? {fate : Fate} {marked : Concept} (h : fate.admitted? = some marked) :
    fate = admitted marked := by
  cases fate with
  | admitted found => rw [Option.some.inj h]
  | duplicate _ _ _ => cases h
  | cyclic _ _ _ => cases h

theorem defined?_of_cyclic? {fate : Fate} {signature : String}
    (h : fate.report?.bind ConceptError.cyclic? = some signature) : fate.defined? = some signature := by
  cases fate with
  | admitted _ => cases h
  | duplicate _ _ _ => cases h
  | cyclic _ _ _ => exact h

end Fate

/-- A concept is as it was given, but for the marks of the steps in its body: such a step is marked as an invocation
exactly when its signature is that of an admitted concept. -/
structure Concept.IsMarkedBy (dictionary : Dictionary) (given marked : Concept) : Prop where
  eq_of_body : marked = { given with root := { given.root with body := marked.body } }
  body : List.Forall₂ (fun step left ↦ left = { step with isConcept := left.isConcept } ∧
    (left.isConcept = true ↔ ∃ admitted ∈ dictionary.toList, admitted.signature = step.value))
    given.body marked.body

namespace Dictionary

variable {concepts earlier later rest : List Concept} {concept : Concept} {fate : Fate} {fates : List Fate}

/-- The fate of a concept that comes after some others in a list. -/
inductive HasFate (concepts earlier : List Concept) (concept : Concept) : Fate → Prop
  | admitted {marked : Concept} (hnew : ∀ other ∈ earlier, other.signature ≠ concept.signature)
    (hmarked : concept.IsMarkedBy (build concepts).1 marked)
    (hfound : (build concepts).1.search? concept.signature = some marked) :
    HasFate concepts earlier concept (.admitted marked)
  | duplicate {first : Concept} (hfirst : earlier.find? (·.signature = concept.signature) = some first) :
    HasFate concepts earlier concept (.duplicate concept.signature concept.file first.file)
  | cyclic {cycle : List String} (hnew : ∀ other ∈ earlier, other.signature ≠ concept.signature)
    (hnone : (build concepts).1.search? concept.signature = none)
    (hreported : .cycle concept.signature concept.file cycle ∈ (build concepts).2) :
    HasFate concepts earlier concept (.cyclic concept.signature concept.file cycle)

/-- The fates of the concepts that come after some others in a list. -/
inductive HaveFates (concepts : List Concept) : List Concept → List Concept → List Fate → Prop
  | nil (earlier : List Concept) : HaveFates concepts earlier [] []
  | cons {earlier rest : List Concept} {concept : Concept} {fate : Fate} {fates : List Fate}
    (hfate : HasFate concepts earlier concept fate)
    (hrest : HaveFates concepts (earlier ++ [concept]) rest fates) :
    HaveFates concepts earlier (concept :: rest) (fate :: fates)

/-! ### Entries -/

/-- An entry stands under its own signature. -/
theorem signature_of_search?_build {signature : String} {marked : Concept}
    (h : (build concepts).1.search? signature = some marked) : marked.signature = signature := by
  obtain ⟨definition, isAdmitted, -, hsignature, rfl⟩ := search?_build h
  exact hsignature

theorem exists_signature_eq_iff {signature : String} :
    (∃ admitted ∈ (build concepts).1.toList, admitted.signature = signature) ↔
      (build concepts).1.contains signature = true := by
  rw [contains_iff]
  constructor
  · rintro ⟨admitted, hadmitted, rfl⟩
    obtain ⟨signature, hfound⟩ := mem_toList_iff.mp hadmitted
    rw [signature_of_search?_build hfound]
    exact ⟨admitted, hfound⟩
  · rintro ⟨admitted, hfound⟩
    exact ⟨admitted, mem_toList_iff.mpr ⟨signature, hfound⟩, signature_of_search?_build hfound⟩

/-- The entries are listed by their signatures. -/
theorem map_signature_toList (concepts : List Concept) :
    (build concepts).1.toList.map Concept.signature = (build concepts).1.signatures := by
  rw [toList, Catalogue.values_eq_map_toList, List.map_map, signatures, ← Std.ExtTreeMap.map_fst_toList_eq_keys]
  refine List.map_congr_left fun entry hentry ↦ ?_
  have hfound : (build concepts).1.search? entry.1 = some entry.2 :=
    Std.ExtTreeMap.mem_toList_iff_getElem?_eq_some.mp hentry
  exact signature_of_search?_build hfound

theorem nodup_toList (concepts : List Concept) : (build concepts).1.toList.Nodup := by
  refine List.Nodup.of_map Concept.signature ?_
  rw [map_signature_toList]
  exact Std.ExtTreeMap.nodup_keys

/-- The entry of a first definition is this definition, marked. -/
theorem isMarkedBy_of_search?_build (hconcept : concepts.find? (·.signature = concept.signature) = some concept)
    {marked : Concept} (h : (build concepts).1.search? concept.signature = some marked) :
    concept.IsMarkedBy (build concepts).1 marked := by
  have hmarks : ∀ step ∈ marked.body, step.isConcept = (build concepts).1.contains step.value :=
    fun _ hstep ↦ isConcept_of_search?_build h hstep
  obtain ⟨definition, isAdmitted, hdefinition, -, rfl⟩ := search?_withoutCycles h
  change (firstDefinitions concepts).1[concept.signature]? = some definition at hdefinition
  rw [getElem?_firstDefinitions, hconcept] at hdefinition
  obtain rfl := Option.some.inj hdefinition
  refine ⟨rfl, ?_⟩
  rw [body_markInvocations, List.forall₂_map_right_iff, List.forall₂_same]
  intro step hstep
  refine ⟨rfl, ?_⟩
  rw [exists_signature_eq_iff, hmarks _ (List.mem_map_of_mem hstep)]

/-! ### Reports -/

/-- Assumes: reports of which no two name the same signature as being on a cycle. No report of a cycle is there
twice. -/
theorem nodup_filter_cyclic? {reports : List ConceptError} (h : (reports.filterMap ConceptError.cyclic?).Nodup) :
    (reports.filter fun error ↦ error.cyclic?.isSome).Nodup := by
  refine ((List.pairwise_filterMap.mp h).filter _).imp_of_mem fun {error other} herror _ hdifferent hsame ↦ ?_
  obtain ⟨signature, hsignature⟩ := Option.isSome_iff_exists.mp (List.mem_filter.mp herror).2
  exact hdifferent signature hsignature signature (hsame ▸ hsignature) rfl

/-- The reports that are not of cycles are the duplicates, in the order in which they were met. -/
theorem filter_duplicates_build (concepts : List Concept) :
    (build concepts).2.filter (fun error ↦ !error.cyclic?.isSome) = (firstDefinitions concepts).2 := by
  have hduplicates : (firstDefinitions concepts).2.filter (fun error ↦ !error.cyclic?.isSome) =
      (firstDefinitions concepts).2 :=
    List.filter_eq_self.mpr fun error herror ↦ by simp [cyclic?_of_mem_firstDefinitions herror]
  rw [reports_build, List.filter_append, hduplicates, List.append_right_eq_self]
  refine List.filter_eq_nil_iff.mpr fun error herror ↦ ?_
  obtain ⟨found, -, hfound⟩ := List.mem_filterMap.mp herror
  obtain ⟨concept, -, rfl⟩ := Option.map_eq_some_iff.mp hfound
  simp [ConceptError.cyclic?]

/-! ### Every occurrence has one fate -/

/-- The first definition of a signature comes after concepts that do not have it. -/
theorem exists_isNew_of_find? {signature : String}
    (h : concepts.find? (·.signature = signature) = some concept) :
    concept.signature = signature ∧ ∃ earlier later, concepts = earlier ++ concept :: later ∧
      ∀ other ∈ earlier, other.signature ≠ signature := by
  obtain ⟨hsame, earlier, later, hsplit, hnew⟩ := List.find?_eq_some_iff_append.mp h
  exact ⟨of_decide_eq_true hsame, earlier, later, hsplit, fun other hother ↦ by simpa using hnew other hother⟩

/-- A concept of which no earlier one has the signature is the first definition of it. -/
theorem find?_of_isNew (h : concepts = earlier ++ concept :: later)
    (hnew : ∀ other ∈ earlier, other.signature ≠ concept.signature) :
    concepts.find? (·.signature = concept.signature) = some concept := by
  have hnone : earlier.find? (·.signature = concept.signature) = none :=
    List.find?_eq_none.mpr fun other hother ↦ by simpa using hnew other hother
  rw [h, List.find?_append, hnone]
  simp

theorem exists_hasFate (h : concepts = earlier ++ concept :: later) :
    ∃ fate, HasFate concepts earlier concept fate := by
  cases hfirst : earlier.find? (·.signature = concept.signature) with
  | some first => exact ⟨_, .duplicate hfirst⟩
  | none =>
    have hnew : ∀ other ∈ earlier, other.signature ≠ concept.signature := by
      simpa using List.find?_eq_none.mp hfirst
    have hdefined := find?_of_isNew h hnew
    cases hfound : (build concepts).1.search? concept.signature with
    | some marked => exact ⟨_, .admitted hnew (isMarkedBy_of_search?_build hdefined hfound) hfound⟩
    | none =>
      obtain ⟨cycle, hreported⟩ := exists_cycle_mem_build hdefined hfound
      exact ⟨_, .cyclic hnew hfound hreported⟩

/-- A signature is reported with one cycle at most. -/
theorem cycle_eq_of_mem_build {signature : String} {file other : Path} {cycle found : List String}
    (hcycle : .cycle signature file cycle ∈ (build concepts).2)
    (hfound : .cycle signature other found ∈ (build concepts).2) : cycle = found :=
  Option.some.inj ((cycle_mem_build_iff.mp hcycle).1.symm.trans (cycle_mem_build_iff.mp hfound).1)

/-- No concept has the signature of one that is found before. -/
theorem not_isNew_of_find? {first : Concept} (hfirst : earlier.find? (·.signature = concept.signature) = some first) :
    ¬ ∀ other ∈ earlier, other.signature ≠ concept.signature :=
  fun hnew ↦ hnew first (List.mem_of_find?_eq_some hfirst) (by simpa using List.find?_some hfirst)

theorem HasFate.unique {other : Fate} (h : HasFate concepts earlier concept fate)
    (hother : HasFate concepts earlier concept other) : other = fate := by
  cases h with
  | admitted hnew _ hfound =>
    cases hother with
    | admitted _ _ hagain => rw [Option.some.inj (hagain.symm.trans hfound)]
    | duplicate hfirst => exact absurd hnew (not_isNew_of_find? hfirst)
    | cyclic _ hnone _ => cases hnone.symm.trans hfound
  | duplicate hfirst =>
    cases hother with
    | admitted hnew _ _ => exact absurd hnew (not_isNew_of_find? hfirst)
    | duplicate hagain => rw [Option.some.inj (hagain.symm.trans hfirst)]
    | cyclic hnew _ _ => exact absurd hnew (not_isNew_of_find? hfirst)
  | cyclic hnew hnone hreported =>
    cases hother with
    | admitted _ _ hfound => cases hnone.symm.trans hfound
    | duplicate hfirst => exact absurd hnew (not_isNew_of_find? hfirst)
    | cyclic _ _ hagain => rw [cycle_eq_of_mem_build hreported hagain]

/-- The signature that an occurrence is the first definition of is its own, and no earlier one has it. -/
theorem HasFate.signature_eq_of_defined? {signature : String} (h : HasFate concepts earlier concept fate)
    (hdefined : fate.defined? = some signature) :
    concept.signature = signature ∧ ∀ other ∈ earlier, other.signature ≠ signature := by
  cases h with
  | admitted hnew _ hfound =>
    have hsame : concept.signature = signature :=
      (signature_of_search?_build hfound).symm.trans (Option.some.inj hdefined)
    exact ⟨hsame, hsame ▸ hnew⟩
  | duplicate _ => cases hdefined
  | cyclic hnew _ _ =>
    have hsame : concept.signature = signature := Option.some.inj hdefined
    exact ⟨hsame, hsame ▸ hnew⟩

theorem exists_haveFates (h : concepts = earlier ++ rest) : ∃ fates, HaveFates concepts earlier rest fates := by
  induction rest generalizing earlier with
  | nil => exact ⟨[], .nil earlier⟩
  | cons concept rest ih =>
    obtain ⟨fate, hfate⟩ := exists_hasFate h
    have hsplit : concepts = (earlier ++ [concept]) ++ rest := by
      rw [h, List.append_assoc]
      rfl
    obtain ⟨fates, hfates⟩ := ih hsplit
    exact ⟨fate :: fates, .cons hfate hfates⟩

/-! ### All fates together -/

/-- What is defined so far is what is found first among the concepts so far. -/
theorem getElem?_define {soFar : Definitions × List ConceptError}
    (h : ∀ signature, soFar.1[signature]? = earlier.find? (·.signature = signature)) (signature : String) :
    (define soFar concept).1[signature]? = (earlier ++ [concept]).find? (·.signature = signature) := by
  rw [List.find?_append, List.find?_singleton, ← h signature, define]
  by_cases hsame : concept.signature = signature
  · subst hsame
    cases hfirst : soFar.1[concept.signature]? with
    | some first => simp [hfirst]
    | none => simp
  · cases soFar.1[concept.signature]? with
    | some first => simp [hsame]
    | none => simp [Std.ExtTreeMap.getElem?_insert, hsame]

namespace HaveFates

/-- Every fate is that of an occurrence. -/
theorem exists_of_mem (h : HaveFates concepts earlier rest fates) (hfate : fate ∈ fates) :
    ∃ before concept after, rest = before ++ concept :: after ∧
      HasFate concepts (earlier ++ before) concept fate := by
  induction h with
  | nil => exact absurd hfate List.not_mem_nil
  | @cons earlier rest concept first fates hfirst _ ih =>
    rcases List.mem_cons.mp hfate with rfl | hlater
    · exact ⟨[], concept, rest, rfl, by rwa [List.append_nil]⟩
    · obtain ⟨before, found, after, rfl, hfound⟩ := ih hlater
      exact ⟨concept :: before, found, after, rfl, by rwa [List.append_assoc] at hfound⟩

/-- Every occurrence has its fate among them. -/
theorem mem_of_hasFate (h : HaveFates concepts earlier rest fates) {before : List Concept}
    (hrest : rest = before ++ concept :: later) (hfate : HasFate concepts (earlier ++ before) concept fate) :
    fate ∈ fates := by
  induction h generalizing before with
  | nil => simp at hrest
  | @cons earlier rest other first fates hfirst _ ih =>
    cases before with
    | nil =>
      obtain ⟨rfl, rfl⟩ := List.cons.inj hrest
      rw [List.append_nil] at hfate
      rw [hfirst.unique hfate]
      exact List.mem_cons_self
    | cons head before =>
      obtain ⟨rfl, hlater⟩ := List.cons.inj hrest
      exact List.mem_cons_of_mem _ (ih hlater (by rwa [List.append_assoc]))

/-- No two occurrences are first definitions of the same signature. -/
theorem pairwise_defined? (h : HaveFates concepts earlier rest fates) :
    fates.Pairwise fun fate other ↦
      ∀ signature, fate.defined? = some signature → other.defined? ≠ some signature := by
  induction h with
  | nil => exact .nil
  | @cons earlier rest concept fate fates hfate hrest ih =>
    refine List.pairwise_cons.mpr ⟨fun other hother signature hdefined hagain ↦ ?_, ih⟩
    obtain ⟨before, found, after, -, hfound⟩ := hrest.exists_of_mem hother
    obtain ⟨-, hnew⟩ := hfound.signature_eq_of_defined? hagain
    exact hnew concept (by simp) (hfate.signature_eq_of_defined? hdefined).1

/-- The duplicates are reported in the order in which they come. -/
theorem reports_define (h : HaveFates concepts earlier rest fates) {soFar : Definitions × List ConceptError}
    (hsoFar : ∀ signature, soFar.1[signature]? = earlier.find? (·.signature = signature)) :
    (rest.foldl define soFar).2 =
      soFar.2 ++ (fates.filterMap Fate.report?).filter fun error ↦ !error.cyclic?.isSome := by
  induction h generalizing soFar with
  | nil => simp
  | @cons earlier rest concept fate fates hfate hrest ih =>
    rw [List.foldl_cons, ih (getElem?_define hsoFar), define, hsoFar concept.signature]
    cases hfate with
    | admitted hnew _ _ =>
      rw [List.find?_eq_none.mpr fun other hother ↦ by simpa using hnew other hother]
      simp [Fate.report?, List.filterMap_cons]
    | duplicate hfirst =>
      rw [hfirst]
      simp [Fate.report?, ConceptError.cyclic?]
    | cyclic hnew _ _ =>
      rw [List.find?_eq_none.mpr fun other hother ↦ by simpa using hnew other hother]
      simp [Fate.report?, ConceptError.cyclic?]

section All

variable (h : HaveFates concepts [] concepts fates)

include h

theorem mem_iff : fate ∈ fates ↔ ∃ earlier concept later, concepts = earlier ++ concept :: later ∧
    HasFate concepts earlier concept fate := by
  constructor
  · exact h.exists_of_mem
  · rintro ⟨earlier, concept, later, hsplit, hfate⟩
    exact h.mem_of_hasFate hsplit hfate

/-- Every concept of the dictionary is what one occurrence has come to. -/
theorem perm_toList : (fates.filterMap Fate.admitted?).Perm (build concepts).1.toList := by
  refine (List.perm_ext_iff_of_nodup ?_ (nodup_toList concepts)).mpr fun marked ↦ ?_
  · refine h.pairwise_defined?.filterMap _ fun fate other hdifferent marked hmarked again hagain hsame ↦ ?_
    obtain rfl := Fate.eq_of_admitted? hmarked
    obtain rfl := Fate.eq_of_admitted? hagain
    exact hdifferent marked.signature rfl (hsame ▸ rfl)
  · rw [List.mem_filterMap, mem_toList_iff]
    constructor
    · rintro ⟨fate, hfate, hmarked⟩
      obtain rfl := Fate.eq_of_admitted? hmarked
      obtain ⟨earlier, concept, later, -, hadmitted⟩ := h.mem_iff.mp hfate
      cases hadmitted with
      | admitted _ _ hfound => exact ⟨concept.signature, hfound⟩
    · rintro ⟨signature, hfound⟩
      obtain ⟨definition, -, hdefinition, -⟩ := search?_withoutCycles hfound
      change (firstDefinitions concepts).1[signature]? = some definition at hdefinition
      rw [getElem?_firstDefinitions] at hdefinition
      obtain ⟨rfl, earlier, later, hsplit, hnew⟩ := exists_isNew_of_find? hdefinition
      refine ⟨.admitted marked, h.mem_iff.mpr ⟨earlier, definition, later, hsplit, ?_⟩, rfl⟩
      exact .admitted hnew (isMarkedBy_of_search?_build hdefinition hfound) hfound

/-- Every report of a cycle is what one occurrence has come to. -/
theorem perm_cycles : ((fates.filterMap Fate.report?).filter fun error ↦ error.cyclic?.isSome).Perm
    ((build concepts).2.filter fun error ↦ error.cyclic?.isSome) := by
  have hdifferent : ((fates.filterMap Fate.report?).filterMap ConceptError.cyclic?).Nodup := by
    rw [List.filterMap_filterMap]
    refine h.pairwise_defined?.filterMap _ fun fate other hdifferent signature hfate again hother hsame ↦ ?_
    exact hdifferent signature (Fate.defined?_of_cyclic? hfate) (hsame ▸ Fate.defined?_of_cyclic? hother)
  refine (List.perm_ext_iff_of_nodup (nodup_filter_cyclic? hdifferent)
    (nodup_filter_cyclic? (nodup_cyclic?_build concepts))).mpr fun error ↦ ?_
  cases error with
  | duplicate _ _ _ => simp [ConceptError.cyclic?]
  | cycle signature file cycle =>
    simp only [List.mem_filter, ConceptError.cyclic?, Option.isSome_some, and_true, List.mem_filterMap, h.mem_iff]
    constructor
    · rintro ⟨fate, ⟨earlier, concept, later, -, hfate⟩, hreport⟩
      cases hfate with
      | admitted _ _ _ => cases hreport
      | duplicate _ => cases hreport
      | cyclic _ _ hreported => exact Option.some.inj hreport ▸ hreported
    · intro hreported
      obtain ⟨hrecorded, concept, hconcept, rfl⟩ := cycle_mem_build_iff.mp hreported
      obtain ⟨rfl, earlier, later, hsplit, hnew⟩ := exists_isNew_of_find? hconcept
      have hmem : concept.signature ∈ (CycleSearch.run (firstDefinitions concepts).1).cycles := by
        rw [Std.ExtTreeMap.mem_iff_isSome_getElem?, hrecorded]
        rfl
      have hnone := (isRejected_of_mem_cycles hmem).isLeftOut
      exact ⟨_, ⟨earlier, concept, later, hsplit, .cyclic hnew hnone hreported⟩, rfl⟩

/-- Every report is what one occurrence has come to. -/
theorem perm_reports : (fates.filterMap Fate.report?).Perm (build concepts).2 := by
  have hduplicates : (fates.filterMap Fate.report?).filter (fun error ↦ !error.cyclic?.isSome) =
      (build concepts).2.filter fun error ↦ !error.cyclic?.isSome := by
    rw [filter_duplicates_build, firstDefinitions, h.reports_define fun signature ↦ by simp, List.nil_append]
  refine (List.filter_append_perm (fun error ↦ error.cyclic?.isSome) _).symm.trans ?_
  refine .trans ?_ (List.filter_append_perm (fun error ↦ error.cyclic?.isSome) _)
  rw [hduplicates]
  exact h.perm_cycles.append_right _

end All

end HaveFates

/-! ### The dictionary and the reports -/

/-- The dictionary and the reports account for every occurrence in the list of concepts. -/
structure AccountsForEach (concepts : List Concept) : Prop where
  /-- Every occurrence is either admitted or a duplicate or on a cycle that is reported. -/
  existsUnique_fate : ∀ earlier concept later, concepts = earlier ++ concept :: later →
    ∃! fate, HasFate concepts earlier concept fate
  /-- What the occurrences come to are the entries of the dictionary and the reports, each of them once. -/
  exists_fates : ∃ fates, HaveFates concepts [] concepts fates ∧
    (fates.filterMap Fate.admitted?).Perm (build concepts).1.toList ∧
    (fates.filterMap Fate.report?).Perm (build concepts).2
  size_add_length : (build concepts).1.size + (build concepts).2.length = concepts.length
  /-- The duplicates are the occurrences with an earlier one of the same signature, and the earliest of these is the
  one that is named. -/
  duplicate_iff : ∀ earlier concept firstFile,
    HasFate concepts earlier concept (.duplicate concept.signature concept.file firstFile) ↔
      ∃ before first after, earlier = before ++ first :: after ∧ first.signature = concept.signature ∧
        first.file = firstFile ∧ ∀ other ∈ before, other.signature ≠ concept.signature

/-- Every concept of a list is accounted for once. -/
theorem accountsForEach_build (concepts : List Concept) : AccountsForEach concepts where
  existsUnique_fate earlier concept later h := by
    obtain ⟨fate, hfate⟩ := exists_hasFate h
    exact ⟨fate, hfate, fun other hother ↦ hfate.unique hother⟩
  exists_fates := by
    obtain ⟨fates, hfates⟩ : ∃ fates, HaveFates concepts [] concepts fates := exists_haveFates rfl
    exact ⟨fates, hfates, hfates.perm_toList, hfates.perm_reports⟩
  size_add_length := size_add_length_build concepts
  duplicate_iff earlier concept firstFile := by
    constructor
    · intro h
      cases h with
      | duplicate hfirst =>
        obtain ⟨hsame, before, after, hsplit, hnew⟩ := exists_isNew_of_find? hfirst
        exact ⟨before, _, after, hsplit, hsame, rfl, hnew⟩
    · rintro ⟨before, first, after, hsplit, hsame, rfl, hnew⟩
      refine .duplicate ?_
      rw [← hsame] at hnew ⊢
      exact find?_of_isNew hsplit hnew

end Dictionary

end LiveSpec
