import LiveSpec.Concepts.Dictionary
import LiveSpec.Proofs.Concepts.CycleSearch
import Mathlib.Data.List.Perm.Subperm
import Mathlib.Logic.Relation
import Mathlib.Order.WellFounded

/-!
# The concepts that are admitted

`Dictionary.build` keeps the first definition of every signature, leaves out those that the cycle
search records, and marks the steps of the bodies that remain. Marking changes no signature, so an
invocation between admitted concepts (`Dictionary.Invokes`) is a call between definitions that are
recorded nowhere, and such calls are well founded (`wellFounded_invokes_build`). In a dictionary where
that is so no concept invokes itself, directly or through others (`not_invokes_self`).
-/

set_option autoImplicit false

namespace LiveSpec.Dictionary

variable {dictionary : Dictionary}

/-! ### First definitions -/

/-- Every entry is one of the given concepts under its own signature. -/
def DefinedBy (definitions : Definitions) (concepts : List Concept) : Prop :=
  ∀ signature concept, definitions[signature]? = some concept →
    concept ∈ concepts ∧ concept.signature = signature

theorem definedBy_define {soFar : Definitions × List ConceptError} {concepts : List Concept}
    {concept : Concept} (h : DefinedBy soFar.1 concepts) (hmem : concept ∈ concepts) :
    DefinedBy (define soFar concept).1 concepts := by
  unfold define
  split
  · exact h
  · intro signature other hother
    rw [Std.ExtTreeMap.getElem?_insert] at hother
    split_ifs at hother with hsame
    · rw [Option.some.inj hother] at hmem hsame
      exact ⟨hmem, Std.compare_eq_iff_eq.mp hsame⟩
    · exact h signature other hother

theorem definedBy_firstDefinitions (concepts : List Concept) :
    DefinedBy (firstDefinitions concepts).1 concepts := by
  have hfold : ∀ (rest : List Concept) (soFar : Definitions × List ConceptError),
      rest ⊆ concepts → DefinedBy soFar.1 concepts →
        DefinedBy (rest.foldl define soFar).1 concepts := by
    intro rest
    induction rest with
    | nil => intro soFar _ h; exact h
    | cons concept rest ih =>
      intro soFar hsub h
      exact ih _ (fun other hother ↦ hsub (List.mem_cons_of_mem _ hother))
        (definedBy_define h (hsub List.mem_cons_self))
  refine hfold concepts (∅, []) (List.Subset.refl _) fun signature concept h ↦ ?_
  rw [Std.ExtTreeMap.getElem?_empty] at h
  cases h

/-! ### Marking and leaving out -/

@[simp] theorem body_markInvocations (isAdmitted : String → Bool) (concept : Concept) :
    (markInvocations isAdmitted concept).body =
      concept.body.map fun step ↦ { step with isConcept := isAdmitted step.value } := rfl

/-- Marking does not change which signatures a body invokes. -/
theorem values_body_markInvocations (isAdmitted : String → Bool) (concept : Concept) :
    (markInvocations isAdmitted concept).body.map Step.value = concept.body.map Step.value := by
  rw [body_markInvocations, List.map_map]
  rfl

/-- An admitted concept is a definition on none of the cycles, marked. -/
theorem search?_withoutCycles {definitions : Definitions}
    {cycles : Std.ExtTreeMap String (List String)} {signature : String} {concept : Concept}
    (h : (withoutCycles definitions cycles).search? signature = some concept) :
    ∃ definition isAdmitted, definitions[signature]? = some definition ∧ signature ∉ cycles ∧
      concept = markInvocations isAdmitted definition := by
  unfold withoutCycles search? at h
  rw [Std.ExtTreeMap.getElem?_map, Option.map_eq_some_iff] at h
  obtain ⟨definition, hdefinition, rfl⟩ := h
  rw [Std.ExtTreeMap.getElem?_filter', Option.filter_eq_some_iff] at hdefinition
  refine ⟨definition, _, hdefinition.1, fun hcycle ↦ ?_, rfl⟩
  have hcontains := Std.ExtTreeMap.mem_iff_contains.mp hcycle
  rw [hcontains] at hdefinition
  exact absurd hdefinition.2 (by decide)

/-- An admitted concept is one of the given ones, marked, under its own signature. -/
theorem search?_build {concepts : List Concept} {signature : String} {concept : Concept}
    (h : (build concepts).1.search? signature = some concept) :
    ∃ definition isAdmitted, definition ∈ concepts ∧ definition.signature = signature ∧
      concept = markInvocations isAdmitted definition := by
  obtain ⟨definition, isAdmitted, hdefinition, -, heq⟩ := search?_withoutCycles h
  obtain ⟨hmem, hsignature⟩ := definedBy_firstDefinitions concepts signature definition hdefinition
  exact ⟨definition, isAdmitted, hmem, hsignature, heq⟩

/-! ### Invocations among admitted concepts -/

theorem contains_iff {signature : String} :
    dictionary.contains signature = true ↔ ∃ concept, dictionary.search? signature = some concept := by
  rw [contains, search?, ← Std.ExtTreeMap.mem_iff_contains, Std.ExtTreeMap.mem_iff_isSome_getElem?,
    Option.isSome_iff_exists]

/-- An admitted concept invokes another: a step of its body has the signature of the other. -/
def Invokes (dictionary : Dictionary) (caller called : String) : Prop :=
  ∃ concept, dictionary.search? caller = some concept ∧ called ∈ concept.body.map Step.value ∧
    dictionary.contains called

/-- An invocation between admitted concepts is a call between definitions that are not recorded. -/
theorem callsUnrecorded_of_invokes {concepts : List Concept} {caller called : String}
    (h : (build concepts).1.Invokes caller called) :
    CycleSearch.CallsUnrecorded (firstDefinitions concepts).1
      (CycleSearch.run (firstDefinitions concepts).1) called caller := by
  obtain ⟨concept, hconcept, hcalled, hadmitted⟩ := h
  obtain ⟨other, hother⟩ := contains_iff.mp hadmitted
  obtain ⟨definition, isAdmitted, hdefinition, hcaller, rfl⟩ := search?_withoutCycles hconcept
  obtain ⟨definition', isAdmitted', hdefinition', hrecorded, rfl⟩ := search?_withoutCycles hother
  change (firstDefinitions concepts).1[caller]? = some definition at hdefinition
  change (firstDefinitions concepts).1[called]? = some definition' at hdefinition'
  rw [values_body_markInvocations] at hcalled
  refine ⟨?_, hrecorded, hcaller⟩
  have hdefined : (firstDefinitions concepts).1.contains called := by
    rw [← Std.ExtTreeMap.mem_iff_contains, Std.ExtTreeMap.mem_iff_isSome_getElem?, hdefinition']
    rfl
  unfold callsOf
  rw [hdefinition]
  exact List.mem_filter.mpr ⟨hcalled, hdefined⟩

/-- Chains of invocations in a dictionary that was built come to an end. -/
theorem wellFounded_invokes_build (concepts : List Concept) :
    WellFounded fun called caller ↦ (build concepts).1.Invokes caller called :=
  Subrelation.wf (fun h ↦ callsUnrecorded_of_invokes h)
    (CycleSearch.wellFounded_callsUnrecorded (firstDefinitions concepts).1)

/-- Assumes: a dictionary without endless chains of invocations. No concept invokes itself, directly
or through others. -/
theorem not_invokes_self (h : WellFounded fun called caller ↦ dictionary.Invokes caller called)
    (signature : String) : ¬ Relation.TransGen dictionary.Invokes signature signature := by
  intro hcycle
  have hswap := Relation.transGen_swap.mpr hcycle
  exact h.transGen.irrefl.irrefl signature hswap

/-! ### The length of chains -/

/-- Different admitted signatures are no more than there are concepts. -/
theorem length_le_size {signatures : List String} (hdifferent : signatures.Nodup)
    (hadmitted : ∀ signature ∈ signatures, dictionary.contains signature) :
    signatures.length ≤ dictionary.size := by
  have hsub : signatures ⊆ dictionary.signatures := fun signature hin ↦
    Std.ExtTreeMap.mem_keys.mpr (Std.ExtTreeMap.mem_iff_contains.mpr (hadmitted signature hin))
  calc signatures.length ≤ dictionary.signatures.length :=
        (List.subperm_of_subset hdifferent hsub).length_le
    _ = dictionary.size := Std.ExtTreeMap.length_keys

end LiveSpec.Dictionary
