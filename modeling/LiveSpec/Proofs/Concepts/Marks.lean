import LiveSpec.Proofs.Concepts.Resolution
import LiveSpec.Proofs.Index.Catalogue

/-!
# Marks and origins of the steps in expanded trees

Every step in the trees of an expanded specification is one of some steps that are expanded together, at the
top or as the body of a concept (`AreExpanded.exists_of_mem_preorderAll`). So it is marked as the invocation of
a concept exactly when its signature is in the dictionary (`AreExpanded.isConcept_eq_contains`). Signatures do
not change when steps are copied, so the signature of every step is that of a step at the top or of a step in
the body of a concept (`AreExpanded.exists_origin`), which are the two places where signatures are written
down.
-/

set_option autoImplicit false

namespace LiveSpec

/-- A concept is listed exactly when it is found under a signature. -/
theorem Dictionary.mem_toList_iff {dictionary : Dictionary} {concept : Concept} :
    concept ∈ dictionary.toList ↔ ∃ signature, dictionary.search? signature = some concept := by
  rw [toList, Catalogue.values_eq_map_toList, List.mem_map]
  constructor
  · rintro ⟨⟨signature, found⟩, hmem, rfl⟩
    exact ⟨signature, Std.ExtTreeMap.mem_toList_iff_getElem?_eq_some.mp hmem⟩
  · rintro ⟨signature, hfound⟩
    exact ⟨(signature, concept), Std.ExtTreeMap.mem_toList_iff_getElem?_eq_some.mpr hfound, rfl⟩

/-- The trees themselves stand at their own depth. -/
theorem Step.mem_preorderAll_of_mem (depth : Nat) {steps : List Step} {step : Step} (h : step ∈ steps) :
    (depth, step) ∈ preorderAll depth steps := by
  rw [preorderAll_eq]
  refine List.mem_flatMap.mpr ⟨step, h, ?_⟩
  rw [preorder_eq]
  exact List.mem_cons_self

namespace AreExpanded

variable {dictionary : Dictionary} {scopes : Scopes} {enclosing : Option ScopeId}
  {sources left : List Step}

/-- Expansion leaves the signatures of the steps as they are. -/
theorem map_value (h : AreExpanded dictionary scopes enclosing sources left) :
    left.map Step.value = sources.map Step.value := by
  induction h with
  | nil => rfl
  | atomic _ _ _ ih => rw [List.map_cons, List.map_cons, ih]
  | invocation _ _ _ _ _ _ ih => rw [List.map_cons, List.map_cons, ih]

/-- Every step of expanded trees is one of some expanded steps: of those at the top, or of the body of a
concept. -/
theorem exists_of_mem_preorderAll (h : AreExpanded dictionary scopes enclosing sources left)
    (depth : Nat) {entry : Nat × Step} (hentry : entry ∈ Step.preorderAll depth left) :
    ∃ around sources' left', AreExpanded dictionary scopes around sources' left' ∧ entry.2 ∈ left' ∧
      (left' = left ∨ ∃ signature concept, dictionary.search? signature = some concept ∧
        sources' = concept.body) := by
  induction h generalizing depth with
  | nil => simp [Step.preorderAll] at hentry
  | @atomic enclosing source rest rest' hnone hwritten hrest ih =>
    rw [Step.preorderAll, Step.preorder_eq, hwritten.body_eq, Step.preorderAll, List.mem_append,
      List.mem_singleton] at hentry
    rcases hentry with rfl | hlater
    · exact ⟨_, _, _, .atomic hnone hwritten hrest, List.mem_cons_self, .inl rfl⟩
    · obtain ⟨around, sources', left', hleft, hmem, rfl | hbody⟩ := ih depth hlater
      · exact ⟨_, _, _, .atomic hnone hwritten hrest, List.mem_cons_of_mem _ hmem, .inl rfl⟩
      · exact ⟨around, sources', left', hleft, hmem, .inr hbody⟩
  | @invocation enclosing source rest rest' concept scope body hconcept hcount hlookup hbody hrest ihbody
      ihrest =>
    have hall := AreExpanded.invocation hconcept hcount hlookup hbody hrest
    rw [Step.preorderAll, Step.preorder_eq, List.cons_append, List.mem_cons, List.mem_append] at hentry
    rcases hentry with rfl | hinner | hlater
    · exact ⟨_, _, _, hall, List.mem_cons_self, .inl rfl⟩
    · obtain ⟨around, sources', left', hleft, hmem, rfl | horigin⟩ := ihbody (depth + 1) hinner
      · exact ⟨_, _, _, hbody, hmem, .inr ⟨_, concept, hconcept, rfl⟩⟩
      · exact ⟨around, sources', left', hleft, hmem, .inr horigin⟩
    · obtain ⟨around, sources', left', hleft, hmem, rfl | horigin⟩ := ihrest depth hlater
      · exact ⟨_, _, _, hall, List.mem_cons_of_mem _ hmem, .inl rfl⟩
      · exact ⟨around, sources', left', hleft, hmem, .inr horigin⟩

/-- A step of expanded trees is marked as an invocation exactly when its signature is in the
dictionary. -/
theorem isConcept_eq_contains (h : AreExpanded dictionary scopes enclosing sources left) :
    ∀ (depth : Nat), ∀ entry ∈ Step.preorderAll depth left,
      entry.2.isConcept = dictionary.contains entry.2.value := by
  intro depth entry hentry
  obtain ⟨around, sources', left', hleft, hmem, -⟩ := h.exists_of_mem_preorderAll depth hentry
  rcases hleft.of_mem hmem with ⟨hnone, hwritten⟩ | ⟨concept, scope, hconcept, hmark, -⟩
  · rw [hwritten.isConcept_eq, eq_comm, Bool.eq_false_iff]
    intro hcontains
    obtain ⟨concept, hconcept⟩ := Dictionary.contains_iff.mp hcontains
    rw [hnone] at hconcept
    cases hconcept
  · rw [hmark]
    exact (Dictionary.contains_iff.mpr ⟨concept, hconcept⟩).symm

/-- The signature of a step of expanded trees is that of the step itself, if it stands at the top, or of
a step in the body of a concept. -/
theorem exists_origin (h : AreExpanded dictionary scopes enclosing sources left) :
    ∀ (depth : Nat), ∀ entry ∈ Step.preorderAll depth left, entry.2 ∈ left ∨
      ∃ concept ∈ dictionary.toList, entry.2.value ∈ concept.body.map Step.value := by
  intro depth entry hentry
  obtain ⟨around, sources', left', hleft, hmem, rfl | ⟨signature, concept, hconcept, rfl⟩⟩ :=
    h.exists_of_mem_preorderAll depth hentry
  · exact .inl hmem
  · refine .inr ⟨concept, Dictionary.mem_toList_iff.mpr ⟨signature, hconcept⟩, ?_⟩
    rw [← hleft.map_value]
    exact List.mem_map_of_mem hmem

end AreExpanded

end LiveSpec
