import LiveSpec.Proofs.Concepts.CycleReport

/-!
# Reported cycles are real

A search enters a signature only while it has no mark, and the open signatures are those that are marked as
entered, so no signature comes twice on the path (`CycleSearch.IsSimple`). The cycle that a call closes is a part
of the path, followed by its own first signature again: apart from that nothing in it is repeated.

Together with the chain of calls that the path is, this makes every report of a cycle a true one
(`Dictionary.IsTrueReport`). The concept that is reported invokes itself, then, and so does every concept that is
left out. Recorded cycles are kept by signature, and so there is one report for a signature at most
(`Dictionary.reportsTrueCycles_build`).
-/

set_option autoImplicit false

namespace LiveSpec

/-! ### Cycles lead back -/

/-- Every member of a cycle leads to itself. -/
theorem IsCycle.transGen {calls : String → String → Prop} {members : List String} (h : IsCycle calls members)
    {signature : String} (hmem : signature ∈ members) : Relation.TransGen calls signature signature := by
  obtain ⟨first, rest, rfl, hchain⟩ := h
  have hleads : List.Pairwise (Relation.TransGen calls) (first :: rest ++ [first]) :=
    (hchain.imp fun _ _ hcall ↦ Relation.TransGen.single hcall).pairwise
  obtain ⟨hforward, -, hback⟩ := List.pairwise_append.mp hleads
  have hreturn := hback signature hmem first List.mem_cons_self
  rcases List.mem_cons.mp hmem with rfl | hrest
  · exact hreturn
  · exact hreturn.trans (List.rel_of_pairwise_cons hforward hrest)

/-! ### The path has no repetition -/

namespace CycleSearch

variable {definitions : Definitions} {search : CycleSearch}

/-- No signature is open twice, the open ones are marked as entered, and the cycles that are recorded repeat
nothing but their first signature. -/
structure IsSimple (search : CycleSearch) : Prop where
  nodup_path : (search.path.map CycleFrame.signature).Nodup
  entered : ∀ signature ∈ search.path.map CycleFrame.signature,
    search.marks[signature]? = some CycleMark.entered
  nodup_recorded : ∀ (signature : String) (cycle : List String),
    search.cycles[signature]? = some cycle → cycle.tail.Nodup

theorem isSimple_start (definitions : Definitions) : IsSimple (start definitions) where
  nodup_path := List.nodup_nil
  entered _ h := absurd h List.not_mem_nil
  nodup_recorded _ _ h := by simp [start] at h

namespace IsSimple

/-- What a call to an open signature closes repeats nothing but this signature. -/
theorem close (h : IsSimple search) {signature : String}
    (hopen : signature ∈ search.path.map CycleFrame.signature) : IsSimple (search.close signature) where
  nodup_path := h.nodup_path
  entered := h.entered
  nodup_recorded other cycle hcycle := by
    rcases getElem?_recordAll hcycle with hbefore | ⟨-, rfl⟩
    · exact h.nodup_recorded other cycle hbefore
    · obtain ⟨rest, hrest⟩ := exists_dropWhile_ne_eq_cons (List.mem_reverse.mpr hopen)
      have hmembers : (membersFrom search.path signature).Nodup :=
        (List.nodup_reverse.mpr h.nodup_path).sublist (List.dropWhile_sublist _)
      rw [membersFrom, hrest] at hmembers ⊢
      exact List.nodup_append_comm.mp hmembers

/-- A signature without a mark is not open yet. -/
theorem enter (h : IsSimple search) {signature : String} (hmark : search.marks[signature]? = none) :
    IsSimple (search.enter definitions signature) where
  nodup_path := by
    refine List.nodup_cons.mpr ⟨fun hopen ↦ ?_, h.nodup_path⟩
    have hentered := h.entered signature hopen
    rw [hmark] at hentered
    cases hentered
  entered other hother := by
    rw [marks_enter]
    split_ifs with hsame
    · rfl
    · exact h.entered other ((List.mem_cons.mp hother).resolve_left (Ne.symm hsame))
  nodup_recorded := h.nodup_recorded

/-- Assumes: every signature that is entered and not left is on the path. -/
theorem visit (h : IsSimple search) {signature : String}
    (hentered : search.marks[signature]? = some .entered →
      signature ∈ search.path.map CycleFrame.signature) :
    IsSimple (search.visit definitions signature) := by
  match hmark : search.marks[signature]? with
  | some .done =>
    rw [visit_of_done hmark]
    exact h
  | some .entered =>
    rw [visit_of_entered hmark]
    exact h.close (hentered hmark)
  | none =>
    rw [visit_of_unmarked hmark]
    exact h.enter hmark

/-- The innermost signature is left, and the marks of the others stay. -/
theorem leave (h : IsSimple search) {signature : String} {outer : List CycleFrame}
    (hpath : search.path = ⟨signature, []⟩ :: outer) :
    IsSimple { search with path := outer, marks := search.marks.insert signature .done } := by
  have hnodup := h.nodup_path
  rw [hpath, List.map_cons, List.nodup_cons] at hnodup
  refine ⟨hnodup.2, fun other hother ↦ ?_, h.nodup_recorded⟩
  have hdifferent : signature ≠ other := fun heq ↦ hnodup.1 (heq ▸ hother)
  simp only [Std.ExtTreeMap.getElem?_insert, Std.compare_eq_iff_eq, if_neg hdifferent]
  exact h.entered other (hpath ▸ List.mem_cons_of_mem _ hother)

end IsSimple

/-- The rule of the search keeps the path without repetition. -/
theorem isSimple_next (h : IsSimple search) (hinvariant : Invariant definitions search none) :
    IsSimple (search.next definitions) := by
  unfold next
  split
  · next hpath =>
    split
    · exact h
    · next signature rest _ =>
      refine IsSimple.visit ?_ (hinvariant.entered_open signature)
      exact ⟨h.nodup_path, h.entered, h.nodup_recorded⟩
  · next signature outer hpath => exact h.leave hpath
  · next signature called pending outer hpath =>
    have hnodup := h.nodup_path
    have hmarks := h.entered
    have hentered := hinvariant.entered_open called
    rw [hpath] at hnodup hmarks hentered
    refine IsSimple.visit ?_ hentered
    exact ⟨hnodup, hmarks, h.nodup_recorded⟩

/-- After any number of steps the path and the recorded cycles are without repetition. -/
theorem isSimple_repeat (definitions : Definitions) (steps : Nat) :
    IsSimple (steps.repeat (next definitions) (start definitions)) := by
  induction steps with
  | zero => exact isSimple_start definitions
  | succ steps ih => exact isSimple_next ih (invariant_repeat definitions steps)

end CycleSearch

/-! ### Reports -/

/-- The signature that is reported to be on a cycle, if that is what is reported. -/
def ConceptError.cyclic? : ConceptError → Option String
  | duplicate _ _ _ => none
  | cycle signature _ _ => some signature

namespace Dictionary

variable {concepts : List Concept}

/-- A report of a cycle is true: it names the file of the first concept with the signature, and a closed path of
invocations that passes through the signature and repeats nothing but the signature that it starts with, at its
end. -/
structure IsTrueReport (concepts : List Concept) (signature : String) (file : Path) (cycle : List String) :
    Prop where
  isFirst : ∃ concept, concepts.find? (·.signature = signature) = some concept ∧ concept.file = file
  two_le_length : 2 ≤ cycle.length
  head?_eq_getLast? : cycle.head? = cycle.getLast?
  nodup_tail : cycle.tail.Nodup
  mem : signature ∈ cycle
  isChain : cycle.IsChain (Calls concepts)

theorem reports_build (concepts : List Concept) :
    (build concepts).2 = (firstDefinitions concepts).2 ++
      (findCycles (firstDefinitions concepts).1).toList.filterMap
        (cycleError? (firstDefinitions concepts).1) := rfl

/-- Concepts that are defined twice are reported as nothing else. -/
theorem cyclic?_of_mem_firstDefinitions {error : ConceptError} (h : error ∈ (firstDefinitions concepts).2) :
    error.cyclic? = none := by
  have hfold : ∀ (rest : List Concept) (soFar : Definitions × List ConceptError),
      (∀ error ∈ soFar.2, error.cyclic? = none) →
        ∀ error ∈ (rest.foldl define soFar).2, error.cyclic? = none := by
    intro rest
    induction rest with
    | nil => exact fun _ hbefore ↦ hbefore
    | cons concept rest ih =>
      refine fun soFar hbefore ↦ ih _ fun error herror ↦ ?_
      unfold define at herror
      split at herror
      · rcases List.mem_append.mp herror with hold | hnew
        · exact hbefore error hold
        · rw [List.mem_singleton.mp hnew]
          rfl
      · exact hbefore error herror
  exact hfold concepts (∅, []) (fun _ hnone ↦ absurd hnone List.not_mem_nil) error h

/-- A cycle is reported exactly when it is what the search has recorded for a defined signature. -/
theorem cycle_mem_build_iff {signature : String} {file : Path} {cycle : List String} :
    .cycle signature file cycle ∈ (build concepts).2 ↔
      (CycleSearch.run (firstDefinitions concepts).1).cycles[signature]? = some cycle ∧
        ∃ concept, concepts.find? (·.signature = signature) = some concept ∧ concept.file = file := by
  have hother : .cycle signature file cycle ∉ (firstDefinitions concepts).2 := fun h ↦ by
    cases cyclic?_of_mem_firstDefinitions h
  rw [reports_build, List.mem_append, or_iff_right hother, List.mem_filterMap, ← getElem?_firstDefinitions]
  constructor
  · rintro ⟨⟨member, found⟩, hfound, herror⟩
    obtain ⟨concept, hconcept, heq⟩ := Option.map_eq_some_iff.mp herror
    cases heq
    exact ⟨Std.ExtTreeMap.mem_toList_iff_getElem?_eq_some.mp hfound, concept, hconcept, rfl⟩
  · rintro ⟨hfound, concept, hconcept, rfl⟩
    exact ⟨(signature, cycle), Std.ExtTreeMap.mem_toList_iff_getElem?_eq_some.mpr hfound,
      Option.map_eq_some_iff.mpr ⟨concept, hconcept, rfl⟩⟩

theorem isTrueReport_of_mem_build {signature : String} {file : Path} {cycle : List String}
    (h : .cycle signature file cycle ∈ (build concepts).2) : IsTrueReport concepts signature file cycle := by
  obtain ⟨hrecorded, hfirst⟩ := cycle_mem_build_iff.mp h
  have hnodup := (CycleSearch.isSimple_repeat (firstDefinitions concepts).1 _).nodup_recorded _ _ hrecorded
  obtain ⟨members, hmembers, rfl, hmem, -⟩ := CycleSearch.isRecordedCycle_run hrecorded
  obtain ⟨first, rest, rfl, hchain⟩ := isCycle_of_isCycle_callsOf hmembers
  exact {
    isFirst := hfirst
    two_le_length := by simp
    head?_eq_getLast? := by
      rw [List.getLast?_append]
      rfl
    nodup_tail := hnodup
    mem := List.mem_append_left _ hmem
    isChain := hchain }

/-- A concept that is reported to be on a cycle invokes itself, directly or through others. -/
theorem transGen_calls_of_mem_build {signature : String} {file : Path} {cycle : List String}
    (h : .cycle signature file cycle ∈ (build concepts).2) :
    Relation.TransGen (Calls concepts) signature signature := by
  obtain ⟨members, hmembers, -, hmem, -⟩ := CycleSearch.isRecordedCycle_run (cycle_mem_build_iff.mp h).1
  exact (isCycle_of_isCycle_callsOf hmembers).transGen hmem

/-- A signature that is defined and left out is reported to be on a cycle. -/
theorem exists_cycle_mem_build {signature : String} {concept : Concept}
    (hconcept : concepts.find? (·.signature = signature) = some concept)
    (hnone : (build concepts).1.search? signature = none) :
    ∃ cycle, .cycle signature concept.file cycle ∈ (build concepts).2 := by
  have hrecorded : (findCycles (firstDefinitions concepts).1).contains signature = true := by
    by_contra hfree
    change (Std.ExtTreeMap.map _ _)[signature]? = none at hnone
    rw [Std.ExtTreeMap.getElem?_map, Option.map_eq_none_iff, Std.ExtTreeMap.getElem?_filter',
      Option.filter_eq_none_iff] at hnone
    rw [← getElem?_firstDefinitions] at hconcept
    exact hnone concept hconcept (by rw [Bool.not_eq_true', ← Bool.not_eq_true]; exact hfree)
  rw [← Std.ExtTreeMap.mem_iff_contains, Std.ExtTreeMap.mem_iff_isSome_getElem?,
    Option.isSome_iff_exists] at hrecorded
  obtain ⟨cycle, hcycle⟩ := hrecorded
  exact ⟨cycle, cycle_mem_build_iff.mpr ⟨hcycle, concept, hconcept, rfl⟩⟩

/-- Recorded cycles are kept by signature, and duplicates are reported as nothing else. -/
theorem nodup_cyclic?_build (concepts : List Concept) :
    ((build concepts).2.filterMap ConceptError.cyclic?).Nodup := by
  rw [reports_build, List.filterMap_append,
    List.filterMap_eq_nil_iff.mpr fun _ ↦ cyclic?_of_mem_firstDefinitions, List.nil_append,
    List.filterMap_filterMap]
  refine List.Pairwise.filterMap _ (fun first second hdifferent reported hfirst again hsecond hsame ↦ ?_)
    Std.ExtTreeMap.distinct_keys_toList
  simp only [cycleError?, Option.bind_map, Option.bind_eq_some_iff] at hfirst hsecond
  obtain ⟨_, -, hreported⟩ := hfirst
  obtain ⟨_, -, hagain⟩ := hsecond
  have hkeys : first.1 = second.1 :=
    (Option.some.inj hreported).trans (hsame.trans (Option.some.inj hagain).symm)
  exact hdifferent (hkeys ▸ Std.compare_self)

/-- Every report of a cycle is true, and what it reports, like everything that is defined and left out, invokes
itself, directly or through others. No signature is reported twice. -/
theorem reportsTrueCycles_build (concepts : List Concept) :
    (∀ signature file cycle, .cycle signature file cycle ∈ (build concepts).2 →
      IsTrueReport concepts signature file cycle ∧ Relation.TransGen (Calls concepts) signature signature) ∧
    (∀ concept ∈ concepts, (build concepts).1.search? concept.signature = none →
      Relation.TransGen (Calls concepts) concept.signature concept.signature) ∧
    ((build concepts).2.filterMap ConceptError.cyclic?).Nodup := by
  refine ⟨fun signature file cycle h ↦ ⟨isTrueReport_of_mem_build h, transGen_calls_of_mem_build h⟩,
    fun concept hconcept hnone ↦ ?_, nodup_cyclic?_build concepts⟩
  have hdefined : (concepts.find? (·.signature = concept.signature)).isSome :=
    List.find?_isSome.mpr ⟨concept, hconcept, by simp⟩
  obtain ⟨first, hfirst⟩ := Option.isSome_iff_exists.mp hdefined
  obtain ⟨cycle, hcycle⟩ := exists_cycle_mem_build hfirst hnone
  exact transGen_calls_of_mem_build hcycle

/-- The concepts of a shop, and an order that is defined again in another file and calls nothing. -/
def shopConceptsAgain : List Concept :=
  shopConcepts ++ [.ofRoot ⟨"more.cpt"⟩ (.written "Order" "Order" 1 [])]

/-- The second order is a duplicate. The first one and the payment invoke each other, and the reports name the
file of the first. -/
theorem reportsTrueCycles_build_shop :
    .cycle "Order" ⟨"shop.cpt"⟩ ["Order", "Pay", "Order"] ∈ (build shopConceptsAgain).2 ∧
      IsTrueReport shopConceptsAgain "Order" ⟨"shop.cpt"⟩ ["Order", "Pay", "Order"] ∧
      (∃ concept ∈ shopConceptsAgain, concept.signature = "Pay") ∧
      (build shopConceptsAgain).1.search? "Pay" = none ∧
      Relation.TransGen (Calls shopConceptsAgain) "Pay" "Pay" := by
  have hreports : (build shopConceptsAgain).2 =
      [.duplicate "Order" ⟨"more.cpt"⟩ ⟨"shop.cpt"⟩,
        .cycle "Order" ⟨"shop.cpt"⟩ ["Order", "Pay", "Order"],
        .cycle "Pay" ⟨"shop.cpt"⟩ ["Order", "Pay", "Order"]] := by decide +kernel
  have horder : .cycle "Order" ⟨"shop.cpt"⟩ ["Order", "Pay", "Order"] ∈ (build shopConceptsAgain).2 := by
    rw [hreports]
    exact List.mem_cons_of_mem _ List.mem_cons_self
  have hnone : (build shopConceptsAgain).1.search? "Pay" = none := by decide +kernel
  obtain ⟨payment, hpayment, hsignature⟩ :
      ∃ concept ∈ shopConceptsAgain, concept.signature = "Pay" := ⟨_, List.mem_cons_of_mem _ List.mem_cons_self, rfl⟩
  obtain ⟨htrue, hleftOut, -⟩ := reportsTrueCycles_build shopConceptsAgain
  have hself := hleftOut payment hpayment (hsignature ▸ hnone)
  rw [hsignature] at hself
  exact ⟨horder, (htrue _ _ _ horder).1, ⟨payment, hpayment, hsignature⟩, hnone, hself⟩

end Dictionary

end LiveSpec
