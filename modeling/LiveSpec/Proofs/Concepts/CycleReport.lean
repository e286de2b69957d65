import LiveSpec.Proofs.Concepts.Admission
import Mathlib.Data.List.Chain
import Mathlib.Data.List.Permutation

/-!
# The cycles that are rejected

Concepts that call each other in a circle form a cycle (`IsCycle`). The path of a search is a chain of
calls, so what a call to an open signature closes is a cycle, and all members of it are recorded
(`CycleSearch.IsTrailed`). A member of a cycle is not always recorded itself: where two cycles share a
concept, the search may be done with the shared one before it comes to the others, and it does not
follow it again (`exists_admitted_on_cycle_shop`). What is rejected is one whole cycle out of those that
meet a given one (`exists_rejected_cycle`). A concept that all of these pass through is therefore
rejected, such as one that calls itself.
-/

set_option autoImplicit false

namespace LiveSpec

/-! ### Cycles -/

/-- Signatures each of which calls the next, and the last of which calls the first. -/
def IsCycle (calls : String → String → Prop) (members : List String) : Prop :=
  ∃ first rest, members = first :: rest ∧ List.IsChain calls (first :: rest ++ [first])

/-- A concept calls a signature: the first definition of its own has a step with this signature. -/
def Calls (concepts : List Concept) (caller called : String) : Prop :=
  ∃ concept, concepts.find? (·.signature = caller) = some concept ∧
    called ∈ concept.body.map Step.value

namespace IsCycle

variable {calls calls' : String → String → Prop} {members : List String}

/-- Every member calls a member. -/
theorem exists_called (h : IsCycle calls members) {caller : String} (hmem : caller ∈ members) :
    ∃ called ∈ members, calls caller called := by
  obtain ⟨first, rest, rfl, hchain⟩ := h
  obtain ⟨before, after, heq⟩ := List.append_of_mem hmem
  rw [heq, List.append_assoc, List.cons_append] at hchain
  cases after with
  | nil =>
    have hcall := (List.isChain_append_cons_cons.mp hchain).2.1
    exact ⟨first, List.mem_cons_self, hcall⟩
  | cons called after =>
    have hcall := (List.isChain_append_cons_cons.mp hchain).2.1
    exact ⟨called, by simp [heq], hcall⟩

/-- Every call of a cycle may be replaced by another relation between its members. -/
theorem imp (h : IsCycle calls members)
    (himp : ∀ caller ∈ members, ∀ called ∈ members, calls caller called → calls' caller called) :
    IsCycle calls' members := by
  obtain ⟨first, rest, rfl, hchain⟩ := h
  have hmem : ∀ signature ∈ first :: rest ++ [first], signature ∈ first :: rest := by
    simp [or_comm]
  exact ⟨first, rest, rfl, hchain.imp_of_mem_imp fun caller called hcaller hcalled ↦
    himp caller (hmem caller hcaller) called (hmem called hcalled)⟩

/-- Calls along well-founded chains make no cycle. -/
theorem false_of_wellFounded (h : IsCycle calls members)
    (hends : WellFounded fun called caller ↦ calls caller called) : False := by
  obtain ⟨first, rest, rfl, hchain⟩ := h
  have hlast := hchain.rel_getLast_head_of_append (List.cons_ne_nil _ _) (List.cons_ne_nil _ _)
  have hback : List.IsChain (fun called caller ↦ calls caller called) (first :: rest).reverse :=
    List.isChain_reverse.mpr hchain.left_of_append
  refine hends.asymmetricₙ (by simp) hback ?_
  rw [List.getLast_reverse, List.head_reverse]
  exact hlast

end IsCycle

/-! ### What a search records -/

namespace CycleSearch

variable {definitions : Definitions} {search : CycleSearch}

/-- What follows the first occurrence of a signature begins with it. -/
theorem exists_dropWhile_ne_eq_cons {signature : String} {signatures : List String}
    (h : signature ∈ signatures) :
    ∃ rest, signatures.dropWhile (· ≠ signature) = signature :: rest := by
  induction signatures with
  | nil => exact absurd h List.not_mem_nil
  | cons first rest ih =>
    by_cases heq : first = signature
    · exact ⟨rest, by simp [heq]⟩
    · have hrest : signature ∈ rest := (List.mem_cons.mp h).resolve_left (Ne.symm heq)
      simpa [List.dropWhile_cons, heq] using ih hrest

/-- What is recorded after a call that closes a cycle was recorded before or is this cycle. -/
theorem getElem?_recordAll {cycle members found : List String}
    {cycles : Std.ExtTreeMap String (List String)} {signature : String}
    (h : (recordAll cycle cycles members)[signature]? = some found) :
    cycles[signature]? = some found ∨ signature ∈ members ∧ found = cycle := by
  induction members generalizing cycles with
  | nil => exact Or.inl h
  | cons member rest ih =>
    have hrest : (recordAll cycle (cycles.insertIfNew member cycle) rest)[signature]? = some found := h
    rcases ih hrest with hbefore | ⟨hmem, hfound⟩
    · rw [Std.ExtTreeMap.getElem?_insertIfNew] at hbefore
      split_ifs at hbefore with hnew
      · have hsame : member = signature := Std.compare_eq_iff_eq.mp hnew.1
        exact Or.inr ⟨hsame ▸ List.mem_cons_self, (Option.some.inj hbefore).symm⟩
      · exact Or.inl hbefore
    · exact Or.inr ⟨List.mem_cons_of_mem _ hmem, hfound⟩

/-- A cycle that is recorded for a signature: its members, the first of which is repeated at the end,
call each other in a circle, the signature is one of them, and all of them are recorded. -/
def IsRecordedCycle (definitions : Definitions) (search : CycleSearch) (signature : String)
    (cycle : List String) : Prop :=
  ∃ members, IsCycle (fun caller called ↦ called ∈ callsOf definitions caller) members ∧
    cycle = members ++ members.take 1 ∧ signature ∈ members ∧ ∀ member ∈ members, member ∈ search.cycles

/-- At every moment of a search its path is a chain of calls, with the signature in hand as the one
that is called last, and what is recorded are cycles. -/
structure IsTrailed (definitions : Definitions) (search : CycleSearch) (inHand : Option String) :
    Prop where
  pending_called : ∀ frame ∈ search.path, ∀ called ∈ frame.pending,
    called ∈ callsOf definitions frame.signature
  chain : List.IsChain (fun called caller ↦ called ∈ callsOf definitions caller)
    (inHand.toList ++ search.path.map CycleFrame.signature)
  recorded : ∀ signature cycle, search.cycles[signature]? = some cycle →
    IsRecordedCycle definitions search signature cycle

theorem isTrailed_start (definitions : Definitions) : IsTrailed definitions (start definitions) none where
  pending_called _ h := absurd h List.not_mem_nil
  chain := .nil
  recorded _ _ h := by simp [start] at h

namespace IsTrailed

/-- What a call to an open signature closes is a cycle. -/
theorem isCycle_membersFrom {signature : String} (h : IsTrailed definitions search (some signature))
    (hopen : signature ∈ search.path.map CycleFrame.signature) :
    IsCycle (fun caller called ↦ called ∈ callsOf definitions caller)
      (membersFrom search.path signature) := by
  obtain ⟨rest, hrest⟩ := exists_dropWhile_ne_eq_cons (List.mem_reverse.mpr hopen)
  have hchain : List.IsChain (fun caller called ↦ called ∈ callsOf definitions caller)
      ((search.path.map CycleFrame.signature).reverse ++ [signature]) := by
    rw [← List.reverse_cons]
    exact List.isChain_reverse.mpr h.chain
  refine ⟨signature, rest, hrest, ?_⟩
  have hsuffix := List.dropWhile_suffix (l := (search.path.map CycleFrame.signature).reverse)
    (fun other ↦ decide (other ≠ signature))
  rw [hrest] at hsuffix
  exact hchain.suffix ((List.suffix_append_inj_of_length_eq rfl).mpr ⟨hsuffix, rfl⟩)

/-- A call to an open signature records the cycle that it closes. -/
theorem close {signature : String} (h : IsTrailed definitions search (some signature))
    (hopen : signature ∈ search.path.map CycleFrame.signature) :
    IsTrailed definitions (search.close signature) none where
  pending_called := h.pending_called
  chain := h.chain.tail
  recorded other cycle hcycle := by
    rcases getElem?_recordAll hcycle with hbefore | ⟨hmem, rfl⟩
    · obtain ⟨members, hcalls, heq, hin, hall⟩ := h.recorded other cycle hbefore
      exact ⟨members, hcalls, heq, hin, fun member hmember ↦ mem_close (hall member hmember)⟩
    · obtain ⟨rest, hrest⟩ := exists_dropWhile_ne_eq_cons (List.mem_reverse.mpr hopen)
      refine ⟨membersFrom search.path signature, h.isCycle_membersFrom hopen, ?_, hmem,
        fun member hmember ↦ mem_recordAll.mpr (Or.inr hmember)⟩
      have hfirst : (membersFrom search.path signature).take 1 = [signature] := by
        rw [membersFrom, hrest]
        rfl
      rw [hfirst]

/-- A signature that is entered goes on the path before what is still to be followed. -/
theorem enter {signature : String} (h : IsTrailed definitions search (some signature)) :
    IsTrailed definitions (search.enter definitions signature) none where
  pending_called frame hframe called hcalled := by
    rcases List.mem_cons.mp hframe with rfl | hold
    · exact hcalled
    · exact h.pending_called frame hold called hcalled
  chain := h.chain
  recorded := h.recorded

/-- Assumes: every signature that is entered and not left is on the path. Visiting the signature in hand
keeps the path a chain of calls. -/
theorem visit {signature : String} (h : IsTrailed definitions search (some signature))
    (hentered : search.marks[signature]? = some .entered →
      signature ∈ search.path.map CycleFrame.signature) :
    IsTrailed definitions (search.visit definitions signature) none := by
  match hmark : search.marks[signature]? with
  | some .done =>
    rw [visit_of_done hmark]
    exact { h with chain := h.chain.tail }
  | some .entered =>
    rw [visit_of_entered hmark]
    exact h.close (hentered hmark)
  | none =>
    rw [visit_of_unmarked hmark]
    exact h.enter

end IsTrailed

/-- The rule of the search keeps the path a chain of calls and records cycles only. -/
theorem isTrailed_next (h : IsTrailed definitions search none)
    (hinvariant : Invariant definitions search none) :
    IsTrailed definitions (search.next definitions) none := by
  unfold next
  split
  · next hpath =>
    split
    · exact h
    · next signature rest hwaiting =>
      refine IsTrailed.visit { h with chain := ?_ } (hinvariant.entered_open signature)
      show List.IsChain _ (signature :: search.path.map CycleFrame.signature)
      rw [hpath]
      exact .singleton _
  · next signature outer hpath =>
    have hchain := h.chain
    rw [hpath] at hchain
    exact {
      pending_called := fun frame hframe ↦
        h.pending_called frame (hpath ▸ List.mem_cons_of_mem _ hframe)
      chain := hchain.tail
      recorded := h.recorded }
  · next signature called pending outer hpath =>
    have hchain := h.chain
    rw [hpath] at hchain
    have hpending := h.pending_called ⟨signature, called :: pending⟩ (hpath ▸ List.mem_cons_self)
    have hentered := hinvariant.entered_open called
    rw [hpath] at hentered
    refine IsTrailed.visit
      { pending_called := fun frame hframe ↦ ?_
        chain := List.isChain_cons_cons.mpr ⟨hpending called List.mem_cons_self, hchain⟩
        recorded := h.recorded } hentered
    rcases List.mem_cons.mp hframe with rfl | hold
    · exact fun other hother ↦ hpending other (List.mem_cons_of_mem _ hother)
    · exact h.pending_called frame (hpath ▸ List.mem_cons_of_mem _ hold)

/-- After any number of steps the path is a chain of calls and what is recorded are cycles. -/
theorem isTrailed_repeat (definitions : Definitions) (steps : Nat) :
    IsTrailed definitions (steps.repeat (next definitions) (start definitions)) none := by
  induction steps with
  | zero => exact isTrailed_start definitions
  | succ steps ih => exact isTrailed_next ih (invariant_repeat definitions steps)

/-- What is recorded for a signature at the end of the search is a cycle that it is on. -/
theorem isRecordedCycle_run {signature : String} {cycle : List String}
    (h : (run definitions).cycles[signature]? = some cycle) :
    IsRecordedCycle definitions (run definitions) signature cycle :=
  (isTrailed_repeat definitions _).recorded signature cycle h

/-- Every cycle meets one of which all members are recorded. -/
theorem exists_recorded_of_isCycle {members : List String}
    (h : IsCycle (fun caller called ↦ called ∈ callsOf definitions caller) members) :
    ∃ found, IsCycle (fun caller called ↦ called ∈ callsOf definitions caller) found ∧
      (∃ signature ∈ members, signature ∈ found) ∧
      ∀ signature ∈ found, signature ∈ (run definitions).cycles := by
  have hsome : ∃ signature ∈ members, signature ∈ (run definitions).cycles := by
    by_contra hnone
    push Not at hnone
    refine (h.imp fun caller hcaller called hcalled hcall ↦ ?_).false_of_wellFounded
      (wellFounded_callsUnrecorded definitions)
    exact ⟨hcall, hnone called hcalled, hnone caller hcaller⟩
  obtain ⟨signature, hmem, hrecorded⟩ := hsome
  rw [Std.ExtTreeMap.mem_iff_isSome_getElem?, Option.isSome_iff_exists] at hrecorded
  obtain ⟨cycle, hcycle⟩ := hrecorded
  obtain ⟨found, hfound, -, hin, hall⟩ := isRecordedCycle_run hcycle
  exact ⟨found, hfound, ⟨signature, hmem, hin⟩, hall⟩

end CycleSearch

/-! ### What is rejected -/

namespace Dictionary

variable {concepts : List Concept}

/-- The definition that a signature stands for is the first one that has it. -/
theorem getElem?_firstDefinitions (concepts : List Concept) (signature : String) :
    (firstDefinitions concepts).1[signature]? = concepts.find? (·.signature = signature) := by
  have hfold : ∀ (rest : List Concept) (soFar : Definitions × List ConceptError),
      (rest.foldl define soFar).1[signature]? =
        (soFar.1[signature]?).or (rest.find? (·.signature = signature)) := by
    intro rest
    induction rest with
    | nil => simp
    | cons concept rest ih =>
      intro soFar
      rw [List.foldl_cons, ih, List.find?_cons]
      by_cases hsame : concept.signature = signature
      · subst hsame
        unfold define
        split <;> simp_all
      · have hkept : (define soFar concept).1[signature]? = soFar.1[signature]? := by
          unfold define
          split
          · rfl
          · simp [Std.ExtTreeMap.getElem?_insert, hsame]
        simp [hkept, hsame]
  have hempty := hfold concepts (∅, [])
  simpa [firstDefinitions] using hempty

/-- The calls that the search follows are the calls to defined signatures. -/
theorem mem_callsOf_firstDefinitions {caller called : String} :
    called ∈ callsOf (firstDefinitions concepts).1 caller ↔
      Calls concepts caller called ∧ called ∈ (firstDefinitions concepts).1 := by
  unfold callsOf Calls
  rw [getElem?_firstDefinitions]
  split
  · next hnone => simp [hnone]
  · next concept hconcept =>
    simp only [hconcept, List.mem_filter, Option.some.injEq, exists_eq_left',
      Std.ExtTreeMap.mem_iff_contains]

/-- A cycle that the search follows is one of the concepts. -/
theorem isCycle_of_isCycle_callsOf {members : List String}
    (h : IsCycle (fun caller called ↦ called ∈ callsOf (firstDefinitions concepts).1 caller) members) :
    IsCycle (Calls concepts) members :=
  h.imp fun _ _ _ _ hcall ↦ (mem_callsOf_firstDefinitions.mp hcall).1

/-- The search follows every cycle of the concepts, since its members are defined. -/
theorem isCycle_callsOf_of_isCycle {members : List String} (h : IsCycle (Calls concepts) members) :
    IsCycle (fun caller called ↦ called ∈ callsOf (firstDefinitions concepts).1 caller) members := by
  refine h.imp fun caller _ called hcalled hcall ↦ mem_callsOf_firstDefinitions.mpr ⟨hcall, ?_⟩
  obtain ⟨-, -, concept, hconcept, -⟩ := h.exists_called hcalled
  rw [Std.ExtTreeMap.mem_iff_isSome_getElem?, getElem?_firstDefinitions, hconcept]
  rfl

/-- A concept that is left out and reported with a cycle that it is on. The first signature of the cycle
is repeated at its end. -/
structure IsRejected (concepts : List Concept) (signature : String) : Prop where
  isReported : ∃ concept members, concepts.find? (·.signature = signature) = some concept ∧
    IsCycle (Calls concepts) members ∧ signature ∈ members ∧
      .cycle signature concept.file (members ++ members.take 1) ∈ (build concepts).2
  isLeftOut : (build concepts).1.search? signature = none

/-- What the search records is rejected. -/
theorem isRejected_of_mem_cycles {signature : String}
    (h : signature ∈ (CycleSearch.run (firstDefinitions concepts).1).cycles) :
    IsRejected concepts signature where
  isReported := by
    rw [Std.ExtTreeMap.mem_iff_isSome_getElem?, Option.isSome_iff_exists] at h
    obtain ⟨cycle, hcycle⟩ := h
    obtain ⟨members, hmembers, rfl, hmem, -⟩ := CycleSearch.isRecordedCycle_run hcycle
    have hreal := isCycle_of_isCycle_callsOf hmembers
    obtain ⟨-, -, concept, hconcept, -⟩ := hreal.exists_called hmem
    refine ⟨concept, members, hconcept, hreal, hmem, ?_⟩
    rw [← getElem?_firstDefinitions] at hconcept
    refine List.mem_append_right _ (List.mem_filterMap.mpr
      ⟨(signature, members ++ members.take 1),
        Std.ExtTreeMap.mem_toList_iff_getElem?_eq_some.mpr hcycle, ?_⟩)
    show (firstDefinitions concepts).1[signature]?.map _ = _
    rw [hconcept]
    rfl
  isLeftOut := by
    by_contra hadmitted
    obtain ⟨concept, hconcept⟩ := Option.ne_none_iff_exists'.mp hadmitted
    obtain ⟨-, -, -, hfree, -⟩ := search?_withoutCycles hconcept
    exact hfree h

/-- Assumes: a cycle of concepts. It meets a cycle of which every concept is rejected, and so a concept
on it is rejected that is on every cycle that meets it. -/
theorem exists_rejected_cycle {members : List String} (h : IsCycle (Calls concepts) members) :
    (∃ found, IsCycle (Calls concepts) found ∧ (∃ signature ∈ members, signature ∈ found) ∧
      ∀ signature ∈ found, IsRejected concepts signature) ∧
    ∀ signature ∈ members,
      (∀ other, IsCycle (Calls concepts) other → (∃ shared ∈ members, shared ∈ other) →
        signature ∈ other) →
      IsRejected concepts signature := by
  obtain ⟨found, hfound, hmeet, hall⟩ :=
    CycleSearch.exists_recorded_of_isCycle (isCycle_callsOf_of_isCycle h)
  have hreal := isCycle_of_isCycle_callsOf hfound
  have hrejected : ∀ signature ∈ found, IsRejected concepts signature :=
    fun signature hmem ↦ isRejected_of_mem_cycles (hall signature hmem)
  exact ⟨⟨found, hreal, hmeet, hrejected⟩,
    fun signature _ hshared ↦ hrejected signature (hshared found hreal hmeet)⟩

end Dictionary

/-- An order calls a payment and a shipment, the payment an order, and the shipment a payment. -/
def shopConcepts : List Concept :=
  [.ofRoot ⟨"shop.cpt"⟩
      { Step.written "Order" "Order" 1 [] with
        body := [.written "Pay" "Pay" 2 [], .written "Ship" "Ship" 3 []] },
    .ofRoot ⟨"shop.cpt"⟩
      { Step.written "Pay" "Pay" 4 [] with body := [.written "Order" "Order" 5 []] },
    .ofRoot ⟨"shop.cpt"⟩
      { Step.written "Ship" "Ship" 6 [] with body := [.written "Pay" "Pay" 7 []] }]

theorem calls_shopConcepts :
    Calls shopConcepts "Order" "Pay" ∧ Calls shopConcepts "Order" "Ship" ∧
      Calls shopConcepts "Pay" "Order" ∧ Calls shopConcepts "Ship" "Pay" := by
  refine ⟨⟨_, rfl, ?_⟩, ⟨_, rfl, ?_⟩, ⟨_, rfl, ?_⟩, ⟨_, rfl, ?_⟩⟩ <;> decide

/-- A payment only calls an order, and a shipment only a payment. -/
theorem calls_pay_or_ship {called : String} :
    (Calls shopConcepts "Pay" called → called = "Order") ∧
      (Calls shopConcepts "Ship" called → called = "Pay") := by
  constructor
  all_goals
    rintro ⟨concept, hconcept, hcalled⟩
    obtain rfl := Option.some.inj hconcept
    exact List.mem_singleton.mp hcalled

/-- A cycle that has a shipment in it has a payment as well, and one that has a payment an order. -/
theorem Dictionary.exists_rejected_cycle_shop :
    IsCycle (Calls shopConcepts) ["Order", "Ship", "Pay"] ∧
      (∃ found, IsCycle (Calls shopConcepts) found ∧
        (∃ signature ∈ ["Order", "Ship", "Pay"], signature ∈ found) ∧
        ∀ signature ∈ found, IsRejected shopConcepts signature) ∧
      IsRejected shopConcepts "Order" := by
  obtain ⟨horderPay, horderShip, hpayOrder, hshipPay⟩ := calls_shopConcepts
  have hcycle : IsCycle (Calls shopConcepts) ["Order", "Ship", "Pay"] :=
    ⟨"Order", ["Ship", "Pay"], rfl, by simp [horderShip, hshipPay, hpayOrder]⟩
  obtain ⟨hmeet, hshared⟩ := exists_rejected_cycle hcycle
  refine ⟨hcycle, hmeet, hshared "Order" List.mem_cons_self fun other hother hmeets ↦ ?_⟩
  have hpay : "Pay" ∈ other → "Order" ∈ other := fun hmem ↦ by
    obtain ⟨called, hcalled, hcall⟩ := hother.exists_called hmem
    exact calls_pay_or_ship.1 hcall ▸ hcalled
  have hship : "Ship" ∈ other → "Pay" ∈ other := fun hmem ↦ by
    obtain ⟨called, hcalled, hcall⟩ := hother.exists_called hmem
    exact calls_pay_or_ship.2 hcall ▸ hcalled
  obtain ⟨shared, hin, hmem⟩ := hmeets
  simp only [List.mem_cons, List.not_mem_nil, or_false] at hin
  rcases hin with rfl | rfl | rfl
  · exact hmem
  · exact hpay (hship hmem)
  · exact hpay hmem

/-- The shipment is on a cycle, but the search has left the payment when it comes to the shipment. It is
admitted and no report names it. -/
theorem Dictionary.exists_admitted_on_cycle_shop :
    IsCycle (Calls shopConcepts) ["Order", "Ship", "Pay"] ∧
      (build shopConcepts).1.contains "Ship" = true ∧
      (build shopConcepts).2 =
        [.cycle "Order" ⟨"shop.cpt"⟩ ["Order", "Pay", "Order"],
          .cycle "Pay" ⟨"shop.cpt"⟩ ["Order", "Pay", "Order"]] := by
  obtain ⟨horderPay, horderShip, hpayOrder, hshipPay⟩ := calls_shopConcepts
  refine ⟨⟨"Order", ["Ship", "Pay"], rfl, by simp [horderShip, hshipPay, hpayOrder]⟩, ?_, ?_⟩
  · decide +kernel
  · decide +kernel

end LiveSpec
