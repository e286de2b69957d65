import LiveSpec.Proofs.Concepts.Resolution
import LiveSpec.Proofs.Document.Climb

/-!
# Invocations are independent

Every invocation in the trees of an expanded specification has a scope of its own, also when one concept is invoked
several times, be it in one body. The scopes that enclose the scope of an invocation are those of the invocations in
whose trees it stands (`AreExpanded.exists_contains_of_encloses`), and resolving reads no others. So binding a name in
the scope of an invocation can be seen from there and from inside of it, and from nowhere else
(`Specification.areIndependent_expand`).
-/

set_option autoImplicit false

namespace LiveSpec

/-! ### Trees and the steps in them -/

/-- A step stands in the tree of another one: it is that step, or it is in the body at any depth. -/
def Step.Contains (outer inner : Step) : Prop :=
  Relation.ReflTransGen (fun owner step ↦ step ∈ owner.body) outer inner

/-- The steps that are read in a tree are those that stand in it. -/
theorem Step.exists_mem_preorder_iff {outer inner : Step} {depth : Nat} :
    (∃ below, (below, inner) ∈ outer.preorder depth) ↔ outer.Contains inner := by
  constructor
  · rintro ⟨below, hmem⟩
    induction outer using Step.induction generalizing depth with
    | h outer ih =>
      rw [preorder_eq, List.mem_cons] at hmem
      rcases hmem with hself | hbody
      · obtain ⟨-, rfl⟩ := Prod.mk.inj hself
        exact .refl
      · rw [preorderAll_eq] at hbody
        obtain ⟨child, hchild, hmem⟩ := List.mem_flatMap.mp hbody
        exact .head hchild (ih child hchild hmem)
  · intro hcontains
    induction hcontains using Relation.ReflTransGen.head_induction_on generalizing depth with
    | refl => exact ⟨depth, by rw [preorder_eq]; exact List.mem_cons_self⟩
    | head hchild _ ih =>
      obtain ⟨below, hmem⟩ := @ih (depth + 1)
      refine ⟨below, ?_⟩
      rw [preorder_eq, preorderAll_eq]
      exact List.mem_cons_of_mem _ (List.mem_flatMap.mpr ⟨_, hchild, hmem⟩)

namespace Specification

variable {spec : Specification} {enclosing : Option ScopeId} {outer step : Step}

/-- The invocations in the trees of a specification, in the order in which the trees are read. -/
def invocations (spec : Specification) : List Step :=
  ((Step.preorderAll 0 spec.steps).filter fun entry ↦ entry.2.isConcept).map Prod.snd

theorem map_scope_invocations (spec : Specification) :
    spec.invocations.map Step.scope = scopesOfInvocations 0 spec.steps := List.map_map

theorem mem_invocations_iff :
    step ∈ spec.invocations ↔ step.isConcept = true ∧ ∃ root ∈ spec.steps, root.Contains step := by
  simp only [← @Step.exists_mem_preorder_iff _ step 0]
  simp only [invocations, Step.preorderAll_eq, List.mem_map, List.mem_filter, List.mem_flatMap]
  constructor
  · rintro ⟨⟨below, found⟩, ⟨⟨root, hroot, hmem⟩, hmark⟩, rfl⟩
    exact ⟨hmark, root, hroot, below, hmem⟩
  · rintro ⟨hmark, root, hroot, below, hmem⟩
    exact ⟨(below, step), ⟨⟨root, hroot, hmem⟩, hmark⟩, rfl⟩

/-- The steps that stand in the tree of a step of a specification are steps of it too. -/
theorem Holds.of_contains (h : spec.Holds enclosing outer) (hcontains : outer.Contains step) :
    ∃ around, spec.Holds around step := by
  induction hcontains with
  | refl => exact ⟨enclosing, h⟩
  | tail _ hchild ih =>
    obtain ⟨around, howner⟩ := ih
    exact ⟨_, .inside howner hchild⟩

theorem Holds.exists_contains (h : spec.Holds enclosing step) : ∃ root ∈ spec.steps, root.Contains step := by
  induction h with
  | top hmem => exact ⟨_, hmem, .refl⟩
  | inside _ hchild ih =>
    obtain ⟨root, hroot, hcontains⟩ := ih
    exact ⟨root, hroot, hcontains.tail hchild⟩

end Specification

/-! ### Around a scope -/

namespace AreExpanded

variable {dictionary : Dictionary} {scopes : Scopes} {enclosing : Option ScopeId}
  {sources left : List Step} {step : Step} {scope around : ScopeId}

/-- An expanded step with a scope is an invocation, the lookup of which is nested in the scope that the step stands
in. -/
theorem exists_lookup_of_scope (h : AreExpanded dictionary scopes enclosing sources left) (hmem : step ∈ left)
    (hscope : step.scope = some scope) :
    step.isConcept = true ∧ ∃ lookup, scopes.get? scope = some lookup ∧ lookup.parent = enclosing := by
  rcases h.of_mem hmem with ⟨-, hwritten⟩ | ⟨concept, found, -, hmark, hbound, -⟩
  · simp [hwritten.scope_eq] at hscope
  · rw [hbound.scope_eq, Option.some.injEq] at hscope
    subst hscope
    exact ⟨hmark, _, hbound.get?_eq, rfl⟩

/-- Assumes: a specification whose steps are expanded. A scope that encloses the scope of a step is the scope of an
invocation in whose tree the step stands. -/
theorem exists_contains_of_encloses {spec : Specification}
    (h : AreExpanded dictionary scopes none sources spec.steps) (hholds : spec.Holds enclosing step)
    (hscope : step.scope = some scope) (hencloses : scopes.Encloses around scope) :
    ∃ owner ∈ spec.invocations, owner.scope = some around ∧ owner.Contains step := by
  have hlookups : ∀ {enclosing : Option ScopeId} {step : Step} {scope : ScopeId}, spec.Holds enclosing step →
      step.scope = some scope →
        step.isConcept = true ∧ ∃ lookup, scopes.get? scope = some lookup ∧ lookup.parent = enclosing := by
    intro enclosing step scope hholds hscope
    obtain ⟨sources, left, hleft, hmem⟩ := h.exists_of_holds hholds
    exact hleft.exists_lookup_of_scope hmem hscope
  induction hencloses generalizing enclosing step with
  | self =>
    obtain ⟨hmark, -⟩ := hlookups hholds hscope
    exact ⟨step, Specification.mem_invocations_iff.mpr ⟨hmark, hholds.exists_contains⟩, hscope, .refl⟩
  | around hlookup hparent _ ih =>
    obtain ⟨-, lookup, hfound, hnested⟩ := hlookups hholds hscope
    rw [hlookup] at hfound
    cases hfound
    rw [hparent] at hnested
    cases hholds with
    | top => cases hnested
    | inside howner hchild =>
      obtain ⟨owner, hinvocation, hownerScope, hcontains⟩ := ih howner hnested.symm
      exact ⟨owner, hinvocation, hownerScope, hcontains.tail hchild⟩

/-- Assumes: a specification whose steps are expanded, and an invocation of it that stands in no tree of an invocation
with a given scope. Binding a name in this scope makes no difference to the invocation. -/
theorem resolve_set {spec : Specification} (h : AreExpanded dictionary scopes none sources spec.steps)
    (hstep : step ∈ spec.invocations) (hscope : step.scope = some scope)
    (houtside : ∀ owner ∈ spec.invocations, owner.scope = some around → ¬ owner.Contains step) (name : String)
    (argument : Argument) (asked : String) :
    (scopes.set around name argument).resolve scope asked = scopes.resolve scope asked := by
  obtain ⟨-, root, hroot, hcontains⟩ := Specification.mem_invocations_iff.mp hstep
  obtain ⟨enclosing, hholds⟩ := Specification.Holds.of_contains (.top hroot) hcontains
  refine Scopes.climb_congr (fun other hother ↦ ?_) asked none
  rw [Scopes.get?_set, if_neg]
  rintro rfl
  obtain ⟨owner, howner, hownerScope, hcontains⟩ := h.exists_contains_of_encloses hholds hscope hother
  exact houtside owner howner hownerScope hcontains

end AreExpanded

/-- Assumes: concepts and a specification that have been read, and an expansion without a mismatch. Every invocation
in the trees has a scope, and any two have different ones. Binding any name to any argument in a scope makes no
difference to what names resolve to in the scope of an invocation, unless it is that scope or the invocation is nested
in the one that has it. -/
theorem Specification.areIndependent_expand {concepts : List Concept}
    (hconcepts : ∀ concept ∈ concepts, concept.IsRead) {file : Path} {text : String} {spec : Specification}
    (hspec : Specification.parse file text = .ok spec)
    (hcomplete : (spec.expand (Dictionary.build concepts).1).2 = none) :
    let expanded := (spec.expand (Dictionary.build concepts).1).1
    (∀ step ∈ expanded.invocations, ∃ scope, step.scope = some scope) ∧
      expanded.invocations.Pairwise (fun first second ↦ first.scope ≠ second.scope) ∧
      ∀ changed name argument, ∀ step ∈ expanded.invocations,
        (∀ owner ∈ expanded.invocations, owner.scope = some changed → ¬ owner.Contains step) →
          ∀ scope asked, step.scope = some scope →
            (expanded.scopes.set changed name argument).resolve scope asked =
              expanded.scopes.resolve scope asked := by
  intro expanded
  have hnumbered := (expansion_build concepts spec).range_append_scopesOfInvocations hcomplete
    (fun _ _ ↦ Dictionary.isReady_of_search?_build hconcepts)
    (fun step hstep ↦ (isWritten_of_parse hspec step hstep).isUnexpanded _) 0
  rw [scopes_of_parse hspec, ← map_scope_invocations] at hnumbered
  change expanded.invocations.map Step.scope = _ at hnumbered
  refine ⟨fun step hstep ↦ ?_, ?_, fun changed name argument step hstep houtside scope asked hscope ↦ ?_⟩
  · have hmem : step.scope ∈ expanded.invocations.map Step.scope := List.mem_map_of_mem hstep
    rw [hnumbered] at hmem
    obtain ⟨scope, -, hscope⟩ := List.mem_map.mp hmem
    exact ⟨scope, hscope.symm⟩
  · have hnodup : (expanded.invocations.map Step.scope).Nodup := by
      rw [hnumbered]
      exact List.nodup_range.map (Option.some_injective _)
    exact List.pairwise_map.mp hnodup
  · exact (areExpanded_steps_expand hconcepts hspec hcomplete).resolve_set hstep hscope houtside name argument asked

/-- A text in which a concept is defined that invokes another one twice. -/
def meetingConceptText : String :=
  "# Greet both\n* Greet \"ann\"\n* Greet \"bob\"\n\n# Greet <who>\n* Say hi\n"

def meetingConcepts : List Concept :=
  [.ofRoot ⟨"meeting.cpt"⟩
      { Step.written "Greet both" "Greet both" 1 [] with
        body := [.written "Greet \x7b\x7d" "Greet \"ann\"" 2 [.static "ann"],
          .written "Greet \x7b\x7d" "Greet \"bob\"" 3 [.static "bob"]] },
    .ofRoot ⟨"meeting.cpt"⟩
      { Step.written "Greet \x7b\x7d" "Greet <who>" 5 [.dynamic "who"] with
        body := [.written "Say hi" "Say hi" 6 []] }]

def meetingText : String := "# Meeting\n* Greet both\n"

def meeting : Specification :=
  ⟨⟨"Meeting", 1⟩, ⟨"meeting.spec"⟩, [.context (.written "Greet both" "Greet both" 2 [])], .empty⟩

/-- The invocation that greets Ann. -/
def greetAnnStep : Step :=
  (Step.written "Greet \x7b\x7d" "Greet \"ann\"" 2 [.static "ann"]).invoking (some 0) 1
    [.written "Say hi" "Say hi" 6 []]

/-- The invocation of the same concept after it. -/
def greetBobStep : Step :=
  (Step.written "Greet \x7b\x7d" "Greet \"bob\"" 3 [.static "bob"]).invoking (some 0) 2
    [.written "Say hi" "Say hi" 6 []]

/-- One concept is invoked twice in one body. Binding its parameter anew in one of the invocations leaves the other as
it is. -/
theorem Specification.areIndependent_expand_meeting :
    let expanded := (meeting.expand (Dictionary.build meetingConcepts).1).1
    (∀ concept ∈ meetingConcepts, concept.IsRead) ∧
      Specification.parse ⟨"meeting.spec"⟩ meetingText = .ok meeting ∧
      (meeting.expand (Dictionary.build meetingConcepts).1).2 = none ∧
      expanded.invocations.map Step.scope = [some 0, some 1, some 2] ∧
      (expanded.scopes.set 1 "who" (.static "changed")).resolve 1 "who" = some (.static "changed") ∧
      (expanded.scopes.set 1 "who" (.static "changed")).resolve 2 "who" = some (.static "bob") := by
  have hread : ∀ concept ∈ meetingConcepts, concept.IsRead := by
    have hparse : Concept.parseAll ⟨"meeting.cpt"⟩ meetingConceptText = .ok meetingConcepts := by decide +kernel
    exact fun concept hconcept ↦ ⟨_, _, _, hparse, hconcept⟩
  have hspec : Specification.parse ⟨"meeting.spec"⟩ meetingText = .ok meeting := by decide +kernel
  have hcomplete : (meeting.expand (Dictionary.build meetingConcepts).1).2 = none := by decide +kernel
  have hinvocations : (meeting.expand (Dictionary.build meetingConcepts).1).1.invocations =
      [(Step.written "Greet both" "Greet both" 2 []).invoking none 0 [greetAnnStep, greetBobStep],
        greetAnnStep, greetBobStep] := by decide +kernel
  have hapart : ¬ greetAnnStep.Contains greetBobStep := by
    rw [← @Step.exists_mem_preorder_iff _ _ 0]
    rintro ⟨below, hmem⟩
    have hscopes : (greetAnnStep.preorder 0).map (fun entry ↦ entry.2.scope) = [some 1, none] := by decide +kernel
    have hbob : greetBobStep.scope ∈ (greetAnnStep.preorder 0).map fun entry ↦ entry.2.scope :=
      List.mem_map_of_mem hmem
    rw [hscopes] at hbob
    revert hbob
    decide
  have houtside : ∀ owner ∈ (meeting.expand (Dictionary.build meetingConcepts).1).1.invocations,
      owner.scope = some 1 → ¬ owner.Contains greetBobStep := by
    intro owner howner hscope
    rw [hinvocations, List.mem_cons, List.mem_cons, List.mem_singleton] at howner
    rcases howner with rfl | rfl | rfl
    · cases hscope
    · exact hapart
    · cases hscope
  have hbob := (areIndependent_expand hread hspec hcomplete).2.2 1 "who" (.static "changed") greetBobStep
    (by simp [hinvocations]) houtside 2 "who" rfl
  exact ⟨hread, hspec, hcomplete, by rw [hinvocations]; rfl, by decide +kernel, hbob.trans (by decide +kernel)⟩

end LiveSpec
