import LiveSpec.Proofs.Concepts.Shape
import LiveSpec.Proofs.Document.Filling

/-!
# The full expansion

What steps would become if no call were refused (`FullExpansion`) depends on the dictionary, on the scope that the
steps stand in and on the handle that is next: the trees, and the calls of concepts (`ConceptCall`) in the order in
which the trees are read. The scopes are numbered in that order, so nothing has to be known of the lookups that were
made before. In a dictionary in which chains of invocations come to an end there is exactly one full expansion
(`exists_fullExpansion`, `FullExpansion.unique`).

When all calls of it fit their concepts, the full expansion is what expanding the steps leaves, and the lookups that
are made are those of the calls in order (`FullExpansion.expansion`).
-/

set_option autoImplicit false

namespace LiveSpec

/-! ### Several lookups at once -/

namespace Scopes

@[simp] theorem size_empty : empty.size = 0 := rfl

/-- Adds several lookups one after another. -/
def pushAll (scopes : Scopes) (lookups : List Lookup) : Scopes := lookups.foldl push scopes

@[simp] theorem pushAll_nil (scopes : Scopes) : scopes.pushAll [] = scopes := rfl

@[simp] theorem pushAll_cons (scopes : Scopes) (lookup : Lookup) (rest : List Lookup) :
    scopes.pushAll (lookup :: rest) = (scopes.push lookup).pushAll rest := rfl

theorem pushAll_append (scopes : Scopes) (first second : List Lookup) :
    scopes.pushAll (first ++ second) = (scopes.pushAll first).pushAll second := List.foldl_append

@[simp] theorem toList_pushAll (scopes : Scopes) (lookups : List Lookup) :
    (scopes.pushAll lookups).toList = scopes.toList ++ lookups := by
  induction lookups generalizing scopes with
  | nil => simp
  | cons lookup rest ih => simp [ih]

@[simp] theorem size_pushAll (scopes : Scopes) (lookups : List Lookup) :
    (scopes.pushAll lookups).size = scopes.size + lookups.length := by
  rw [← length_toList, toList_pushAll, List.length_append, length_toList]

end Scopes

/-! ### Calls -/

/-- A call of a concept: the scope that it stands in, the concept, the arguments and the line. -/
structure ConceptCall where
  parent : Option ScopeId
  concept : Concept
  arguments : List Argument
  line : Nat

/-- The call that a step in the scope `parent` makes. -/
def Step.call (step : Step) (parent : Option ScopeId) (concept : Concept) : ConceptCall :=
  ⟨parent, concept, step.arguments, step.line⟩

namespace ConceptCall

/-- The call has as many arguments as the concept has parameters. -/
def Fits (call : ConceptCall) : Prop := call.concept.parameters.length = call.arguments.length

instance : DecidablePred Fits := fun call ↦
  inferInstanceAs (Decidable (call.concept.parameters.length = call.arguments.length))

/-- The lookup that is made for the call. -/
def lookup (call : ConceptCall) : Lookup :=
  .ofCall call.parent call.concept.parameters call.arguments

/-- How the call is refused when it does not fit. -/
def mismatch (call : ConceptCall) : Mismatch :=
  ⟨call.concept.signature, call.concept.parameters.length, call.arguments.length, call.line⟩

end ConceptCall

/-! ### Expansion without refusal -/

/-- Steps that stand in the scope `parent` and all invocations in them, expanded whether or not the calls fit. The
scopes are numbered from `next` on in the order in which the trees are read. The rules lead to the trees and to the
calls in this order. -/
inductive FullExpansion (dictionary : Dictionary) :
    Option ScopeId → ScopeId → List Step → List Step → List ConceptCall → Prop
  | nil {parent next} : FullExpansion dictionary parent next [] [] []
  /-- The step invokes nothing. -/
  | atomic {parent next step rest rest' calls}
      (hnone : dictionary.search? step.value = none)
      (hrest : FullExpansion dictionary parent next rest rest' calls) :
      FullExpansion dictionary parent next (step :: rest) (step.within parent :: rest') calls
  /-- The call comes first, the calls in the body of its concept follow, and then the others. -/
  | invocation {parent next step rest rest' concept body inner calls}
      (hconcept : dictionary.search? step.value = some concept)
      (hbody : FullExpansion dictionary (some next) (next + 1) concept.body body inner)
      (hrest : FullExpansion dictionary parent (next + 1 + inner.length) rest rest' calls) :
      FullExpansion dictionary parent next (step :: rest) (step.invoking parent next body :: rest')
        (step.call parent concept :: (inner ++ calls))

variable {dictionary : Dictionary} {parent : Option ScopeId} {next : ScopeId} {steps full : List Step}
  {calls : List ConceptCall}

/-- Steps have one full expansion at most. -/
theorem FullExpansion.unique (h : FullExpansion dictionary parent next steps full calls)
    {full' : List Step} {calls' : List ConceptCall}
    (h' : FullExpansion dictionary parent next steps full' calls') : full' = full ∧ calls' = calls := by
  induction h generalizing full' calls' with
  | nil =>
    cases h'
    exact ⟨rfl, rfl⟩
  | atomic hnone _ ih =>
    cases h' with
    | atomic _ hrest' =>
      obtain ⟨rfl, rfl⟩ := ih hrest'
      exact ⟨rfl, rfl⟩
    | invocation hconcept' =>
      rw [hnone] at hconcept'
      cases hconcept'
  | invocation hconcept _ _ ihbody ihrest =>
    cases h' with
    | atomic hnone' =>
      rw [hconcept] at hnone'
      cases hnone'
    | invocation hconcept' hbody' hrest' =>
      rw [hconcept] at hconcept'
      cases hconcept'
      obtain ⟨rfl, rfl⟩ := ihbody hbody'
      obtain ⟨rfl, rfl⟩ := ihrest hrest'
      exact ⟨rfl, rfl⟩

/-- Steps one after another have a full expansion if the bodies of the concepts that they invoke have one. -/
theorem exists_fullExpansion_of_bodies
    (hbodies : ∀ step ∈ steps, ∀ concept, dictionary.search? step.value = some concept →
      ∀ parent next, ∃ body inner, FullExpansion dictionary parent next concept.body body inner)
    (parent : Option ScopeId) (next : ScopeId) :
    ∃ full calls, FullExpansion dictionary parent next steps full calls := by
  induction steps generalizing next with
  | nil => exact ⟨[], [], .nil⟩
  | cons step rest ih =>
    rw [List.forall_mem_cons] at hbodies
    cases hconcept : dictionary.search? step.value with
    | none =>
      obtain ⟨rest', calls, hrest⟩ := ih hbodies.2 next
      exact ⟨_, _, .atomic hconcept hrest⟩
    | some concept =>
      obtain ⟨body, inner, hbody⟩ := hbodies.1 concept hconcept (some next) (next + 1)
      obtain ⟨rest', calls, hrest⟩ := ih hbodies.2 (next + 1 + inner.length)
      exact ⟨_, _, .invocation hconcept hbody hrest⟩

/-- Assumes: a dictionary without endless chains of invocations. All steps have a full expansion. -/
theorem exists_fullExpansion
    (hends : WellFounded fun called caller ↦ dictionary.Invokes caller called) (steps : List Step)
    (parent : Option ScopeId) (next : ScopeId) :
    ∃ full calls, FullExpansion dictionary parent next steps full calls := by
  have hbody : ∀ signature concept, dictionary.search? signature = some concept →
      ∀ parent next, ∃ body inner, FullExpansion dictionary parent next concept.body body inner := by
    intro signature
    induction signature using hends.induction with
    | _ signature ih =>
      refine fun concept hconcept ↦ exists_fullExpansion_of_bodies fun step hstep called hcalled ↦
        ih step.value ?_ called hcalled
      exact ⟨concept, hconcept, List.mem_map_of_mem hstep, Dictionary.contains_iff.mpr ⟨called, hcalled⟩⟩
  exact exists_fullExpansion_of_bodies (fun step _ ↦ hbody step.value) parent next

/-- Assumes: calls that all fit. The full expansion is what expanding the steps leaves, and the lookups that are made
are those of the calls. -/
theorem FullExpansion.expansion (h : FullExpansion dictionary parent next steps full calls) {scopes : Scopes}
    (hnext : scopes.size = next) (hfit : ∀ call ∈ calls, call.Fits) :
    Expansion dictionary parent scopes steps full (scopes.pushAll (calls.map ConceptCall.lookup)) none := by
  induction h generalizing scopes with
  | nil => exact .nil
  | atomic hnone _ ih => exact .atomic hnone (ih hnext hfit)
  | @invocation parent next step rest rest' concept body inner calls hconcept _ _ ihbody ihrest =>
    subst hnext
    rw [List.forall_mem_cons, List.forall_mem_append] at hfit
    obtain ⟨hfirst, hinner, hcalls⟩ := hfit
    have hbody := ihbody (Scopes.size_push scopes (step.call parent concept).lookup) hinner
    rw [List.map_cons, List.map_append, Scopes.pushAll_cons, Scopes.pushAll_append]
    exact .invocation hconcept hfirst hbody (ihrest (by simp) hcalls)

/-- Expanding a specification puts the steps that it leaves in the places of the old ones, and changes nothing but
these and the lookups. -/
theorem Specification.expand_fst_eq (spec : Specification) (dictionary : Dictionary) :
    (spec.expand dictionary).1 =
      { spec.withSteps (spec.expand dictionary).1.steps with
        scopes := (spec.expand dictionary).1.scopes } :=
  congrArg (fun expanded : Specification ↦ { expanded with scopes := (spec.expand dictionary).1.scopes })
    (spec.threadSteps_eq_withSteps (expandStep dictionary dictionary.size none) ⟨spec.scopes, none⟩)

/-- What the rules lead to is what a specification is expanded to with a dictionary that was built. -/
theorem Expansion.expand_build_eq {concepts : List Concept} {spec : Specification} {left : List Step}
    {after : Scopes} {outcome : Option Mismatch}
    (h : Expansion (Dictionary.build concepts).1 none spec.scopes spec.steps left after outcome) :
    spec.expand (Dictionary.build concepts).1 = ({ spec.withSteps left with scopes := after }, outcome) := by
  obtain ⟨hleft, hafter, houtcome⟩ := (Specification.expansion_build concepts spec).unique h
  rw [hleft, hafter, houtcome, ← spec.expand_fst_eq]

end LiveSpec
