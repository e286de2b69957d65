import LiveSpec.Proofs.Concepts.Stopping

/-!
# Expanding again only renumbers

Expansion looks at the signature and the arguments of a step, and when it expands an invocation it keeps these, the
text and the line, and nothing else. So steps that call alike (`Step.CallsAlike`) have the same full expansion, and
what has been expanded calls like what it was expanded from (`FullExpansion.callsAlike`). Starting with another number
of lookups makes all handles larger by as many (`FullExpansion.shifted`).

So whenever a specification is expanded again, its trees are those of the first expansion with the handles moved
behind the lookups made so far (`FullExpansion.expand_of_callsAlike`). From one time to the next they move by the
number of invocations (`Specification.renumbers_expand_again`).
-/

set_option autoImplicit false

namespace LiveSpec

/-! ### Larger handles -/

namespace Step

mutual

/-- The tree of a step with all handles in it larger by `offset`. -/
def shifted (offset : Nat) : Step → Step
  | ⟨value, text, line, arguments, isConcept, body, scope, parent⟩ =>
    ⟨value, text, line, arguments, isConcept, shiftedAll offset body, scope.map (· + offset),
      parent.map (· + offset)⟩

/-- Trees with all handles in them larger by `offset`. -/
def shiftedAll (offset : Nat) : List Step → List Step
  | [] => []
  | step :: rest => shifted offset step :: shiftedAll offset rest

end

theorem shiftedAll_eq (offset : Nat) (steps : List Step) :
    shiftedAll offset steps = steps.map (shifted offset) := by
  induction steps with
  | nil => simp [shiftedAll]
  | cons step rest ih => simp [shiftedAll, ih]

theorem shifted_eq (offset : Nat) (step : Step) :
    step.shifted offset = { step with
      body := step.body.map (shifted offset)
      scope := step.scope.map (· + offset)
      parent := step.parent.map (· + offset) } := by
  cases step
  simp [shifted, shiftedAll_eq]

@[simp] theorem shifted_shifted (first second : Nat) (step : Step) :
    (step.shifted first).shifted second = step.shifted (first + second) := by
  induction step using Step.induction with
  | h step ih =>
    have hbody : (step.body.map (shifted first)).map (shifted second) = step.body.map (shifted (first + second)) := by
      rw [List.map_map]
      exact List.map_congr_left ih
    have hhandle : ∀ handle : Option ScopeId,
        (handle.map (· + first)).map (· + second) = handle.map (· + (first + second)) := by
      intro handle
      simp [Function.comp_def, Nat.add_assoc]
    rw [shifted_eq second, shifted_eq first, shifted_eq (first + second)]
    simp only [hbody, hhandle]

theorem shifted_invoking (offset : Nat) (step : Step) (parent : Option ScopeId) (scope : ScopeId)
    (body : List Step) : (step.invoking parent scope body).shifted offset =
      step.invoking (parent.map (· + offset)) (scope + offset) (body.map (shifted offset)) := shifted_eq _ _

/-- A step as it is written has no handles. -/
theorem IsWritten.shifted_eq {step : Step} (h : step.IsWritten) (offset : Nat) : step.shifted offset = step := by
  obtain ⟨value, text, line, arguments, isConcept, body, scope, parent⟩ := step
  obtain ⟨-, rfl, rfl, rfl⟩ := h
  simp [shifted, shiftedAll]

end Step

/-- The lookup in a scope that is later by `offset`. -/
def Lookup.shifted (offset : Nat) (lookup : Lookup) : Lookup :=
  { lookup with parent := lookup.parent.map (· + offset) }

@[simp] theorem Lookup.shifted_shifted (first second : Nat) (lookup : Lookup) :
    (lookup.shifted first).shifted second = lookup.shifted (first + second) := by
  simp [shifted, Function.comp_def, Nat.add_assoc]

theorem Lookup.shifted_setAll (offset : Nat) (lookup : Lookup) (bindings : List (String × Argument)) :
    (lookup.setAll bindings).shifted offset = (lookup.shifted offset).setAll bindings := by
  induction bindings generalizing lookup with
  | nil => rfl
  | cons binding rest ih => exact ih (lookup.set binding.1 binding.2)

/-- The call in a scope that is later by `offset`. -/
def ConceptCall.shifted (offset : Nat) (call : ConceptCall) : ConceptCall :=
  { call with parent := call.parent.map (· + offset) }

theorem ConceptCall.lookup_shifted (offset : Nat) (call : ConceptCall) :
    (call.shifted offset).lookup = call.lookup.shifted offset :=
  (Lookup.shifted_setAll offset (.inside call.parent) _).symm

/-! ### Starting with more lookups -/

section Ready

variable {dictionary : Dictionary} {parent : Option ScopeId} {next : ScopeId} {steps full : List Step}
  {calls : List ConceptCall}
  (hready : ∀ signature concept, dictionary.search? signature = some concept → concept.IsReady dictionary)

include hready

/-- Assumes: steps and concepts that have not been expanded. Starting with more lookups makes all handles in the full
expansion larger by as many. -/
theorem FullExpansion.shifted (h : FullExpansion dictionary parent next steps full calls)
    (hsteps : ∀ step ∈ steps, step.IsUnexpanded dictionary) (offset : Nat) :
    FullExpansion dictionary (parent.map (· + offset)) (next + offset) steps (full.map (Step.shifted offset))
      (calls.map (ConceptCall.shifted offset)) := by
  induction h with
  | nil => exact .nil
  | @atomic parent next step rest rest' calls hnone _ ih =>
    rw [List.forall_mem_cons] at hsteps
    have hwritten := hsteps.1.isWritten hnone
    rw [List.map_cons, hwritten.within_eq, hwritten.shifted_eq]
    have hrest := FullExpansion.atomic hnone (ih hsteps.2)
    rwa [hwritten.within_eq] at hrest
  | @invocation parent next step rest rest' concept body inner calls hconcept _ _ ihbody ihrest =>
    rw [List.forall_mem_cons] at hsteps
    have hbody := ihbody (hready _ _ hconcept).isUnexpanded_body
    have hrest := ihrest hsteps.2
    -- the handles of the body and of the later steps, counted from the handle of the invocation
    have hinside : next + 1 + offset = next + offset + 1 := Nat.add_right_comm _ _ _
    have hafter : next + 1 + inner.length + offset =
        next + offset + 1 + (inner.map (ConceptCall.shifted offset)).length := by
      rw [List.length_map, Nat.add_right_comm _ _ offset, hinside]
    rw [hinside] at hbody
    rw [hafter] at hrest
    rw [List.map_cons, List.map_cons, List.map_append, Step.shifted_invoking]
    exact .invocation hconcept hbody hrest

end Ready

/-! ### Steps that call alike -/

/-- The other step agrees in what expansion keeps of a step, and in everything if the step invokes nothing. -/
structure Step.CallsAlike (dictionary : Dictionary) (step other : Step) : Prop where
  value_eq : other.value = step.value
  text_eq : other.text = step.text
  line_eq : other.line = step.line
  arguments_eq : other.arguments = step.arguments
  eq_of_none : dictionary.search? step.value = none → other = step

namespace Step.CallsAlike

variable {dictionary : Dictionary} {step other : Step}

theorem refl (dictionary : Dictionary) (step : Step) : CallsAlike dictionary step step :=
  ⟨rfl, rfl, rfl, rfl, fun _ ↦ rfl⟩

theorem invoking_eq (h : CallsAlike dictionary step other) (parent : Option ScopeId) (scope : ScopeId)
    (body : List Step) : other.invoking parent scope body = step.invoking parent scope body := by
  rw [invoking, invoking, h.value_eq, h.text_eq, h.line_eq, h.arguments_eq]

theorem call_eq (h : CallsAlike dictionary step other) (parent : Option ScopeId) (concept : Concept) :
    other.call parent concept = step.call parent concept := by
  rw [call, call, h.line_eq, h.arguments_eq]

end Step.CallsAlike

namespace FullExpansion

variable {dictionary : Dictionary} {parent : Option ScopeId} {next : ScopeId} {steps others full : List Step}
  {calls : List ConceptCall}

/-- Steps that call alike have the same full expansion. -/
theorem of_callsAlike (h : FullExpansion dictionary parent next steps full calls)
    (halike : List.Forall₂ (Step.CallsAlike dictionary) steps others) :
    FullExpansion dictionary parent next others full calls := by
  induction h generalizing others with
  | nil =>
    cases halike
    exact .nil
  | atomic hnone _ ih =>
    cases halike with
    | cons hfirst hrest =>
      rw [hfirst.eq_of_none hnone]
      exact .atomic hnone (ih hrest)
  | invocation hconcept hbody _ _ ihrest =>
    cases halike with
    | cons hfirst hrest =>
      rw [← hfirst.invoking_eq, ← hfirst.call_eq]
      rw [← hfirst.value_eq] at hconcept
      exact .invocation hconcept hbody (ihrest hrest)

/-- Assumes: steps that have not been expanded. What they are expanded to calls like them, wherever the handles
start. -/
theorem callsAlike (h : FullExpansion dictionary parent next steps full calls)
    (hsteps : ∀ step ∈ steps, step.IsUnexpanded dictionary) (offset : Nat) :
    List.Forall₂ (Step.CallsAlike dictionary) steps (full.map (Step.shifted offset)) := by
  induction h with
  | nil => exact .nil
  | atomic hnone _ ih =>
    rw [List.forall_mem_cons] at hsteps
    have hwritten := hsteps.1.isWritten hnone
    rw [List.map_cons, hwritten.within_eq, hwritten.shifted_eq]
    exact .cons (.refl _ _) (ih hsteps.2)
  | invocation hconcept _ _ _ ihrest =>
    rw [List.forall_mem_cons] at hsteps
    rw [List.map_cons, Step.shifted_invoking]
    refine .cons ⟨rfl, rfl, rfl, rfl, fun hnone ↦ ?_⟩ (ihrest hsteps.2)
    rw [hnone] at hconcept
    cases hconcept

end FullExpansion

/-! ### One time after another -/

namespace Specification

/-- What a specification is when it has been expanded a number of times. -/
def expandTimes (spec : Specification) (dictionary : Dictionary) (times : Nat) : Specification :=
  (fun earlier : Specification ↦ (earlier.expand dictionary).1)^[times] spec

theorem expandTimes_succ (spec : Specification) (dictionary : Dictionary) (times : Nat) :
    spec.expandTimes dictionary (times + 1) = ((spec.expandTimes dictionary times).expand dictionary).1 :=
  Function.iterate_succ_apply' _ _ _

end Specification

section Again

variable {concepts : List Concept} {spec : Specification} {steps full : List Step} {calls : List ConceptCall}
  (hconcepts : ∀ concept ∈ concepts, concept.IsRead)
  (hfull : FullExpansion (Dictionary.build concepts).1 none 0 steps full calls)
  (hsteps : ∀ step ∈ steps, step.IsUnexpanded (Dictionary.build concepts).1)
  (hfit : ∀ call ∈ calls, call.Fits)

include hconcepts hfull hsteps hfit

/-- Assumes: concepts that have been read, steps that have not been expanded, and calls of them that fit. Expanding a
specification with steps that call alike leaves the full expansion of those steps, with the handles after the
lookups that there were. -/
theorem FullExpansion.expand_of_callsAlike
    (halike : List.Forall₂ (Step.CallsAlike (Dictionary.build concepts).1) steps spec.steps) :
    (spec.expand (Dictionary.build concepts).1).1.steps = full.map (Step.shifted spec.scopes.size) ∧
      (spec.expand (Dictionary.build concepts).1).1.scopes = spec.scopes.pushAll
        ((calls.map ConceptCall.lookup).map (Lookup.shifted spec.scopes.size)) ∧
      (spec.expand (Dictionary.build concepts).1).2 = none := by
  have hshifted := (hfull.shifted (fun _ _ ↦ Dictionary.isReady_of_search?_build hconcepts) hsteps
    spec.scopes.size).of_callsAlike halike
  have hfitShifted : ∀ call ∈ calls.map (ConceptCall.shifted spec.scopes.size), call.Fits := by
    intro call hcall
    obtain ⟨original, horiginal, rfl⟩ := List.mem_map.mp hcall
    exact hfit original horiginal
  obtain ⟨hleft, hafter, houtcome⟩ := (Specification.expansion_build concepts spec).unique
    (hshifted.expansion (Nat.zero_add _).symm hfitShifted)
  refine ⟨hleft.symm, hafter.symm.trans ?_, houtcome.symm⟩
  simp [Function.comp_def, ConceptCall.lookup_shifted]

/-- Assumes: a specification without lookups and with these steps. However often it has been expanded, its steps call
like those at the beginning, and each time has added a lookup for every call. -/
theorem FullExpansion.callsAlike_expandTimes (hstart : spec.steps = steps) (hempty : spec.scopes = .empty)
    (times : Nat) :
    List.Forall₂ (Step.CallsAlike (Dictionary.build concepts).1) steps
        (spec.expandTimes (Dictionary.build concepts).1 times).steps ∧
      (spec.expandTimes (Dictionary.build concepts).1 times).scopes.size = times * calls.length := by
  induction times with
  | zero =>
    refine ⟨?_, ?_⟩
    · change List.Forall₂ _ steps spec.steps
      rw [hstart]
      exact List.forall₂_same.mpr fun step _ ↦ .refl _ step
    · change spec.scopes.size = 0 * calls.length
      rw [hempty, Nat.zero_mul, Scopes.size_empty]
  | succ times ih =>
    obtain ⟨halike, hsize⟩ := ih
    obtain ⟨hleft, hafter, -⟩ := hfull.expand_of_callsAlike hconcepts hsteps hfit halike
    rw [Specification.expandTimes_succ, hleft, hafter]
    refine ⟨hfull.callsAlike hsteps _, ?_⟩
    simp [hsize, Nat.succ_mul]

/-- Assumes: a specification without lookups and with these steps. When it has been expanded some times, expanding it
again adds the lookups of the last time, and leaves the trees of the last time, with handles that are larger by the
number of calls. -/
theorem FullExpansion.expand_expandTimes (hstart : spec.steps = steps) (hempty : spec.scopes = .empty)
    (times : Nat) :
    let before := spec.expandTimes (Dictionary.build concepts).1 (times + 1)
    let again := before.expand (Dictionary.build concepts).1
    again.2 = none ∧
      again.1.scopes.toList = before.scopes.toList ++
        (before.scopes.toList.drop (times * calls.length)).map (Lookup.shifted calls.length) ∧
      again.1.steps = before.steps.map (Step.shifted calls.length) := by
  intro before again
  obtain ⟨hlast, hlastSize⟩ := hfull.callsAlike_expandTimes hconcepts hsteps hfit hstart hempty times
  obtain ⟨hbefore, hbeforeSize⟩ := hfull.callsAlike_expandTimes hconcepts hsteps hfit hstart hempty (times + 1)
  obtain ⟨hbeforeSteps, hbeforeScopes, -⟩ := hfull.expand_of_callsAlike hconcepts hsteps hfit hlast
  obtain ⟨hagainSteps, hagainScopes, hagain⟩ := hfull.expand_of_callsAlike hconcepts hsteps hfit hbefore
  rw [← Specification.expandTimes_succ, hlastSize] at hbeforeSteps hbeforeScopes
  rw [hbeforeSize] at hagainSteps hagainScopes
  have hdropped : before.scopes.toList.drop (times * calls.length) =
      (calls.map ConceptCall.lookup).map (Lookup.shifted (times * calls.length)) := by
    rw [hbeforeScopes, Scopes.toList_pushAll, ← hlastSize, ← Scopes.length_toList, List.drop_left]
  refine ⟨hagain, ?_, ?_⟩
  · rw [hdropped, hagainScopes, Scopes.toList_pushAll]
    simp [before, Function.comp_def, Nat.succ_mul]
  · rw [hagainSteps, hbeforeSteps]
    simp [Function.comp_def, Nat.succ_mul]

end Again

/-- Assumes: concepts and a specification that have been read, and an expansion without a mismatch. A specification
that has been expanded a number of times is expanded again without a mismatch. As many lookups are added behind the
earlier ones as at the first time: those that were added the last time, each in a scope that is later by this number.
The trees are the same with all handles larger by this number, and nothing else changes. -/
theorem Specification.renumbers_expand_again {concepts : List Concept}
    (hconcepts : ∀ concept ∈ concepts, concept.IsRead) {file : Path} {text : String} {spec : Specification}
    (hspec : Specification.parse file text = .ok spec)
    (hcomplete : (spec.expand (Dictionary.build concepts).1).2 = none) (times : Nat) :
    let dictionary := (Dictionary.build concepts).1
    let added := (spec.expand dictionary).1.scopes.size - spec.scopes.size
    let before := spec.expandTimes dictionary (times + 1)
    let again := before.expand dictionary
    again.2 = none ∧
      before.scopes.size = (times + 1) * added ∧
      again.1.scopes.toList =
        before.scopes.toList ++ (before.scopes.toList.drop (times * added)).map (Lookup.shifted added) ∧
      again.1.steps = before.steps.map (Step.shifted added) ∧
      again.1 = { before.withSteps (before.steps.map (Step.shifted added)) with scopes := again.1.scopes } := by
  intro dictionary added before again
  have hempty := scopes_of_parse hspec
  have hsteps : ∀ step ∈ spec.steps, step.IsUnexpanded dictionary :=
    fun step hstep ↦ (isWritten_of_parse hspec step hstep).isUnexpanded _
  obtain ⟨full, calls, hfull⟩ :=
    exists_fullExpansion (Dictionary.wellFounded_invokes_build concepts) spec.steps none 0
  have hfit : ∀ call ∈ calls, call.Fits := by
    rw [← Scopes.size_empty, ← hempty] at hfull
    by_contra hmisfit
    push Not at hmisfit
    exact hfull.expand_ne_none_iff.mpr hmisfit hcomplete
  have hadded : added = calls.length := by
    have hfirst := (hfull.callsAlike_expandTimes hconcepts hsteps hfit rfl hempty 1).2
    rw [expandTimes_succ, Nat.one_mul] at hfirst
    change (spec.expand dictionary).1.scopes.size - spec.scopes.size = _
    rw [hempty, Scopes.size_empty]
    exact hfirst
  have hsize := (hfull.callsAlike_expandTimes hconcepts hsteps hfit rfl hempty (times + 1)).2
  obtain ⟨hagain, hscopes, htrees⟩ := hfull.expand_expandTimes hconcepts hsteps hfit rfl hempty times
  rw [← hadded] at hsize hscopes htrees
  refine ⟨hagain, hsize, hscopes, htrees, ?_⟩
  rw [← htrees]
  exact expand_fst_eq _ _

/-- Five invocations: the third time takes the handles from the tenth on. -/
theorem Specification.renumbers_expand_again_login :
    let dictionary := (Dictionary.build loginConcepts).1
    let before := repeatedLogin.expandTimes dictionary 2
    (∀ concept ∈ loginConcepts, concept.IsRead) ∧
      Specification.parse ⟨"login.spec"⟩ repeatedLoginText = .ok repeatedLogin ∧
      (repeatedLogin.expand dictionary).2 = none ∧ (before.expand dictionary).2 = none ∧
      before.scopes.size = 10 ∧
      (before.expand dictionary).1.steps = before.steps.map (Step.shifted 5) ∧
      scopesOfInvocations 0 (before.expand dictionary).1.steps =
        [some 10, some 11, some 12, some 13, some 14] := by
  have hspec : Specification.parse ⟨"login.spec"⟩ repeatedLoginText = .ok repeatedLogin := by decide +kernel
  have hcomplete : (repeatedLogin.expand (Dictionary.build loginConcepts).1).2 = none := by decide +kernel
  have hsize : (repeatedLogin.expand (Dictionary.build loginConcepts).1).1.scopes.size = 5 := by decide +kernel
  obtain ⟨hagain, hbefore, -, htrees, -⟩ := renumbers_expand_again isRead_loginConcepts hspec hcomplete 1
  rw [hsize] at hbefore htrees
  exact ⟨isRead_loginConcepts, hspec, hcomplete, hagain, hbefore, htrees, by decide +kernel⟩

end LiveSpec
