import LiveSpec.Proofs.Concepts.Shape

/-!
# Arguments are passed down the chain of invocations

In an expanded specification a parameter of an invocation stands for the argument of the call, and a
reference there for what it stands for in the invocation around the call, and so on outwards. Any other
name means inside an invocation what it means around it (`Specification.resolve_expand`).

The steps in the trees of a specification are found from the top inwards, each with the scope that it
directly stands in (`Specification.Holds`). In an expanded specification that is the scope which the
lookup of an invocation is nested in (`AreExpanded.isBound`), and what a name means there follows from
the lookup alone.
-/

set_option autoImplicit false

namespace LiveSpec

/-- The steps in the trees of a specification at any depth, each with the scope of the invocation that
it directly stands in. -/
inductive Specification.Holds (spec : Specification) : Option ScopeId → Step → Prop
  | top {step} (h : step ∈ spec.steps) : spec.Holds none step
  | inside {enclosing owner step} (howner : spec.Holds enclosing owner) (h : step ∈ owner.body) :
    spec.Holds owner.scope step

/-- An invocation whose lookup is nested in the scope `enclosing` and binds the parameters of the concept
to the arguments of the call. -/
structure Step.IsBound (step : Step) (scopes : Scopes) (enclosing : Option ScopeId)
    (concept : Concept) (scope : ScopeId) : Prop where
  scope_eq : step.scope = some scope
  length_eq : concept.parameters.length = step.arguments.length
  get?_eq : scopes.get? scope =
    some ⟨(concept.parameters.map Argument.label).zip step.arguments, enclosing⟩

namespace AreExpanded

variable {dictionary : Dictionary} {scopes : Scopes} {enclosing : Option ScopeId}
  {sources left : List Step} {step : Step}

/-- An expanded step invokes nothing and is as it was written, or it is an invocation with a lookup and an
expanded body. -/
theorem of_mem (h : AreExpanded dictionary scopes enclosing sources left) (hmem : step ∈ left) :
    dictionary.search? step.value = none ∧ step.IsWritten ∨
      ∃ (concept : Concept) (scope : ScopeId), dictionary.search? step.value = some concept ∧
        step.isConcept = true ∧ step.IsBound scopes enclosing concept scope ∧
        AreExpanded dictionary scopes (some scope) concept.body step.body := by
  induction h with
  | nil => simp at hmem
  | atomic hnone hwritten _ ih =>
    rcases List.mem_cons.mp hmem with rfl | hrest
    · exact .inl ⟨hnone, hwritten⟩
    · exact ih hrest
  | @invocation enclosing source rest rest' concept scope body hconcept hcount hlookup hbody _ _ ih =>
    rcases List.mem_cons.mp hmem with rfl | hrest
    · exact .inr ⟨concept, scope, hconcept, rfl, ⟨rfl, hcount, hlookup⟩, hbody⟩
    · exact ih hrest

/-- Assumes: an expanded step with the signature of a concept. It is an invocation of the concept. -/
theorem isBound (h : AreExpanded dictionary scopes enclosing sources left) (hmem : step ∈ left)
    {concept : Concept} (hconcept : dictionary.search? step.value = some concept) :
    ∃ scope, step.IsBound scopes enclosing concept scope := by
  rcases h.of_mem hmem with ⟨hnone, -⟩ | ⟨found, scope, hfound, -, hbound, -⟩
  · simp [hnone] at hconcept
  · rw [hfound, Option.some.injEq] at hconcept
    subst hconcept
    exact ⟨scope, hbound⟩

/-- Assumes: a specification whose steps are expanded. Every step in its trees is one of some expanded
steps in the scope that it stands in. -/
theorem exists_of_holds {spec : Specification}
    (h : AreExpanded dictionary scopes none sources spec.steps) (hholds : spec.Holds enclosing step) :
    ∃ sources left, AreExpanded dictionary scopes enclosing sources left ∧ step ∈ left := by
  induction hholds with
  | top hmem => exact ⟨_, _, h, hmem⟩
  | inside _ hmem ih =>
    obtain ⟨sources, left, hexpanded, howner⟩ := ih
    rcases hexpanded.of_mem howner with ⟨-, hwritten⟩ | ⟨concept, scope, -, -, hbound, hbody⟩
    · simp [hwritten.body_eq] at hmem
    · rw [hbound.scope_eq]
      exact ⟨_, _, hbody, hmem⟩

end AreExpanded

namespace Step.IsBound

variable {step : Step} {scopes : Scopes} {enclosing : Option ScopeId} {concept : Concept}
  {scope : ScopeId}

/-- Assumes: parameters with different names. A parameter resolves to what the argument in its place
stands for around the call. -/
theorem resolve_parameter (h : step.IsBound scopes enclosing concept scope)
    (hnested : scopes.IsNested) (hdifferent : (concept.parameters.map Argument.label).Nodup)
    {position : Nat} {parameter argument : Argument}
    (hparameter : concept.parameters[position]? = some parameter)
    (hargument : step.arguments[position]? = some argument) :
    scopes.resolve scope parameter.label = some (scopes.passed enclosing argument) := by
  have hlabel : (concept.parameters.map Argument.label)[position]? = some parameter.label := by
    simp [hparameter]
  have hbound := lookup_zip_of_nodup hdifferent hlabel hargument
  rw [hnested.resolve_eq h.get?_eq]
  simp [Lookup.get?, hbound]

/-- A name that is no parameter resolves as it does around the call. -/
theorem resolve_other (h : step.IsBound scopes enclosing concept scope) (hnested : scopes.IsNested)
    {name : String} (hname : name ∉ concept.parameters.map Argument.label) :
    scopes.resolve scope name = enclosing.bind fun outer ↦ scopes.resolve outer name := by
  have hbound := lookup_zip_of_not_mem hname step.arguments
  rw [hnested.resolve_eq h.get?_eq]
  simp [Lookup.get?, hbound]

end Step.IsBound

/-- Assumes: concepts and a specification that have been read, an expansion without a mismatch, and a
step at any depth of its trees that has the signature of an admitted concept. The step has a scope, and
as many arguments as the concept has parameters. In this scope every parameter resolves to the argument
in its place, or, if that is a reference, to what the reference resolves to in the enclosing scope, or to
the reference itself where that gives nothing. Every other name resolves as it does in the enclosing
scope, and to nothing at the top. -/
theorem Specification.resolve_expand {concepts : List Concept}
    (hconcepts : ∀ concept ∈ concepts, concept.IsRead) {file : Path} {text : String}
    {spec : Specification} (hspec : Specification.parse file text = .ok spec)
    (hcomplete : (spec.expand (Dictionary.build concepts).1).2 = none) {enclosing : Option ScopeId}
    {step : Step}
    (hstep : (spec.expand (Dictionary.build concepts).1).1.Holds enclosing step) {concept : Concept}
    (hconcept : (Dictionary.build concepts).1.search? step.value = some concept) :
    let scopes := (spec.expand (Dictionary.build concepts).1).1.scopes
    ∃ scope, step.scope = some scope ∧ concept.parameters.length = step.arguments.length ∧
      (∀ (position : Nat) (parameter argument : Argument),
        concept.parameters[position]? = some parameter →
        step.arguments[position]? = some argument →
          scopes.resolve scope parameter.label = some (scopes.passed enclosing argument)) ∧
      ∀ name : String, name ∉ concept.parameters.map Argument.label →
        scopes.resolve scope name = enclosing.bind fun outer ↦ scopes.resolve outer name := by
  have hexpanded := areExpanded_steps_expand hconcepts hspec hcomplete
  have hnested := isNested_scopes_expand concepts hspec
  have hdifferent := (Dictionary.isReady_of_search?_build hconcepts hconcept).nodup_parameters
  obtain ⟨sources, left, hleft, hmem⟩ := hexpanded.exists_of_holds hstep
  obtain ⟨scope, hbound⟩ := hleft.isBound hmem hconcept
  refine ⟨scope, hbound.scope_eq, hbound.length_eq, ?_, ?_⟩
  · intro position parameter argument hparameter hargument
    exact hbound.resolve_parameter hnested hdifferent hparameter hargument
  · intro name hname
    exact hbound.resolve_other hnested hname

/-- The inner invocation of a nested call types the user of the outer one, under another name. -/
theorem Specification.resolve_expand_login :
    let dictionary := (Dictionary.build loginConcepts).1
    let expanded := (repeatedLogin.expand dictionary).1
    (∀ concept ∈ loginConcepts, concept.IsRead) ∧
      Specification.parse ⟨"login.spec"⟩ repeatedLoginText = .ok repeatedLogin ∧
      (repeatedLogin.expand dictionary).2 = none ∧ expanded.Holds (some 0) typingStep ∧
      (dictionary.search? typingStep.value).isSome ∧
      expanded.scopes.resolve 1 "text" = some (.static "alice") ∧
      expanded.scopes.resolve 1 "user" = expanded.scopes.resolve 0 "user" := by
  have hspec : Specification.parse ⟨"login.spec"⟩ repeatedLoginText = .ok repeatedLogin := by decide +kernel
  have hcomplete : (repeatedLogin.expand (Dictionary.build loginConcepts).1).2 = none := by decide +kernel
  have houter : loginStep ∈ (repeatedLogin.expand (Dictionary.build loginConcepts).1).1.steps := by
    have hfirst : (repeatedLogin.expand (Dictionary.build loginConcepts).1).1.steps.head? =
        some loginStep := by decide +kernel
    exact List.mem_of_head? hfirst
  have hinner : (repeatedLogin.expand (Dictionary.build loginConcepts).1).1.Holds (some 0) typingStep :=
    .inside (.top houter) (by simp [loginStep, Step.invoking])
  have hsearch : ((Dictionary.build loginConcepts).1.search? typingStep.value).map Concept.parameters =
      some [.dynamic "text"] := by decide +kernel
  obtain ⟨typing, htyping, hparameters⟩ := Option.map_eq_some_iff.mp hsearch
  obtain ⟨scope, hscope, -, hbound, hother⟩ :=
    resolve_expand isRead_loginConcepts hspec hcomplete hinner htyping
  obtain rfl : 1 = scope := Option.some.inj hscope
  have htext := hbound 0 (.dynamic "text") (.dynamic "user") (by simp [hparameters]) rfl
  have huser := hother "user" (by simp [hparameters, Argument.label])
  refine ⟨isRead_loginConcepts, hspec, hcomplete, hinner, by simp [htyping], ?_, huser⟩
  refine htext.trans ?_
  decide +kernel

end LiveSpec
