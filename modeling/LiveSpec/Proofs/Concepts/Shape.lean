import LiveSpec.Proofs.Concepts.Expansion
import LiveSpec.Proofs.Document.Scope
import LiveSpec.Proofs.Grammar.Reading

/-!
# The shape of expanded trees

What expansion without a mismatch makes of the steps of a specification can be told from the dictionary
and from the lookups at the end (`AreExpanded`): a step that invokes nothing stays exactly as it was
written, and an invocation keeps its own text and arguments, owns the steps of its concept, expanded by
the same rule in its own scope, and has a lookup that binds the parameters in order to the arguments.
Lookups are only ever added (`Expansion.isPrefix`), so the lookup of an invocation is still the same at
the end, and every lookup knows an earlier one (`Expansion.isNested`).

An invocation gets its scope before the steps of its body get theirs, and these before the steps after
it, so the scopes are numbered in the order in which the trees are read
(`Expansion.range_append_scopesOfInvocations`).

All of this needs that the steps to begin with are as they are written and that the parameters of a
concept have different names, which is so when both have been read from texts.
-/

set_option autoImplicit false

namespace LiveSpec

/-! ### What expansion starts from -/

/-- A step that has not been expanded. It is marked as an invocation at most when it is one. -/
structure Step.IsUnexpanded (step : Step) (dictionary : Dictionary) : Prop where
  contains_of_isConcept : step.isConcept = true → dictionary.contains step.value = true
  body_eq : step.body = []
  scope_eq : step.scope = none
  parent_eq : step.parent = none

/-- Parameters with different names, and a body that has not been expanded. -/
structure Concept.IsReady (concept : Concept) (dictionary : Dictionary) : Prop where
  nodup_parameters : (concept.parameters.map Argument.label).Nodup
  isUnexpanded_body : ∀ step ∈ concept.body, step.IsUnexpanded dictionary

theorem Step.IsWritten.isUnexpanded {step : Step} (h : step.IsWritten) (dictionary : Dictionary) :
    step.IsUnexpanded dictionary := by
  refine ⟨fun hconcept ↦ ?_, h.body_eq, h.scope_eq, h.parent_eq⟩
  rw [h.isConcept_eq] at hconcept
  cases hconcept

/-- A step of the dictionary is marked as an invocation exactly when its signature is admitted. -/
theorem Dictionary.isConcept_of_search?_build {concepts : List Concept} {signature : String}
    {concept : Concept} (h : (build concepts).1.search? signature = some concept) {step : Step}
    (hstep : step ∈ concept.body) : step.isConcept = (build concepts).1.contains step.value := by
  change (Std.ExtTreeMap.map _ _)[signature]? = some concept at h
  rw [Std.ExtTreeMap.getElem?_map, Option.map_eq_some_iff] at h
  obtain ⟨definition, -, rfl⟩ := h
  rw [body_markInvocations] at hstep
  obtain ⟨original, -, rfl⟩ := List.mem_map.mp hstep
  exact Std.ExtTreeMap.contains_map.symm

/-- Assumes: concepts that have been read. The admitted ones are ready to be expanded. -/
theorem Dictionary.isReady_of_search?_build {concepts : List Concept}
    (hconcepts : ∀ concept ∈ concepts, concept.IsRead) {signature : String} {concept : Concept}
    (h : (build concepts).1.search? signature = some concept) :
    concept.IsReady (build concepts).1 := by
  obtain ⟨definition, isAdmitted, hmem, -, heq⟩ := search?_build h
  have hwritten := (hconcepts definition hmem).isWritten
  constructor
  · obtain ⟨names, hnames, hnodup⟩ := hwritten.parameters_eq
    have hparameters : concept.parameters = names.map .dynamic := by
      rw [heq]
      exact hnames
    have hlabels : (names.map Argument.dynamic).map Argument.label = names := by
      simp [Function.comp_def, Argument.label]
    rw [hparameters, hlabels]
    exact hnodup
  · intro step hstep
    have hmark := isConcept_of_search?_build h hstep
    rw [heq, body_markInvocations] at hstep
    obtain ⟨original, horiginal, rfl⟩ := List.mem_map.mp hstep
    have hwritten := hwritten.isWritten_body original horiginal
    exact ⟨fun hconcept ↦ hmark.symm.trans hconcept, hwritten.body_eq, hwritten.scope_eq,
      hwritten.parent_eq⟩

/-- A step that has not been expanded and invokes nothing is as it is written. -/
theorem Step.IsUnexpanded.isWritten {step : Step} {dictionary : Dictionary}
    (h : step.IsUnexpanded dictionary) (hnone : dictionary.search? step.value = none) :
    step.IsWritten := by
  refine ⟨Bool.eq_false_iff.mpr fun hconcept ↦ ?_, h.body_eq, h.scope_eq, h.parent_eq⟩
  obtain ⟨concept, hsome⟩ := Dictionary.contains_iff.mp (h.contains_of_isConcept hconcept)
  rw [hnone] at hsome
  cases hsome

/-- A step that invokes nothing is copied as it is. -/
theorem Step.IsWritten.within_eq {step : Step} (h : step.IsWritten) (parent : Option ScopeId) :
    step.within parent = step := by
  cases parent with
  | none => rfl
  | some scope => simp [within, inScope, h.isConcept_eq]

theorem Lookup.parent_ofCall (parent : Option ScopeId) (parameters arguments : List Argument) :
    (Lookup.ofCall parent parameters arguments).parent = parent := parent_setAll _ _

/-- Assumes: parameters with different names, as many as arguments. The lookup of a call binds the
parameters in order to the arguments. -/
theorem Lookup.ofCall_eq {parameters arguments : List Argument}
    (hdifferent : (parameters.map Argument.label).Nodup)
    (hcount : parameters.length = arguments.length) (parent : Option ScopeId) :
    Lookup.ofCall parent parameters arguments =
      ⟨(parameters.map Argument.label).zip arguments, parent⟩ := by
  rw [ofCall, setAll_of_nodup]
  · rfl
  · rw [List.map_fst_zip (by simp [hcount])]
    exact hdifferent

/-! ### What expansion leaves -/

/-- Steps that stand in the scope `enclosing`, and what they are when they are expanded. A step whose
signature is not in the dictionary is left as it was written. An invocation keeps everything but its
mark, its parent, which is the enclosing scope, its scope, whose lookup binds the parameters by position
and knows the enclosing one, and its body, which is that of the concept expanded in its scope. -/
inductive AreExpanded (dictionary : Dictionary) (scopes : Scopes) :
    Option ScopeId → List Step → List Step → Prop
  | nil {enclosing} : AreExpanded dictionary scopes enclosing [] []
  | atomic {enclosing source rest rest'}
      (hnone : dictionary.search? source.value = none)
      (hwritten : source.IsWritten)
      (hrest : AreExpanded dictionary scopes enclosing rest rest') :
      AreExpanded dictionary scopes enclosing (source :: rest) (source :: rest')
  | invocation {enclosing source rest rest' concept scope body}
      (hconcept : dictionary.search? source.value = some concept)
      (hcount : concept.parameters.length = source.arguments.length)
      (hlookup : scopes.get? scope =
        some ⟨(concept.parameters.map Argument.label).zip source.arguments, enclosing⟩)
      (hbody : AreExpanded dictionary scopes (some scope) concept.body body)
      (hrest : AreExpanded dictionary scopes enclosing rest rest') :
      AreExpanded dictionary scopes enclosing (source :: rest)
        ({ source with isConcept := true, parent := enclosing, scope := some scope, body } :: rest')

/-- The scopes of the invocations in some trees, in the order in which the trees are read. -/
def scopesOfInvocations (depth : Nat) (steps : List Step) : List (Option ScopeId) :=
  ((Step.preorderAll depth steps).filter fun entry ↦ entry.2.isConcept).map fun entry ↦ entry.2.scope

theorem scopesOfInvocations_cons_atomic {step : Step} (hmark : step.isConcept = false)
    (hbody : step.body = []) (depth : Nat) (rest : List Step) :
    scopesOfInvocations depth (step :: rest) = scopesOfInvocations depth rest := by
  simp [scopesOfInvocations, Step.preorderAll, Step.preorder_eq, hmark, hbody]

theorem scopesOfInvocations_cons_invoking (step : Step) (parent : Option ScopeId) (scope : ScopeId)
    (body : List Step) (depth : Nat) (rest : List Step) :
    scopesOfInvocations depth (step.invoking parent scope body :: rest) =
      some scope :: scopesOfInvocations (depth + 1) body ++ scopesOfInvocations depth rest := by
  simp [scopesOfInvocations, Step.preorderAll, Step.preorder_eq, Step.invoking]

namespace Expansion

variable {dictionary : Dictionary} {parent : Option ScopeId} {scopes after : Scopes}
  {steps left : List Step} {outcome : Option Mismatch}

/-- Lookups are only added. -/
theorem isPrefix (h : Expansion dictionary parent scopes steps left after outcome) :
    scopes.toList <+: after.toList := by
  induction h with
  | nil => exact List.prefix_rfl
  | atomic _ _ ih => exact ih
  | mismatched => exact List.prefix_rfl
  | invocation _ _ _ _ ihbody ihrest =>
    rw [Scopes.toList_push] at ihbody
    exact (List.prefix_append _ _).trans (ihbody.trans ihrest)
  | stopped _ _ _ ihbody =>
    rw [Scopes.toList_push] at ihbody
    exact (List.prefix_append _ _).trans ihbody

theorem size_le (h : Expansion dictionary parent scopes steps left after outcome) :
    scopes.size ≤ after.size := by
  simpa using h.isPrefix.length_le

/-- Assumes: nested lookups, and a scope that is one of them, if any. The lookups stay nested. -/
theorem isNested (h : Expansion dictionary parent scopes steps left after outcome)
    (hnested : scopes.IsNested) (hparent : ∀ outer ∈ parent, outer < scopes.size) :
    after.IsNested := by
  have hcall : ∀ {parent : Option ScopeId} {scopes : Scopes} (parameters arguments : List Argument),
      scopes.IsNested → (∀ outer ∈ parent, outer < scopes.size) →
        (scopes.push (.ofCall parent parameters arguments)).IsNested := by
    intro parent scopes parameters arguments hnested hparent
    refine hnested.push ?_
    rw [Lookup.parent_ofCall]
    exact hparent
  induction h with
  | nil => exact hnested
  | atomic _ _ ih => exact ih hnested hparent
  | mismatched => exact hnested
  | invocation _ _ hbody _ ihbody ihrest =>
    have hinner := ihbody (hcall _ _ hnested hparent) (by simp)
    have hsize := hbody.size_le
    rw [Scopes.size_push] at hsize
    exact ihrest hinner fun outer houter ↦ Nat.lt_trans (hparent outer houter) hsize
  | stopped _ _ _ ihbody => exact ihbody (hcall _ _ hnested hparent) (by simp)

/-- Assumes: steps and concepts that have not been expanded, and an expansion without a mismatch. The
steps that are left are the expanded ones, whatever lookups are added later. -/
theorem areExpanded (h : Expansion dictionary parent scopes steps left after outcome)
    (hcomplete : outcome = none)
    (hready : ∀ signature concept, dictionary.search? signature = some concept →
      concept.IsReady dictionary)
    (hsteps : ∀ step ∈ steps, step.IsUnexpanded dictionary) {final : Scopes}
    (hfinal : after.toList <+: final.toList) : AreExpanded dictionary final parent steps left := by
  induction h with
  | nil => exact .nil
  | @atomic parent scopes step rest rest' after outcome hnone _ ih =>
    rw [List.forall_mem_cons] at hsteps
    have hwritten := hsteps.1.isWritten hnone
    have hsame : step.within parent = step := hwritten.within_eq parent
    rw [hsame]
    exact .atomic hnone hwritten (ih hcomplete hsteps.2 hfinal)
  | mismatched => cases hcomplete
  | @invocation parent scopes step rest rest' concept body inner after outcome hconcept hcount hbody
      hrest ihbody ihrest =>
    rw [List.forall_mem_cons] at hsteps
    have hconceptReady := hready _ _ hconcept
    have hinner := hrest.isPrefix.trans hfinal
    have hlookup := Scopes.get?_of_isPrefix (hbody.isPrefix.trans hinner)
      (Scopes.get?_push_size scopes (.ofCall parent concept.parameters step.arguments))
    rw [Lookup.ofCall_eq hconceptReady.nodup_parameters hcount] at hlookup
    exact .invocation hconcept hcount hlookup
      (ihbody rfl hconceptReady.isUnexpanded_body hinner) (ihrest hcomplete hsteps.2 hfinal)
  | stopped => cases hcomplete

/-- Assumes: steps and concepts that have not been expanded, and an expansion without a mismatch. The
scopes of the invocations carry on the numbering of the lookups made before. -/
theorem range_append_scopesOfInvocations
    (h : Expansion dictionary parent scopes steps left after outcome) (hcomplete : outcome = none)
    (hready : ∀ signature concept, dictionary.search? signature = some concept →
      concept.IsReady dictionary)
    (hsteps : ∀ step ∈ steps, step.IsUnexpanded dictionary) (depth : Nat) :
    (List.range scopes.size).map some ++ scopesOfInvocations depth left =
      (List.range after.size).map some := by
  induction h generalizing depth with
  | nil => simp [scopesOfInvocations, Step.preorderAll]
  | @atomic parent scopes step rest rest' after outcome hnone _ ih =>
    rw [List.forall_mem_cons] at hsteps
    have hwritten := hsteps.1.isWritten hnone
    have hsame : step.within parent = step := hwritten.within_eq parent
    rw [hsame, scopesOfInvocations_cons_atomic hwritten.isConcept_eq hwritten.body_eq]
    exact ih hcomplete hsteps.2 depth
  | mismatched => cases hcomplete
  | @invocation parent scopes step rest rest' concept body inner after outcome hconcept hcount hbody
      hrest ihbody ihrest =>
    rw [List.forall_mem_cons] at hsteps
    have hbodyScopes := ihbody rfl (hready _ _ hconcept).isUnexpanded_body (depth + 1)
    rw [Scopes.size_push, List.range_succ, List.map_append] at hbodyScopes
    calc (List.range scopes.size).map some ++
          scopesOfInvocations depth (step.invoking parent scopes.size body :: rest')
        = (List.range scopes.size).map some ++ [some scopes.size] ++
            scopesOfInvocations (depth + 1) body ++ scopesOfInvocations depth rest' := by
          rw [scopesOfInvocations_cons_invoking]
          simp
      _ = (List.range inner.size).map some ++ scopesOfInvocations depth rest' := by
          rw [← hbodyScopes]
          rfl
      _ = (List.range after.size).map some := ihrest hcomplete hsteps.2 depth
  | stopped => cases hcomplete

end Expansion

namespace Specification

variable {concepts : List Concept} {file : Path} {text : String} {spec : Specification}

/-- Assumes: a specification that has been read. The steps to expand and its lookups, of which there are
none yet. -/
theorem scopes_of_parse (h : Specification.parse file text = .ok spec) : spec.scopes = .empty := by
  obtain ⟨draft, heading, -, -, rfl⟩ := parse_eq_ok_iff.mp h
  rfl

/-- Expanding a specification with a dictionary that was built follows the rules. -/
theorem expansion_build (concepts : List Concept) (spec : Specification) :
    Expansion (Dictionary.build concepts).1 none spec.scopes spec.steps
      (spec.expand (Dictionary.build concepts).1).1.steps
      (spec.expand (Dictionary.build concepts).1).1.scopes
      (spec.expand (Dictionary.build concepts).1).2 :=
  expansion_expand (Dictionary.not_invokes_self (Dictionary.wellFounded_invokes_build concepts)) spec

/-- Assumes: a specification that has been read. The lookups that its expansion makes are nested. -/
theorem isNested_scopes_expand (concepts : List Concept)
    (hspec : Specification.parse file text = .ok spec) :
    (spec.expand (Dictionary.build concepts).1).1.scopes.IsNested := by
  refine (expansion_build concepts spec).isNested ?_ (by simp)
  rw [scopes_of_parse hspec]
  exact Scopes.isNested_empty

/-- Assumes: concepts and a specification that have been read, and an expansion without a mismatch. -/
theorem areExpanded_steps_expand (hconcepts : ∀ concept ∈ concepts, concept.IsRead)
    (hspec : Specification.parse file text = .ok spec)
    (hcomplete : (spec.expand (Dictionary.build concepts).1).2 = none) :
    AreExpanded (Dictionary.build concepts).1 (spec.expand (Dictionary.build concepts).1).1.scopes none
      spec.steps (spec.expand (Dictionary.build concepts).1).1.steps :=
  (expansion_build concepts spec).areExpanded hcomplete
    (fun _ _ ↦ Dictionary.isReady_of_search?_build hconcepts)
    (fun step hstep ↦ (isWritten_of_parse hspec step hstep).isUnexpanded _) List.prefix_rfl

/-- Assumes: concepts and a specification that have been read, and an expansion without a mismatch. The
steps that are left are the expanded ones, and the scopes of the invocations, read from the first tree to
the last, are the handles of all lookups in order, each once. -/
theorem areExpanded_inOrder_expand (hconcepts : ∀ concept ∈ concepts, concept.IsRead)
    (hspec : Specification.parse file text = .ok spec)
    (hcomplete : (spec.expand (Dictionary.build concepts).1).2 = none) :
    let dictionary := (Dictionary.build concepts).1
    let expanded := (spec.expand dictionary).1
    AreExpanded dictionary expanded.scopes none spec.steps expanded.steps ∧
      scopesOfInvocations 0 expanded.steps = (List.range expanded.scopes.size).map some := by
  have hnumbered := (expansion_build concepts spec).range_append_scopesOfInvocations hcomplete
    (fun _ _ ↦ Dictionary.isReady_of_search?_build hconcepts)
    (fun step hstep ↦ (isWritten_of_parse hspec step hstep).isUnexpanded _) 0
  rw [scopes_of_parse hspec] at hnumbered
  exact ⟨areExpanded_steps_expand hconcepts hspec hcomplete, hnumbered⟩

end Specification

/-- A text in which the concepts `loginConcepts` are defined. -/
def loginConceptText : String :=
  "# Log in as <user>\n* Type <user>\n\n# Type <text>\n* Press keys\n\n# Retry\n* Retry\n* Press keys\n"

theorem isRead_loginConcepts : ∀ concept ∈ loginConcepts, concept.IsRead := by
  have hparse : Concept.parseAll ⟨"login.cpt"⟩ loginConceptText = .ok loginConcepts := by decide +kernel
  exact fun concept hconcept ↦ ⟨_, _, _, hparse, hconcept⟩

/-- A text that invokes one of them in a context, in a scenario and in the teardown. -/
def repeatedLoginText : String :=
  "# Login\n* Log in as \"alice\"\n## Again\n* Log in as \"bob\"\n* Press keys\n___\n* Type \"bye\"\n"

/-- What is read from this text. -/
def repeatedLogin : Specification :=
  ⟨⟨"Login", 1⟩, ⟨"login.spec"⟩,
    [.context (.written "Log in as \x7b\x7d" "Log in as \"alice\"" 2 [.static "alice"]),
      .scenario ⟨⟨"Again", 3⟩, ⟨3, 5⟩,
        [.step (.written "Log in as \x7b\x7d" "Log in as \"bob\"" 4 [.static "bob"]),
          .step (.written "Press keys" "Press keys" 5 [])]⟩,
      .tearDown ⟨6, [.written "Type \x7b\x7d" "Type \"bye\"" 7 [.static "bye"]]⟩], .empty⟩

/-- Two calls with a call inside and one more call make five invocations. -/
theorem Specification.areExpanded_inOrder_expand_login :
    (∀ concept ∈ loginConcepts, concept.IsRead) ∧
      Specification.parse ⟨"login.spec"⟩ repeatedLoginText = .ok repeatedLogin ∧
      (repeatedLogin.expand (Dictionary.build loginConcepts).1).2 = none ∧
      AreExpanded (Dictionary.build loginConcepts).1
        (repeatedLogin.expand (Dictionary.build loginConcepts).1).1.scopes none repeatedLogin.steps
        (repeatedLogin.expand (Dictionary.build loginConcepts).1).1.steps ∧
      scopesOfInvocations 0 (repeatedLogin.expand (Dictionary.build loginConcepts).1).1.steps =
        [some 0, some 1, some 2, some 3, some 4] := by
  have hspec : Specification.parse ⟨"login.spec"⟩ repeatedLoginText = .ok repeatedLogin := by decide +kernel
  have hcomplete : (repeatedLogin.expand (Dictionary.build loginConcepts).1).2 = none := by decide +kernel
  have hsize : (repeatedLogin.expand (Dictionary.build loginConcepts).1).1.scopes.size = 5 := by decide +kernel
  obtain ⟨hshape, hnumbered⟩ :=
    areExpanded_inOrder_expand isRead_loginConcepts hspec hcomplete
  rw [hsize] at hnumbered
  exact ⟨isRead_loginConcepts, hspec, hcomplete, hshape, hnumbered⟩

end LiveSpec
