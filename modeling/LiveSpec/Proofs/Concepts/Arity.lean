import LiveSpec.Proofs.Concepts.Shape
import LiveSpec.Proofs.Grammar.Placeholders

/-!
# Signatures and the number of arguments

A call finds its concept by the signature, and the signature has a placeholder for every argument. Two
signatures that are equal therefore come with equally many arguments, unless one of the texts has a pair of
braces of its own, which looks like a placeholder (`Step.IsCounted.length_add_ownPlaceholders`). Expansion
stops for no other reason: where a call does not match its concept, the text of the call and that of the
concept have different numbers of such pairs (`Specification.exists_call_of_expand_stopped`).
-/

set_option autoImplicit false

namespace LiveSpec

/-- Assumes: two counted steps with the same signature. Their arguments and the placeholders that their
texts have of their own make the same number. -/
theorem Step.IsCounted.length_add_ownPlaceholders {step other : Step} (hstep : step.IsCounted)
    (hother : other.IsCounted) (hvalue : step.value = other.value) :
    step.arguments.length + StepText.ownPlaceholders step.text =
      other.arguments.length + StepText.ownPlaceholders other.text := by
  rw [← hstep, ← hother, hvalue]

/-- Tables that are attached are as many arguments and placeholders more. -/
theorem Step.IsCounted.addTables {step : Step} (h : step.IsCounted) (tables : List Table) :
    (tables.foldl Step.addTable step).IsCounted ∧ (tables.foldl Step.addTable step).text = step.text := by
  induction tables generalizing step with
  | nil => exact ⟨h, rfl⟩
  | cons table rest ih => exact ih (h.addTable table)

/-- The heading of a concept is the text of a step. -/
theorem Concept.IsRead.isCounted_root {concept : Concept} (h : concept.IsRead) :
    concept.root.IsCounted := by
  obtain ⟨file, draft, hdraft, rfl⟩ := h.exists_draft
  obtain ⟨text, line, hroot⟩ := hdraft.root_eq
  have hcounted : draft.root.IsCounted := StepText.isCounted_of_parse hroot
  exact hcounted

namespace Expansion

variable {dictionary : Dictionary} {parent : Option ScopeId} {scopes after : Scopes}
  {steps left : List Step} {outcome : Option Mismatch}

/-- The call that a mismatch is about is one of the steps that are expanded or stands in a body of the
dictionary. -/
theorem exists_call (h : Expansion dictionary parent scopes steps left after outcome)
    {mismatch : Mismatch} (hstopped : outcome = some mismatch) :
    ∃ step concept, dictionary.search? step.value = some concept ∧
      concept.parameters.length ≠ step.arguments.length ∧ mismatch = .ofCall concept step ∧
      (step ∈ steps ∨ ∃ signature caller, dictionary.search? signature = some caller ∧
        step ∈ caller.body) := by
  induction h with
  | nil => cases hstopped
  | atomic _ _ ih =>
    obtain ⟨step, concept, hconcept, hcount, hmismatch, hplace⟩ := ih hstopped
    exact ⟨step, concept, hconcept, hcount, hmismatch, hplace.imp_left (List.mem_cons_of_mem _)⟩
  | @mismatched parent scopes step rest concept hconcept hcount =>
    exact ⟨step, concept, hconcept, hcount, (Option.some.inj hstopped).symm, .inl List.mem_cons_self⟩
  | invocation _ _ _ _ _ ih =>
    obtain ⟨step, concept, hconcept, hcount, hmismatch, hplace⟩ := ih hstopped
    exact ⟨step, concept, hconcept, hcount, hmismatch, hplace.imp_left (List.mem_cons_of_mem _)⟩
  | @stopped parent scopes caller rest called body inner mismatch hcalled _ _ ih =>
    obtain ⟨step, concept, hconcept, hcount, hmismatch, hplace⟩ := ih hstopped
    refine ⟨step, concept, hconcept, hcount, hmismatch, .inr ?_⟩
    exact hplace.elim (fun hbody ↦ ⟨caller.value, called, hcalled, hbody⟩) id

end Expansion

/-- A step of an admitted concept is one of a given concept, but for its mark. -/
theorem Dictionary.exists_original_of_mem_body {concepts : List Concept} {signature : String}
    {concept : Concept} (h : (build concepts).1.search? signature = some concept) {step : Step}
    (hstep : step ∈ concept.body) :
    ∃ definition ∈ concepts, ∃ original ∈ definition.body, ∃ isConcept,
      step = { original with isConcept } := by
  obtain ⟨definition, isAdmitted, hmem, -, rfl⟩ := search?_build h
  rw [body_markInvocations] at hstep
  obtain ⟨original, horiginal, rfl⟩ := List.mem_map.mp hstep
  exact ⟨definition, hmem, original, horiginal, _, rfl⟩

namespace Specification

variable {concepts : List Concept} {file : Path} {text : String} {spec : Specification}

/-- Assumes: concepts and a specification that have been read, and an expansion that stopped. It did so at
a step of the specification or of a concept that calls a concept with the same signature, and the text of
the call has another number of placeholders of its own than that of the concept. -/
theorem exists_call_of_expand_stopped (hconcepts : ∀ concept ∈ concepts, concept.IsRead)
    (hspec : Specification.parse file text = .ok spec) {mismatch : Mismatch}
    (hstopped : (spec.expand (Dictionary.build concepts).1).2 = some mismatch) :
    ∃ call concept, (call ∈ spec.steps ∨ ∃ caller ∈ concepts, call ∈ caller.body) ∧
      concept ∈ concepts ∧ concept.signature = call.value ∧ mismatch = .ofCall concept call ∧
      StepText.ownPlaceholders call.text ≠ StepText.ownPlaceholders concept.root.text := by
  obtain ⟨step, admitted, hadmitted, hcount, hmismatch, hplace⟩ :=
    (expansion_build concepts spec).exists_call hstopped
  obtain ⟨concept, isAdmitted, hmem, hsignature, rfl⟩ := Dictionary.search?_build hadmitted
  -- The call as it was read: an admitted body holds a copy of it with a mark.
  obtain ⟨call, hcall, hread, isConcept, rfl⟩ : ∃ call : Step,
      (call ∈ spec.steps ∨ ∃ caller ∈ concepts, call ∈ caller.body) ∧ call.IsRead ∧
        ∃ isConcept, step = { call with isConcept } := by
    rcases hplace with hspecStep | ⟨signature, caller, hcaller, hbody⟩
    · exact ⟨step, .inl hspecStep, isRead_of_parse hspec step hspecStep, step.isConcept, by cases step; rfl⟩
    · obtain ⟨definition, hdefinition, original, horiginal, isConcept, hsame⟩ :=
        Dictionary.exists_original_of_mem_body hcaller hbody
      exact ⟨original, .inr ⟨definition, hdefinition, horiginal⟩,
        (hconcepts definition hdefinition).isRead_body original horiginal, isConcept, hsame⟩
  refine ⟨call, concept, hcall, hmem, hsignature, hmismatch, fun hown ↦ hcount ?_⟩
  have htotal := (hconcepts concept hmem).isCounted_root.length_add_ownPlaceholders hread.isCounted
    hsignature
  show concept.root.arguments.length = call.arguments.length
  omega

end Specification

/-- A step that has been read, or the root of a concept that has been. -/
def Step.IsFromText (step : Step) : Prop :=
  step.IsRead ∨ ∃ concept : Concept, concept.IsRead ∧ step = concept.root

theorem Step.IsFromText.isCounted {step : Step} (h : step.IsFromText) : step.IsCounted := by
  rcases h with hstep | ⟨concept, hconcept, rfl⟩
  · exact hstep.isCounted
  · exact hconcept.isCounted_root

/-- The signature that a text is read as has one placeholder for each argument, with or without tables, and
one for each pair of braces that the text has of its own. Steps and concepts with the same signature and
equally many such pairs have equally many arguments. Expansion stops only at a call whose text has another
number of such pairs than that of the concept. -/
theorem arity_of_signature :
    (∀ (text : String) (line : Nat) (step : Step) (tables : List Table),
      StepText.parse text line = .ok step →
      countPlaceholders (tables.foldl Step.addTable step).value.toList =
        (tables.foldl Step.addTable step).arguments.length + StepText.ownPlaceholders text) ∧
    (∀ step other : Step, step.IsFromText → other.IsFromText → step.value = other.value →
      StepText.ownPlaceholders step.text = StepText.ownPlaceholders other.text →
      step.arguments.length = other.arguments.length) ∧
    ∀ (concepts : List Concept) (file : Path) (text : String) (spec : Specification),
      (∀ concept ∈ concepts, concept.IsRead) → Specification.parse file text = .ok spec →
      ∀ mismatch, (spec.expand (Dictionary.build concepts).1).2 = some mismatch →
        ∃ call concept, (call ∈ spec.steps ∨ ∃ caller ∈ concepts, call ∈ caller.body) ∧
          concept ∈ concepts ∧ concept.signature = call.value ∧ mismatch = .ofCall concept call ∧
          StepText.ownPlaceholders call.text ≠ StepText.ownPlaceholders concept.root.text := by
  refine ⟨fun text line step tables hparse ↦ ?_, fun step other hstep hother hvalue hown ↦ ?_,
    fun concepts file text spec hconcepts hspec mismatch hstopped ↦
      Specification.exists_call_of_expand_stopped hconcepts hspec hstopped⟩
  · obtain ⟨hcounted, htext⟩ := (StepText.isCounted_of_parse hparse).addTables tables
    rw [hcounted, htext, StepText.ownPlaceholders_of_parse hparse]
  · have htotal := hstep.isCounted.length_add_ownPlaceholders hother.isCounted hvalue
    omega

/-- A text in which a concept with a parameter is defined. -/
def sayConceptText : String := "# Say <word>\n* Speak\n"

/-- The concept that is read from it. -/
def sayConcept : Concept :=
  .ofRoot ⟨"say.cpt"⟩
    { Step.written "Say \x7b\x7d" "Say <word>" 1 [.dynamic "word"] with
      body := [.written "Speak" "Speak" 2 []] }

/-- A text with a step that has a pair of braces instead of an argument. -/
def sayBracesText : String := "# Talk\n* Say \x7b\x7d\n"

/-- The step that is read from it. -/
def sayBracesStep : Step := .written "Say \x7b\x7d" "Say \x7b\x7d" 2 []

/-- What is read from this text. -/
def sayBraces : Specification := ⟨⟨"Talk", 1⟩, ⟨"talk.spec"⟩, [.context sayBracesStep], .empty⟩

theorem isRead_sayConcept : sayConcept.IsRead :=
  ⟨⟨"say.cpt"⟩, sayConceptText, [sayConcept], by decide +kernel, List.mem_singleton_self _⟩

/-- A table below a step with a literal makes two arguments and two placeholders, and the call with a pair
of braces of its own is where the expansion stops. -/
theorem arity_of_signature_say :
    StepText.parse "Say \"hi\"" 3 = .ok (.written "Say \x7b\x7d" "Say \"hi\"" 3 [.static "hi"]) ∧
      countPlaceholders "Say \x7b\x7d \x7b\x7d".toList = 2 + StepText.ownPlaceholders "Say \"hi\"" ∧
      (∀ concept ∈ [sayConcept], concept.IsRead) ∧
      Specification.parse ⟨"talk.spec"⟩ sayBracesText = .ok sayBraces ∧
      (sayBraces.expand (Dictionary.build [sayConcept]).1).2 = some ⟨"Say \x7b\x7d", 1, 0, 2⟩ ∧
      ∃ call concept, (call ∈ sayBraces.steps ∨ ∃ caller ∈ [sayConcept], call ∈ caller.body) ∧
        concept ∈ [sayConcept] ∧ concept.signature = call.value ∧
        ⟨"Say \x7b\x7d", 1, 0, 2⟩ = Mismatch.ofCall concept call ∧
        StepText.ownPlaceholders call.text ≠ StepText.ownPlaceholders concept.root.text := by
  have hparse : StepText.parse "Say \"hi\"" 3 =
      .ok (.written "Say \x7b\x7d" "Say \"hi\"" 3 [.static "hi"]) := by decide +kernel
  have hconcepts : ∀ concept ∈ [sayConcept], concept.IsRead := by
    simpa using isRead_sayConcept
  have hspec : Specification.parse ⟨"talk.spec"⟩ sayBracesText = .ok sayBraces := by decide +kernel
  have hstopped : (sayBraces.expand (Dictionary.build [sayConcept]).1).2 =
      some ⟨"Say \x7b\x7d", 1, 0, 2⟩ := by decide +kernel
  have htable := arity_of_signature.1 "Say \"hi\"" 3 _ [⟨["word"], [], 4⟩] hparse
  exact ⟨hparse, htable, hconcepts, hspec, hstopped,
    arity_of_signature.2.2 _ _ _ _ hconcepts hspec _ hstopped⟩

/-- The pair of braces in the step looks like a placeholder, but there is no argument for it. The concept
has the same signature and one parameter, and so the expansion stops. -/
theorem exists_arity_mismatch_say :
    StepText.parse "Say \x7b\x7d" 2 = .ok sayBracesStep ∧
      countPlaceholders sayBracesStep.value.toList = 1 ∧ sayBracesStep.arguments.length = 0 ∧
      Concept.parseAll ⟨"say.cpt"⟩ sayConceptText = .ok [sayConcept] ∧
      sayConcept.signature = sayBracesStep.value ∧ sayConcept.parameters.length = 1 ∧
      Specification.parse ⟨"talk.spec"⟩ sayBracesText = .ok sayBraces ∧
      (sayBraces.expand (Dictionary.build [sayConcept]).1).2 = some ⟨"Say \x7b\x7d", 1, 0, 2⟩ := by
  refine ⟨?_, ?_, rfl, ?_, rfl, rfl, ?_, ?_⟩
  · decide +kernel
  · decide
  · decide +kernel
  · decide +kernel
  · decide +kernel

end LiveSpec
