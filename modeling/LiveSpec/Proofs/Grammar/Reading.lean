import LiveSpec.Grammar.ConceptText
import LiveSpec.Grammar.SpecificationText
import Mathlib.Data.List.Nodup

/-!
# What has been read

A specification or a concept file that has been read is what its lines made of an empty draft
(`Specification.parse_eq_ok_iff`, `Concept.parseAll_eq_ok_iff`), so whatever holds of the empty draft and
passes over every line holds of it (`Draft.readAll_induction`, `ConceptFileDraft.readAll_induction`).

In this way every step that has been read comes from the text of a step and from rows below it
(`Step.IsRead`). This holds of the steps of a specification (`Specification.isRead_of_parse`) and of the
heading and the body of a concept (`Concept.IsRead.isRead_body`). Such steps are as they are written: none
invokes anything, owns steps or stands in a scope (`Step.IsWritten`). The parameters of a concept are
references with different names (`Concept.IsRead.isWritten`).

The steps of a part of a specification are listed in source order (`Part.steps`). A step that is read
comes behind the others, a row changes at most the last of them, and no other line changes any.
-/

set_option autoImplicit false

namespace LiveSpec

/-! ### Outcomes -/

section Outcomes

variable {ε ε' α β : Type}

theorem bind_eq_ok_iff {outcome : Except ε α} {next : α → Except ε β} {result : β} :
    (outcome >>= next) = .ok result ↔ ∃ value, outcome = .ok value ∧ next value = .ok result := by
  cases outcome <;> simp [bind, Except.bind]

theorem exists_bind_iff {outcome : Except ε α} {next : α → Except ε β} :
    (∃ result, (outcome >>= next) = .ok result) ↔
      ∃ value, outcome = .ok value ∧ ∃ result, next value = .ok result := by
  cases outcome <;> simp [bind, Except.bind]

theorem map_eq_ok_iff {outcome : Except ε α} {change : α → β} {result : β} :
    outcome.map change = .ok result ↔ ∃ value, outcome = .ok value ∧ change value = result := by
  cases outcome <;> simp [Except.map]

theorem mapError_eq_ok_iff {outcome : Except ε α} {change : ε → ε'} {result : α} :
    outcome.mapError change = .ok result ↔ outcome = .ok result := by
  cases outcome <;> simp [Except.mapError]

theorem toOption_eq_some_iff {outcome : Except ε α} {result : α} :
    outcome.toOption = some result ↔ outcome = .ok result := by
  cases outcome <;> simp [Except.toOption]

end Outcomes

/-! ### Steps as they are written -/

/-- A step as it stands in a file: it invokes nothing yet, owns no steps and stands in no scope. -/
structure Step.IsWritten (step : Step) : Prop where
  isConcept_eq : step.isConcept = false
  body_eq : step.body = []
  scope_eq : step.scope = none
  parent_eq : step.parent = none

/-- The step that a text is read as consists of the pieces of the text. -/
theorem StepText.exists_pieces_of_parse {text : String} {line : Nat} {step : Step}
    (h : StepText.parse text line = .ok step) :
    ∃ pieces, StepText.read .outside (Text.trim text.toList) = .ok pieces ∧
      step = stepOfPieces pieces (Text.trim text.toList) line := by
  unfold StepText.parse at h
  split at h
  · cases h
  · obtain ⟨pieces, hpieces, rfl⟩ := map_eq_ok_iff.mp h
    exact ⟨pieces, hpieces, rfl⟩

theorem StepText.isWritten_of_parse {text : String} {line : Nat} {step : Step}
    (h : StepText.parse text line = .ok step) : step.IsWritten := by
  obtain ⟨pieces, -, rfl⟩ := exists_pieces_of_parse h
  exact ⟨rfl, rfl, rfl, rfl⟩

/-- A table row changes nothing but the signature and the arguments. -/
theorem Step.IsWritten.readRow {step changed : Step} {inTable : Bool} {cells : List String}
    {line : Nat} (h : step.IsWritten) (hread : step.readRow inTable cells line = .ok changed) :
    changed.IsWritten := by
  unfold Step.readRow at hread
  split at hread
  · obtain ⟨table, -, rfl⟩ := map_eq_ok_iff.mp hread
    exact ⟨h.isConcept_eq, h.body_eq, h.scope_eq, h.parent_eq⟩
  · cases hread
    exact ⟨h.isConcept_eq, h.body_eq, h.scope_eq, h.parent_eq⟩

/-- A step that has been read: from the text of a step, or by a row below a step that had been read. -/
inductive Step.IsRead : Step → Prop
  | ofText {text : String} {line : Nat} {step : Step} (hparse : StepText.parse text line = .ok step) :
    IsRead step
  | withRow {step changed : Step} {inTable : Bool} {cells : List String} {line : Nat} (h : IsRead step)
    (hrow : step.readRow inTable cells line = .ok changed) : IsRead changed

/-- A step that has been read is as it is written. -/
theorem Step.IsRead.isWritten {step : Step} (h : step.IsRead) : step.IsWritten := by
  induction h with
  | ofText hparse => exact StepText.isWritten_of_parse hparse
  | withRow _ hrow ih => exact ih.readRow hrow

/-! ### Reading specifications -/

/-- The steps of a part, in source order. -/
def Part.steps (part : Part) : List Step := part.items.flatMap SpecItem.steps

namespace Part

variable {part next : Part}

@[simp] theorem steps_opening (items : List SpecItem) :
    (opening items).steps = items.reverse.flatMap SpecItem.steps := rfl

@[simp] theorem steps_scenario (before : List SpecItem) (current : ScenarioDraft) :
    (scenario before current).steps = before.reverse.flatMap SpecItem.steps ++
      current.items.reverse.filterMap ScenarioItem.step? := by
  simp [steps, items, closed, SpecItem.steps, Scenario.steps, ScenarioDraft.scenario]

@[simp] theorem steps_tearDown (before : List SpecItem) (marker : Nat) (steps : List Step)
    (comments : List Comment) : (tearDown before marker steps comments).steps =
      before.reverse.flatMap SpecItem.steps ++ steps.reverse := by
  have hcomments : (comments.map SpecItem.comment).reverse.flatMap SpecItem.steps = [] := by
    rw [List.flatMap_eq_nil_iff]
    intro item hitem
    obtain ⟨comment, -, rfl⟩ := List.mem_map.mp (List.mem_reverse.mp hitem)
    rfl
  simp only [Part.steps, items, closed, List.reverse_append, List.reverse_cons,
    List.flatMap_append, hcomments]
  simp [SpecItem.steps]

@[simp] theorem steps_cover (part : Part) (line : Nat) : (part.cover line).steps = part.steps := by
  cases part <;> simp [cover]

@[simp] theorem steps_addComment (part : Part) (comment : Comment) :
    (part.addComment comment).steps = part.steps := by
  cases part <;> simp [addComment, SpecItem.steps, ScenarioDraft.add, ScenarioItem.step?]

@[simp] theorem steps_addStep (part : Part) (step : Step) :
    (part.addStep step).steps = part.steps ++ [step] := by
  cases part <;> simp [addStep, SpecItem.steps, ScenarioDraft.add, ScenarioItem.step?]

@[simp] theorem steps_openTearDown (part : Part) (line : Nat) :
    (part.openTearDown line).steps = part.steps := by
  cases part <;> simp [openTearDown, closed, SpecItem.steps, Scenario.steps, ScenarioDraft.scenario]

theorem steps_addTags {tags : Tags} (h : part.addTags tags = .ok next) :
    next.steps = part.steps := by
  cases part with
  | tearDown => cases h
  | _ =>
    cases h
    simp [SpecItem.steps, ScenarioDraft.add, ScenarioItem.step?]

theorem steps_openScenario {text : String} {line : Nat}
    (h : part.openScenario text line = .ok next) : next.steps = part.steps := by
  cases part with
  | tearDown => cases h
  | _ =>
    cases h
    simp [closed, ScenarioDraft.ofHeading, SpecItem.steps, Scenario.steps, ScenarioDraft.scenario]

theorem steps_openDataTable {cells : List String} {line : Nat}
    (h : part.openDataTable cells line = .ok next) : next.steps = part.steps := by
  cases part with
  | opening items =>
    simp only [openDataTable] at h
    split_ifs at h
    cases h
    simp [SpecItem.steps]
  | _ => cases h

theorem steps_readDataRow {cells : List String} (h : part.readDataRow cells = .ok next) :
    next.steps = part.steps := by
  unfold readDataRow at h
  split at h
  · obtain ⟨table, -, rfl⟩ := map_eq_ok_iff.mp h
    simp [SpecItem.steps]
  · cases h
    rfl

/-- Changing the step that was read last changes the last step and no other. -/
theorem steps_changeLastStep {change : Step → Except Fault Step}
    (h : part.changeLastStep change = .ok next) :
    ∃ front step changed, part.steps = front ++ [step] ∧ change step = .ok changed ∧
      next.steps = front ++ [changed] := by
  unfold changeLastStep at h
  split at h
  · rename_i step items
    obtain ⟨changed, hchanged, rfl⟩ := map_eq_ok_iff.mp h
    exact ⟨(opening items).steps, step, changed, by simp [SpecItem.steps], hchanged,
      by simp [SpecItem.steps]⟩
  · rename_i before heading last step items
    obtain ⟨changed, hchanged, rfl⟩ := map_eq_ok_iff.mp h
    exact ⟨(scenario before ⟨heading, last, items⟩).steps, step, changed,
      by simp [ScenarioItem.step?], hchanged, by simp [ScenarioItem.step?]⟩
  · rename_i before marker step steps comments
    obtain ⟨changed, hchanged, rfl⟩ := map_eq_ok_iff.mp h
    exact ⟨(tearDown before marker steps comments).steps, step, changed, by simp, hchanged,
      by simp⟩
  · cases h

end Part

/-- A row on the next line would be attached to the step above. -/
def RowTarget.hangsOnStep : RowTarget → Bool
  | step => true
  | stepTable => true
  | _ => false

namespace Draft

variable {draft next : Draft} {number : Nat} {line : Line}

/-- What passes over every line that can be read passes over all of them. -/
theorem readAll_induction {motive : Draft → Prop}
    (hread : ∀ draft number line next, motive draft → draft.read number line = .ok next →
      motive next) {lines : List Line} (hall : draft.readAll number lines = .ok next)
    (h : motive draft) : motive next := by
  induction lines generalizing draft number with
  | nil =>
    cases hall
    exact h
  | cons line rest ih =>
    unfold readAll at hall
    split at hall
    · cases hall
    · rename_i after hafter
      exact ih hall (hread draft number line after h hafter)

/-- What a line does to the steps. -/
inductive StepsAfter (draft next : Draft) (number : Nat) : Line → Prop
  /-- The line leaves the steps as they are, and a row below it is not attached to a step. -/
  | kept {other : Line} (hsteps : next.part.steps = draft.part.steps)
    (hnext : next.target.hangsOnStep = false) (hother : ∀ text, other ≠ .step text)
    (hrow : ∀ cells, other = .tableRow cells → draft.target.hangsOnStep = false) :
    StepsAfter draft next number other
  /-- The step that the line is comes last. -/
  | added {text step} (hparse : StepText.parse text number = .ok step) (hnext : next.target = .step)
    (hsteps : next.part.steps = draft.part.steps ++ [step]) : StepsAfter draft next number (.step text)
  /-- The row is read by the last step. -/
  | changed {cells front step changed} (inTable : Bool)
    (htarget : draft.target = if inTable then .stepTable else .step) (hnext : next.target = .stepTable)
    (hbefore : draft.part.steps = front ++ [step])
    (hrow : step.readRow inTable cells number = .ok changed)
    (hsteps : next.part.steps = front ++ [changed]) : StepsAfter draft next number (.tableRow cells)

/-- What a table row does to the steps. -/
theorem stepsAfter_readRow {cells : List String} (h : draft.readRow number cells = .ok next) :
    StepsAfter draft next number (.tableRow cells) := by
  unfold readRow at h
  split at h
  · rename_i htarget
    obtain ⟨_, -, h⟩ := bind_eq_ok_iff.mp h
    obtain ⟨part, hpart, h⟩ := bind_eq_ok_iff.mp h
    cases h
    exact .kept (Part.steps_openDataTable hpart) rfl (by simp)
      fun _ _ ↦ congrArg RowTarget.hangsOnStep htarget
  · rename_i htarget
    obtain ⟨part, hpart, h⟩ := bind_eq_ok_iff.mp h
    cases h
    exact .kept (Part.steps_readDataRow hpart) rfl (by simp)
      fun _ _ ↦ congrArg RowTarget.hangsOnStep htarget
  · rename_i htarget
    obtain ⟨part, hpart, h⟩ := bind_eq_ok_iff.mp h
    cases h
    obtain ⟨front, step, changed, hbefore, hchanged, hsteps⟩ := Part.steps_changeLastStep hpart
    exact .changed false htarget rfl hbefore hchanged hsteps
  · rename_i htarget
    obtain ⟨part, hpart, h⟩ := bind_eq_ok_iff.mp h
    cases h
    obtain ⟨front, step, changed, hbefore, hchanged, hsteps⟩ := Part.steps_changeLastStep hpart
    exact .changed true htarget rfl hbefore hchanged hsteps

/-- What a line does to the steps: the step that it is comes last, a row can change the last one, and
nothing else changes any. -/
theorem stepsAfter_read (h : draft.read number line = .ok next) : StepsAfter draft next number line := by
  unfold read at h
  split at h
  · cases h
    exact .kept rfl rfl (by simp) (by simp)
  · split_ifs at h
    cases h
    exact .kept (Part.steps_cover _ _) rfl (by simp) (by simp)
  · obtain ⟨_, -, h⟩ := bind_eq_ok_iff.mp h
    obtain ⟨part, hpart, h⟩ := bind_eq_ok_iff.mp h
    cases h
    exact .kept (Part.steps_openScenario hpart) rfl (by simp) (by simp)
  · cases h
    exact .kept (by simp) rfl (by simp) (by simp)
  · cases h
    exact .kept (by simp) rfl (by simp) (by simp)
  · obtain ⟨_, -, h⟩ := bind_eq_ok_iff.mp h
    obtain ⟨step, hstep, h⟩ := bind_eq_ok_iff.mp h
    cases h
    exact .added hstep rfl (by simp)
  · obtain ⟨part, hpart, h⟩ := bind_eq_ok_iff.mp h
    cases h
    exact .kept ((Part.steps_addTags hpart).trans (Part.steps_cover _ _)) rfl (by simp) (by simp)
  · obtain ⟨_, -, h⟩ := bind_eq_ok_iff.mp h
    cases h
    exact .kept (Part.steps_openTearDown _ _) rfl (by simp) (by simp)
  · cases stepsAfter_readRow h with
    | kept hsteps hnext hother hrow =>
      exact .kept (hsteps.trans (Part.steps_cover _ _)) hnext hother hrow
    | changed inTable htarget hnext hbefore hrow hsteps =>
      exact .changed inTable htarget hnext ((Part.steps_cover _ _).symm.trans hbefore) hrow hsteps

/-- Assumes: steps that have been read. After one more line they still are. -/
theorem isRead_read (hread : draft.read number line = .ok next)
    (h : ∀ step ∈ draft.part.steps, step.IsRead) : ∀ step ∈ next.part.steps, step.IsRead := by
  intro step hstep
  cases stepsAfter_read hread with
  | kept hsteps =>
    rw [hsteps] at hstep
    exact h step hstep
  | added hparse _ hsteps =>
    rw [hsteps] at hstep
    rcases List.mem_append.mp hstep with hold | hlast
    · exact h step hold
    · rw [List.mem_singleton.mp hlast]
      exact .ofText hparse
  | @changed cells front last changed inTable _ _ hbefore hrow hsteps =>
    rw [hsteps] at hstep
    rw [hbefore] at h
    rcases List.mem_append.mp hstep with hold | hlast
    · exact h step (List.mem_append_left _ hold)
    · rw [List.mem_singleton.mp hlast]
      exact (h last (by simp)).withRow hrow

end Draft

namespace Specification

variable {file : Path} {text : String} {spec : Specification}

/-- A specification that has been read is what the lines of the text made of an empty draft. -/
theorem parse_eq_ok_iff : Specification.parse file text = .ok spec ↔
    ∃ draft heading, Draft.empty.readAll 1 (Line.classifyAll text) = .ok draft ∧
      draft.heading = some heading ∧ spec = ⟨heading, file, draft.part.items, .empty⟩ := by
  rw [Specification.parse, mapError_eq_ok_iff, ofLines, bind_eq_ok_iff]
  refine exists_congr fun draft ↦ ?_
  cases hheading : draft.heading <;> simp [Draft.finish, hheading, eq_comm]

theorem isRead_of_parse (h : Specification.parse file text = .ok spec) :
    ∀ step ∈ spec.steps, step.IsRead := by
  obtain ⟨draft, heading, hread, -, rfl⟩ := parse_eq_ok_iff.mp h
  exact Draft.readAll_induction (motive := fun draft ↦ ∀ step ∈ draft.part.steps, step.IsRead)
    (fun _ _ _ _ hsteps hline ↦ Draft.isRead_read hline hsteps) hread (by simp [Draft.empty])

/-- The steps of a specification that has been read are as they are written. -/
theorem isWritten_of_parse (h : Specification.parse file text = .ok spec) :
    ∀ step ∈ spec.steps, step.IsWritten :=
  fun step hstep ↦ (isRead_of_parse h step hstep).isWritten

end Specification

/-! ### Reading concepts -/

/-- A heading without a faulty parameter declares references, with names that differ from each other and
from those seen before. -/
theorem parameterFault?_eq_none_iff {seen : List String} {parameters : List Argument} :
    parameterFault? seen parameters = none ↔
      ∃ names : List String, parameters = names.map .dynamic ∧ names.Nodup ∧
        ∀ name ∈ names, name ∉ seen := by
  induction parameters generalizing seen with
  | nil => simp [parameterFault?]
  | cons parameter rest ih =>
    cases parameter with
    | dynamic first =>
      by_cases hseen : first ∈ seen
      · have hfault : parameterFault? seen (.dynamic first :: rest) ≠ none := by
          simp [parameterFault?, hseen]
        refine iff_of_false hfault ?_
        rintro ⟨names, hnames, -, hnew⟩
        obtain ⟨name, names, rfl, hfirst, -⟩ := List.map_eq_cons_iff.mp hnames.symm
        cases hfirst
        exact hnew first (by simp) hseen
      · have hrest : parameterFault? seen (.dynamic first :: rest) =
            parameterFault? (first :: seen) rest := by
          simp [parameterFault?, hseen]
        rw [hrest, ih]
        constructor
        · rintro ⟨names, rfl, hnodup, hnew⟩
          refine ⟨first :: names, rfl, List.nodup_cons.mpr ⟨?_, hnodup⟩, ?_⟩
          · intro hmem
            exact hnew first hmem (by simp)
          · intro name hname
            rcases List.mem_cons.mp hname with rfl | hmem
            · exact hseen
            · exact fun hold ↦ hnew name hmem (by simp [hold])
        · rintro ⟨names, hnames, hnodup, hnew⟩
          obtain ⟨name, names, rfl, hfirst, rfl⟩ := List.map_eq_cons_iff.mp hnames.symm
          cases hfirst
          refine ⟨names, rfl, (List.nodup_cons.mp hnodup).2, fun name hname ↦ ?_⟩
          rw [List.mem_cons, not_or]
          refine ⟨?_, hnew name (by simp [hname])⟩
          rintro rfl
          exact (List.nodup_cons.mp hnodup).1 hname
    | _ => simp [parameterFault?, List.map_eq_cons_iff, eq_comm]

/-- A concept as it stands in a file: its parameters are references with different names, and the steps
of its body are as they are written. -/
structure Concept.IsWritten (concept : Concept) : Prop where
  parameters_eq : ∃ names : List String, concept.parameters = names.map .dynamic ∧ names.Nodup
  isWritten_body : ∀ step ∈ concept.body, step.IsWritten

/-- A concept that is being read: its root comes from the text of its heading, which has no faulty
parameter, and the steps of its body have been read. -/
structure ConceptDraft.IsRead (draft : ConceptDraft) : Prop where
  root_eq : ∃ text line, StepText.parse text line = .ok draft.root
  parameterFault?_eq : parameterFault? [] draft.root.arguments = none
  isRead_steps : ∀ step ∈ draft.steps, step.IsRead

theorem ConceptDraft.isRead_ofHeading {text : String} {line : Nat} {draft : ConceptDraft}
    (h : ConceptDraft.ofHeading text line = .ok draft) : draft.IsRead := by
  unfold ofHeading at h
  split at h
  · cases h
  · split at h
    · cases h
    · rename_i root hroot _ hparameters
      cases h
      exact ⟨⟨text, line, hroot⟩, hparameters, by simp⟩

namespace ConceptFileDraft

variable {draft next : ConceptFileDraft} {number : Nat} {line : Line}

/-- What passes over every line that can be read passes over all of them. -/
theorem readAll_induction {motive : ConceptFileDraft → Prop}
    (hread : ∀ draft number line next, motive draft → draft.read number line = .ok next →
      motive next) {lines : List Line} (hall : draft.readAll number lines = .ok next)
    (h : motive draft) : motive next := by
  induction lines generalizing draft number with
  | nil =>
    cases hall
    exact h
  | cons line rest ih =>
    unfold readAll at hall
    split at hall
    · cases hall
    · rename_i after hafter
      exact ih hall (hread draft number line after h hafter)

/-- A table row changes at most the last step of the newest concept. -/
theorem isRead_readRow {cells : List String} (hread : draft.readRow number cells = .ok next)
    (h : ∀ concept ∈ draft.concepts, concept.IsRead) : ∀ concept ∈ next.concepts, concept.IsRead := by
  unfold readRow at hread
  split at hread
  · cases hread
  · rename_i root step steps earlier hconcepts _
    obtain ⟨extended, hextended, rfl⟩ := map_eq_ok_iff.mp hread
    rw [hconcepts] at h
    have hnewest := h ⟨root, step :: steps⟩ (by simp)
    intro concept hconcept
    rcases List.mem_cons.mp hconcept with rfl | hearlier
    · refine ⟨hnewest.root_eq, hnewest.parameterFault?_eq, fun other hother ↦ ?_⟩
      rcases List.mem_cons.mp hother with rfl | hold
      · exact (hnewest.isRead_steps step (by simp)).withRow hextended
      · exact hnewest.isRead_steps other (by simp [hold])
    · exact h concept (by simp [hearlier])
  · cases hread

/-- Assumes: concepts that have been read. After one more line they still are. -/
theorem isRead_read (hread : draft.read number line = .ok next)
    (h : ∀ concept ∈ draft.concepts, concept.IsRead) : ∀ concept ∈ next.concepts, concept.IsRead := by
  unfold read at hread
  split at hread
  · obtain ⟨_, -, hread⟩ := bind_eq_ok_iff.mp hread
    obtain ⟨opened, hopened, hread⟩ := bind_eq_ok_iff.mp hread
    cases hread
    intro concept hconcept
    rcases List.mem_cons.mp hconcept with rfl | hearlier
    · exact ConceptDraft.isRead_ofHeading (mapError_eq_ok_iff.mp hopened)
    · exact h concept hearlier
  · split at hread
    · cases hread
    · rename_i root steps earlier hconcepts
      obtain ⟨step, hstep, hread⟩ := bind_eq_ok_iff.mp hread
      cases hread
      rw [hconcepts] at h
      have hnewest := h ⟨root, steps⟩ (by simp)
      have hnew : step.IsRead := .ofText (mapError_eq_ok_iff.mp hstep)
      intro concept hconcept
      rcases List.mem_cons.mp hconcept with rfl | hearlier
      · exact ⟨hnewest.root_eq, hnewest.parameterFault?_eq,
          List.forall_mem_cons.mpr ⟨hnew, hnewest.isRead_steps⟩⟩
      · exact h concept (by simp [hearlier])
  · exact isRead_readRow (mapError_eq_ok_iff.mp hread) h
  · cases hread
    exact h

end ConceptFileDraft

namespace Concept

variable {file : Path} {text : String} {concepts : List Concept}

/-- The concepts that have been read are what the lines of the text made of an empty draft. -/
theorem parseAll_eq_ok_iff : Concept.parseAll file text = .ok concepts ↔
    ∃ draft, ConceptFileDraft.empty.readAll 1 (Line.classifyAll text) = .ok draft ∧
      draft.requireSteps = .ok () ∧
        concepts = (draft.concepts.map fun concept ↦ concept.concept file).reverse := by
  rw [parseAll, mapError_eq_ok_iff, ofLines, bind_eq_ok_iff]
  refine exists_congr fun draft ↦ and_congr_right fun _ ↦ ?_
  rw [ConceptFileDraft.finish, bind_eq_ok_iff]
  constructor
  · rintro ⟨⟨⟩, hsteps, hconcepts⟩
    cases hconcepts
    exact ⟨hsteps, rfl⟩
  · rintro ⟨hsteps, rfl⟩
    exact ⟨(), hsteps, rfl⟩

/-- The concept has been read from a text. -/
def IsRead (concept : Concept) : Prop :=
  ∃ file text concepts, Concept.parseAll file text = .ok concepts ∧ concept ∈ concepts

namespace IsRead

variable {concept : Concept}

/-- A concept that has been read is what became of a draft. -/
theorem exists_draft (h : concept.IsRead) :
    ∃ (file : Path) (draft : ConceptDraft), draft.IsRead ∧ concept = draft.concept file := by
  obtain ⟨file, text, concepts, hparse, hmem⟩ := h
  obtain ⟨draft, hread, -, rfl⟩ := parseAll_eq_ok_iff.mp hparse
  have hall : ∀ concept ∈ draft.concepts, concept.IsRead :=
    ConceptFileDraft.readAll_induction (motive := fun draft ↦ ∀ concept ∈ draft.concepts,
        ConceptDraft.IsRead concept)
      (fun _ _ _ _ hconcepts hline ↦ ConceptFileDraft.isRead_read hline hconcepts) hread
      (by simp [ConceptFileDraft.empty])
  obtain ⟨read, hin, rfl⟩ := List.mem_map.mp (List.mem_reverse.mp hmem)
  exact ⟨file, read, hall read hin, rfl⟩

theorem isRead_body (h : concept.IsRead) : ∀ step ∈ concept.body, step.IsRead := by
  obtain ⟨file, draft, hdraft, rfl⟩ := h.exists_draft
  exact fun step hstep ↦ hdraft.isRead_steps step (List.mem_reverse.mp hstep)

/-- A concept that has been read is as it is written. -/
theorem isWritten (h : concept.IsRead) : concept.IsWritten := by
  refine ⟨?_, fun step hstep ↦ (h.isRead_body step hstep).isWritten⟩
  obtain ⟨file, draft, hdraft, rfl⟩ := h.exists_draft
  obtain ⟨names, hnames, hnodup, -⟩ := parameterFault?_eq_none_iff.mp hdraft.parameterFault?_eq
  exact ⟨names, hnames, hnodup⟩

end IsRead

end Concept

end LiveSpec
