import LiveSpec.Proofs.Document.Threading

/-!
# Putting other steps in the places of the old ones

A specification that is given other steps (`Specification.withSteps`) keeps its heading and its items as they are,
apart from these. Changing the steps of a specification in source order is that and nothing else, whatever state is
passed along (`Specification.threadSteps_eq_withSteps`): the result is the same specification with the steps that it
ends up with.
-/

set_option autoImplicit false

namespace LiveSpec

/-- Takes the first step that waits in place of the given one, which stays when none waits. -/
def takeWaiting (waiting : List Step) (step : Step) : Step × List Step :=
  (waiting.headD step, waiting.tail)

/-- The specification with other steps in the places of its own, the first one in the place of the first. -/
def Specification.withSteps (spec : Specification) (steps : List Step) : Specification :=
  (spec.threadSteps takeWaiting steps).1

/-- Assumes: an owner that is given the members it ended up with is the owner that they belong to. So it is with
owners one after another. -/
theorem threadList_takeWaiting {σ β : Type} (members : β → List Step) (change : σ → β → β × σ)
    (fill : List Step → β → β × List Step)
    (howner : ∀ state owner waiting,
      fill (members (change state owner).1 ++ waiting) owner = ((change state owner).1, waiting))
    (state : σ) (owners : List β) (waiting : List Step) :
    threadList fill ((threadList change state owners).1.flatMap members ++ waiting) owners =
      ((threadList change state owners).1, waiting) := by
  induction owners generalizing state with
  | nil => rfl
  | cons owner rest ih =>
    rw [threadList_cons change, List.flatMap_cons, List.append_assoc, threadList_cons, howner, ih]

section Steps

variable {σ : Type} (change : σ → Step → Step × σ)

theorem ScenarioItem.threadSteps_takeWaiting (state : σ) (item : ScenarioItem) (waiting : List Step) :
    item.threadSteps takeWaiting ((item.threadSteps change state).1.step?.toList ++ waiting) =
      ((item.threadSteps change state).1, waiting) := by
  cases item <;> rfl

theorem SpecItem.threadSteps_takeWaiting (state : σ) (item : SpecItem) (waiting : List Step) :
    item.threadSteps takeWaiting ((item.threadSteps change state).1.steps ++ waiting) =
      ((item.threadSteps change state).1, waiting) := by
  cases item with
  | scenario found =>
    have hitems := threadList_takeWaiting (fun item : ScenarioItem ↦ item.step?.toList)
      (ScenarioItem.threadSteps change) (ScenarioItem.threadSteps takeWaiting)
      (ScenarioItem.threadSteps_takeWaiting change) state found.items waiting
    rw [← List.filterMap_eq_flatMap_toList] at hitems
    simp only [threadSteps, steps, Scenario.steps, hitems]
  | tearDown found =>
    have hsteps := threadList_takeWaiting (fun step : Step ↦ [step]) change takeWaiting
      (fun _ _ _ ↦ rfl) state found.steps waiting
    rw [List.flatMap_singleton'] at hsteps
    simp only [threadSteps, steps, hsteps]
  | comment _ => rfl
  | tags _ => rfl
  | dataTable _ => rfl
  | context _ => rfl

/-- Changing the steps of a specification is putting others in their places. -/
theorem Specification.threadSteps_eq_withSteps (state : σ) (spec : Specification) :
    (spec.threadSteps change state).1 = spec.withSteps (spec.threadSteps change state).1.steps := by
  have hitems := threadList_takeWaiting SpecItem.steps (SpecItem.threadSteps change)
    (SpecItem.threadSteps takeWaiting) (SpecItem.threadSteps_takeWaiting change) state spec.items []
  rw [List.append_nil] at hitems
  simp only [withSteps, threadSteps, steps, hitems]

end Steps

end LiveSpec
