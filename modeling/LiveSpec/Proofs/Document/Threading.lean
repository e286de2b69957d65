import LiveSpec.Document.Specification
import Mathlib.Data.List.Basic

/-!
# Changing steps in source order

Changing the steps of a specification with a state that is passed along is changing the list of its
steps: the steps of the result, and the state at the end, are those of `threadList` on the steps of
the specification (`Specification.steps_threadSteps`, `Specification.state_threadSteps`). The other
parts of the specification stay as they are.
-/

set_option autoImplicit false

namespace LiveSpec

variable {σ α : Type} (change : σ → α → α × σ)

theorem threadList_cons (state : σ) (member : α) (rest : List α) :
    threadList change state (member :: rest) =
      ((change state member).1 :: (threadList change (change state member).2 rest).1,
        (threadList change (change state member).2 rest).2) := rfl

/-- The state at the end of one list is the state at the start of the next. -/
theorem threadList_append (state : σ) (first second : List α) :
    threadList change state (first ++ second) =
      ((threadList change state first).1 ++
          (threadList change (threadList change state first).2 second).1,
        (threadList change (threadList change state first).2 second).2) := by
  induction first generalizing state with
  | nil => rfl
  | cons member rest ih =>
    rw [List.cons_append, threadList_cons, threadList_cons, ih]
    rfl

/-- Changing owners of members from the first to the last is changing all members. Assumes: changing
one owner is changing its members. -/
theorem threadList_flatMap {β : Type} (members : β → List α) (changeOwner : σ → β → β × σ)
    (howner : ∀ state owner,
      members (changeOwner state owner).1 = (threadList change state (members owner)).1 ∧
        (changeOwner state owner).2 = (threadList change state (members owner)).2)
    (state : σ) (owners : List β) :
    (threadList changeOwner state owners).1.flatMap members =
        (threadList change state (owners.flatMap members)).1 ∧
      (threadList changeOwner state owners).2 =
        (threadList change state (owners.flatMap members)).2 := by
  induction owners generalizing state with
  | nil => exact ⟨rfl, rfl⟩
  | cons owner rest ih =>
    obtain ⟨hmembers, hstate⟩ := howner state owner
    obtain ⟨hrest, hend⟩ := ih (changeOwner state owner).2
    rw [threadList_cons, List.flatMap_cons, List.flatMap_cons, threadList_append]
    rw [hstate] at hrest hend
    exact ⟨by rw [hmembers, hstate, hrest], by rw [hstate, hend]⟩

section Steps

variable (change : σ → Step → Step × σ)

/-- The steps that a scenario item owns: itself, if it is one. -/
theorem ScenarioItem.threadSteps_eq (state : σ) (item : ScenarioItem) :
    (item.threadSteps change state).1.step?.toList =
        (threadList change state item.step?.toList).1 ∧
      (item.threadSteps change state).2 = (threadList change state item.step?.toList).2 := by
  cases item <;> exact ⟨rfl, rfl⟩

theorem SpecItem.threadSteps_eq (state : σ) (item : SpecItem) :
    (item.threadSteps change state).1.steps = (threadList change state item.steps).1 ∧
      (item.threadSteps change state).2 = (threadList change state item.steps).2 := by
  cases item with
  | scenario found =>
    have hitems := threadList_flatMap change (fun item : ScenarioItem ↦ item.step?.toList)
      (ScenarioItem.threadSteps change) (ScenarioItem.threadSteps_eq change) state found.items
    rw [← List.filterMap_eq_flatMap_toList, ← List.filterMap_eq_flatMap_toList] at hitems
    exact hitems
  | comment _ => exact ⟨rfl, rfl⟩
  | tags _ => exact ⟨rfl, rfl⟩
  | dataTable _ => exact ⟨rfl, rfl⟩
  | context _ => exact ⟨rfl, rfl⟩
  | tearDown _ => exact ⟨rfl, rfl⟩

theorem Specification.steps_threadSteps (state : σ) (spec : Specification) :
    (spec.threadSteps change state).1.steps = (threadList change state spec.steps).1 :=
  (threadList_flatMap change SpecItem.steps _ (SpecItem.threadSteps_eq change) state spec.items).1

theorem Specification.state_threadSteps (state : σ) (spec : Specification) :
    (spec.threadSteps change state).2 = (threadList change state spec.steps).2 :=
  (threadList_flatMap change SpecItem.steps _ (SpecItem.threadSteps_eq change) state spec.items).2

end Steps

end LiveSpec
