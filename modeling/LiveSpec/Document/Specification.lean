import LiveSpec.Document.Step
import LiveSpec.Path.Basic

/-!
# Specifications and concepts

A specification has a heading and a list of items in source order: comments, tags, a data table,
context steps, scenarios and a teardown. A scenario has a heading, the span of lines that it covers
and items of its own. The lists of contexts, scenarios, teardown steps and so on are views of the
items (`Specification.contexts`, `Specification.steps`), so they always agree with them.

The steps at the top level can be changed in source order while a state is passed from one to the
next (`Specification.threadSteps`); everything else stays where it is.

A concept is a named sequence of steps. Its root step carries the signature by which it is invoked,
the parameters and the body.
-/

set_option autoImplicit false

namespace LiveSpec

/-- Inclusive range of lines. -/
structure Span where
  first : Nat
  last : Nat
  deriving DecidableEq, Repr, Inhabited

/-- Whether a line is in the range, its ends included. -/
def Span.contains (span : Span) (line : Nat) : Bool := span.first ≤ line && line ≤ span.last

/-- A heading and its line. -/
structure Heading where
  value : String
  line : Nat
  deriving DecidableEq, Repr, Inhabited

/-- A line of prose. -/
structure Comment where
  value : String
  line : Nat
  deriving DecidableEq, Repr, Inhabited

/-- A line of tags. -/
structure Tags where
  values : List String
  line : Nat
  deriving DecidableEq, Repr, Inhabited

/-- What a scenario is made of. -/
inductive ScenarioItem where
  | comment (comment : Comment)
  | tags (tags : Tags)
  | step (step : Step)
  deriving DecidableEq, Repr, Inhabited

/-- A scenario: its heading, the lines it covers and its items in order. -/
structure Scenario where
  heading : Heading
  span : Span
  items : List ScenarioItem
  deriving DecidableEq, Repr, Inhabited

/-- The marker line of the teardown and the steps after it. -/
structure TearDown where
  line : Nat
  steps : List Step
  deriving DecidableEq, Repr, Inhabited

/-- What a specification is made of. -/
inductive SpecItem where
  | comment (comment : Comment)
  | tags (tags : Tags)
  | dataTable (table : Table)
  /-- A step that is run before every scenario. -/
  | context (step : Step)
  | scenario (scenario : Scenario)
  | tearDown (tearDown : TearDown)
  deriving DecidableEq, Repr, Inhabited

/-- A parsed specification, with the lookups that expansion made for it. -/
structure Specification where
  heading : Heading
  file : Path
  items : List SpecItem
  scopes : Scopes
  deriving DecidableEq, Repr, Inhabited

/-- A concept and the file that defines it. -/
structure Concept where
  file : Path
  /-- The root step: its arguments are the parameters and its body the steps of the concept. -/
  root : Step
  deriving DecidableEq, Repr, Inhabited

/-! ### Concepts -/

namespace Concept

/-- The concept that a root step defines. -/
def ofRoot (file : Path) (root : Step) : Concept := ⟨file, { root with isConcept := true }⟩

/-- The signature by which the concept is invoked. -/
def signature (concept : Concept) : String := concept.root.value

/-- The declared parameters. -/
def parameters (concept : Concept) : List Argument := concept.root.arguments

/-- The steps that an invocation stands for. -/
def body (concept : Concept) : List Step := concept.root.body

/-- The line of the definition. -/
def line (concept : Concept) : Nat := concept.root.line

end Concept

/-! ### Views of items -/

/-- The step that a scenario item is, if it is one. -/
def ScenarioItem.step? : ScenarioItem → Option Step
  | step found => some found
  | _ => none

/-- The tags that a scenario item is, if it is that. -/
def ScenarioItem.tags? : ScenarioItem → Option Tags
  | tags found => some found
  | _ => none

namespace Scenario

/-- The steps of a scenario in order. -/
def steps (scenario : Scenario) : List Step := scenario.items.filterMap ScenarioItem.step?

/-- The first tags of a scenario. -/
def tags? (scenario : Scenario) : Option Tags := scenario.items.findSome? ScenarioItem.tags?

end Scenario

namespace SpecItem

/-- The context step that an item is, if it is one. -/
def context? : SpecItem → Option Step
  | context step => some step
  | _ => none

/-- The scenario that an item is, if it is one. -/
def scenario? : SpecItem → Option Scenario
  | scenario found => some found
  | _ => none

/-- The teardown that an item is, if it is one. -/
def tearDown? : SpecItem → Option TearDown
  | tearDown found => some found
  | _ => none

/-- The tags that an item is, if it is that. -/
def tags? : SpecItem → Option Tags
  | tags found => some found
  | _ => none

/-- The data table that an item is, if it is one. -/
def dataTable? : SpecItem → Option Table
  | dataTable table => some table
  | _ => none

/-- The steps that an item owns, in source order. -/
def steps : SpecItem → List Step
  | context step => [step]
  | scenario found => found.steps
  | tearDown found => found.steps
  | comment _ => []
  | tags _ => []
  | dataTable _ => []

end SpecItem

/-- An item of a specification or of one of its scenarios. -/
inductive AnyItem where
  | ofSpecification (item : SpecItem)
  | ofScenario (item : ScenarioItem)
  deriving Repr, Inhabited

/-- An item of a specification, followed by its own items when it is a scenario. -/
def SpecItem.flatten (item : SpecItem) : List AnyItem :=
  .ofSpecification item ::
    match item.scenario? with
    | some found => found.items.map .ofScenario
    | none => []

namespace Specification

/-- The context steps in order. -/
def contexts (spec : Specification) : List Step := spec.items.filterMap SpecItem.context?

/-- The scenarios in order. -/
def scenarios (spec : Specification) : List Scenario := spec.items.filterMap SpecItem.scenario?

/-- The teardown steps in order. -/
def tearDownSteps (spec : Specification) : List Step :=
  (spec.items.filterMap SpecItem.tearDown?).flatMap TearDown.steps

/-- The first tags of the specification itself. -/
def tags? (spec : Specification) : Option Tags := spec.items.findSome? SpecItem.tags?

/-- The first data table. -/
def dataTable? (spec : Specification) : Option Table := spec.items.findSome? SpecItem.dataTable?

/-- The steps of contexts, scenarios and teardown, in source order. -/
def steps (spec : Specification) : List Step := spec.items.flatMap SpecItem.steps

/-- The items that are not scenarios, in source order. -/
def properItems (spec : Specification) : List SpecItem :=
  spec.items.filter fun item ↦ item.scenario?.isNone

/-- Every item, each scenario followed by its own. -/
def allItems (spec : Specification) : List AnyItem := spec.items.flatMap SpecItem.flatten

/-- The scenario that comes last. -/
def lastScenario? (spec : Specification) : Option Scenario := spec.scenarios.getLast?

/-- The context step that comes last. -/
def lastContext? (spec : Specification) : Option Step := spec.contexts.getLast?

/-- The teardown step that comes last. -/
def lastTearDownStep? (spec : Specification) : Option Step := spec.tearDownSteps.getLast?

/-- Adds an item at the end. -/
def addItem (spec : Specification) (item : SpecItem) : Specification :=
  { spec with items := spec.items ++ [item] }

/-- Takes out the item at a position. There is no result when there is no such item. -/
def removeItem? (spec : Specification) (index : Nat) : Option (SpecItem × Specification) :=
  spec.items[index]?.map fun item ↦ (item, { spec with items := spec.items.eraseIdx index })

/-- Keeps the items that pass a test. -/
def retainItems (spec : Specification) (keep : SpecItem → Bool) : Specification :=
  { spec with items := spec.items.filter keep }

end Specification

/-! ### Changing steps in place -/

/-- Changes the members of a list from the first to the last, passing a state along. -/
def threadList {σ α : Type} (change : σ → α → α × σ) : σ → List α → List α × σ
  | state, [] => ([], state)
  | state, member :: rest =>
    let (member, state) := change state member
    let (rest, state) := threadList change state rest
    (member :: rest, state)

section Threading

variable {σ : Type} (change : σ → Step → Step × σ)

/-- Changes the step that a scenario item is. -/
def ScenarioItem.threadSteps (state : σ) : ScenarioItem → ScenarioItem × σ
  | step found =>
    let (changed, state) := change state found
    (step changed, state)
  | item => (item, state)

/-- Changes the steps that an item owns. -/
def SpecItem.threadSteps (state : σ) : SpecItem → SpecItem × σ
  | context step =>
    let (changed, state) := change state step
    (context changed, state)
  | scenario found =>
    let (items, state) := threadList (ScenarioItem.threadSteps change) state found.items
    (scenario { found with items }, state)
  | tearDown found =>
    let (steps, state) := threadList change state found.steps
    (tearDown { found with steps }, state)
  | item => (item, state)

/-- Changes the steps of a specification in source order, passing a state along. -/
def Specification.threadSteps (state : σ) (spec : Specification) : Specification × σ :=
  let (items, state) := threadList (SpecItem.threadSteps change) state spec.items
  ({ spec with items }, state)

end Threading

/-- Gives the step at a position among all steps another signature. -/
def Specification.setStepValue (spec : Specification) (index : Nat) (value : String) :
    Specification :=
  let rename (position : Nat) (step : Step) : Step × Nat :=
    (if position = index then { step with value } else step, position + 1)
  (spec.threadSteps rename 0).1

end LiveSpec
