import LiveSpec.Document.Signature

/-!
# Summaries for listings and editors

Short descriptions of specifications, scenarios and concepts, with the identifier by which a runner
executes them: the path of a specification, and the path and heading line of a scenario.
`Specification.scenarioAt` answers which scenario a line belongs to, or lists all of them when the
line belongs to none.
-/

set_option autoImplicit false

namespace LiveSpec

/-- A place in a file, written `file:line`. -/
def Path.atLine (path : Path) (line : Nat) : String := path.spelling ++ ":" ++ toString line

/-- A scenario in a listing. -/
structure ScenarioSummary where
  heading : String
  line : Nat
  identifier : String
  deriving DecidableEq, Repr, Inhabited

/-- A specification in a listing. -/
structure SpecSummary where
  heading : String
  identifier : String
  deriving DecidableEq, Repr, Inhabited

/-- A concept in a listing. -/
structure ConceptSummary where
  signature : StepSignature
  file : String
  line : Nat
  deriving DecidableEq, Repr, Inhabited

/-- The summary of a scenario of a specification. -/
def ScenarioSummary.of (spec : Specification) (scenario : Scenario) : ScenarioSummary :=
  ⟨scenario.heading.value, scenario.heading.line, spec.file.atLine scenario.heading.line⟩

/-- The summary of a specification. -/
def SpecSummary.of (spec : Specification) : SpecSummary := ⟨spec.heading.value, spec.file.spelling⟩

/-- The summary of a concept. -/
def ConceptSummary.of (concept : Concept) : ConceptSummary :=
  ⟨.ofStep concept.root, concept.file.spelling, concept.line⟩

/-- The answer to the question which scenario a line belongs to. -/
inductive ScenarioLookup where
  /-- The scenario that covers the line. -/
  | found (scenario : ScenarioSummary)
  /-- No scenario covers the line; these are the scenarios there are. -/
  | all (scenarios : List ScenarioSummary)
  deriving DecidableEq, Repr, Inhabited

/-- The first scenario that covers a line, or else all of them. -/
def Specification.scenarioAt (spec : Specification) (line : Nat) : ScenarioLookup :=
  match spec.scenarios.find? fun scenario ↦ scenario.span.contains line with
  | some scenario => .found (.of spec scenario)
  | none => .all (spec.scenarios.map (.of spec))

end LiveSpec
