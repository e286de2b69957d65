import LiveSpec.Document.Specification

/-!
# Signatures with their arguments

A signature shows a placeholder for every argument. For reading it is shown with the arguments in
their places, each in angle brackets (`StepSignature.ofStep`): the first placeholder is replaced by
the first argument, then the first placeholder of the result by the second, and so on. A step
contributes to the catalogue of steps unless it invokes a concept (`atomicSignatures`).
-/

set_option autoImplicit false

namespace LiveSpec

/-- A signature as it is listed: the signature itself, the same with its arguments shown, and the
texts of the arguments. -/
structure StepSignature where
  value : String
  parameterized : String
  parameters : List String
  deriving DecidableEq, Repr, Inhabited

/-- Puts a text in the place of the first placeholder, if there is one. -/
def fillFirstPlaceholder (filling : List Char) : List Char → List Char
  | '\x7b' :: '\x7d' :: rest => filling ++ rest
  | c :: rest => c :: fillFirstPlaceholder filling rest
  | [] => []

/-- An argument as it is shown in a signature. -/
def bracketed (text : String) : List Char := '<' :: text.toList ++ ['>']

/-- A signature with the arguments put in one after another. -/
def showArguments (signature : String) (arguments : List String) : String :=
  String.ofList <|
    arguments.foldl (fun shown text ↦ fillFirstPlaceholder (bracketed text) shown) signature.toList

/-- The signature of a step, shown with its arguments. -/
def StepSignature.ofStep (step : Step) : StepSignature :=
  let parameters := step.arguments.map Argument.shown
  ⟨step.value, showArguments step.value parameters, parameters⟩

/-- The signatures of the steps that invoke no concept, in order. -/
def atomicSignatures (steps : List Step) : List StepSignature :=
  (steps.filter fun step ↦ !step.isConcept).map StepSignature.ofStep

/-- What a specification contributes to the catalogue: its own steps, without the bodies of the
concepts that they invoke. -/
def Specification.signatures (spec : Specification) : List StepSignature :=
  atomicSignatures spec.steps

/-- What a concept contributes to the catalogue: the steps of its body. -/
def Concept.signatures (concept : Concept) : List StepSignature := atomicSignatures concept.body

end LiveSpec
