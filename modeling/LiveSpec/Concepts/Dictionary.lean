import LiveSpec.Concepts.CycleSearch

/-!
# The dictionary of concepts

The dictionary holds the concepts that steps may invoke, by signature. It is built from all known
concepts at once (`Dictionary.build`): the first definition of a signature counts and later ones are
reported as duplicates; the concepts that the cycle search finds are reported and left out; the
others are admitted. A step in the body of an admitted concept is marked as an invocation exactly
when its signature is admitted.

The reports come in order: first the duplicates as they were met, then the cycles by signature.
-/

set_option autoImplicit false

namespace LiveSpec

/-- Why a concept was left out of the dictionary. -/
inductive ConceptError where
  /-- The signature was defined before, in `firstFile`. -/
  | duplicate (signature : String) (file firstFile : Path)
  /-- The concept invokes itself along `members`, whose first signature is repeated at the end. -/
  | cycle (signature : String) (file : Path) (members : List String)
  deriving DecidableEq, Repr, Inhabited

namespace ConceptError

/-- The file of the concept that was left out. -/
def file : ConceptError → Path
  | duplicate _ file _ => file
  | cycle _ file _ => file

/-- The error in words. -/
def message : ConceptError → String
  | duplicate signature file firstFile =>
    "duplicate concept definition '" ++ signature ++ "' in " ++ file.spelling ++
      " (first defined in " ++ firstFile.spelling ++ ")"
  | cycle signature file members =>
    "concept '" ++ signature ++ "' in " ++ file.spelling ++ " is part of a cycle: " ++
      " -> ".intercalate members

end ConceptError

/-- The concepts that steps may invoke, by signature. -/
structure Dictionary where
  concepts : Definitions

namespace Dictionary

/-- The dictionary without concepts. -/
def empty : Dictionary := ⟨∅⟩

instance : Inhabited Dictionary := ⟨empty⟩

/-- The concept with a signature. -/
def search? (dictionary : Dictionary) (signature : String) : Option Concept :=
  dictionary.concepts[signature]?

/-- Whether there is a concept with a signature. -/
def contains (dictionary : Dictionary) (signature : String) : Bool :=
  dictionary.concepts.contains signature

/-- The concepts in the order of their signatures. -/
def toList (dictionary : Dictionary) : List Concept := dictionary.concepts.values

/-- The signatures in order. -/
def signatures (dictionary : Dictionary) : List String := dictionary.concepts.keys

/-- How many concepts there are. -/
def size (dictionary : Dictionary) : Nat := dictionary.concepts.size

/-- What the concepts of one file contribute to the catalogue of steps. -/
def fileSignatures (dictionary : Dictionary) (file : Path) : List StepSignature :=
  (dictionary.toList.filter fun concept ↦ concept.file.location = file.location).flatMap
    Concept.signatures

/-! ### Building -/

/-- Takes in one more concept: as the definition of its signature, or as a duplicate. -/
def define (soFar : Definitions × List ConceptError) (concept : Concept) :
    Definitions × List ConceptError :=
  match soFar.1[concept.signature]? with
  | some first =>
    (soFar.1, soFar.2 ++ [.duplicate concept.signature concept.file first.file])
  | none => (soFar.1.insert concept.signature concept, soFar.2)

/-- The first definition of every signature, and the duplicates in the order in which they were
met. -/
def firstDefinitions (concepts : List Concept) : Definitions × List ConceptError :=
  concepts.foldl define (∅, [])

/-- The report for a signature on a cycle. -/
def cycleError? (definitions : Definitions) (found : String × List String) : Option ConceptError :=
  definitions[found.1]?.map fun concept ↦ .cycle found.1 concept.file found.2

/-- The concept with every step of its body marked as an invocation or not. -/
def markInvocations (isAdmitted : String → Bool) (concept : Concept) : Concept :=
  { concept with
    root := { concept.root with
      body := concept.root.body.map fun step ↦ { step with isConcept := isAdmitted step.value } } }

/-- The dictionary of the definitions that are on none of the given cycles. -/
def withoutCycles (definitions : Definitions) (cycles : Std.ExtTreeMap String (List String)) : Dictionary :=
  let admitted := definitions.filter fun signature _ ↦ !cycles.contains signature
  ⟨admitted.map fun _ concept ↦ markInvocations admitted.contains concept⟩

/-- Builds the dictionary of a list of concepts, and reports those that were left out. -/
def build (concepts : List Concept) : Dictionary × List ConceptError :=
  let (definitions, duplicates) := firstDefinitions concepts
  let cycles := findCycles definitions
  (withoutCycles definitions cycles, duplicates ++ cycles.toList.filterMap (cycleError? definitions))

end Dictionary

end LiveSpec
