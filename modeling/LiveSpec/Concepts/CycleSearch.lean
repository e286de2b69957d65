import LiveSpec.Document.Signature
import Std.Data.ExtTreeMap

/-!
# Searching for invocation cycles

A concept calls another when a step of its body has the signature of the other. The search
(`CycleSearch`) goes through the signatures in order and follows calls depth first. A signature is
visited once: it is marked open when the search enters it and done when all its calls have been
followed, and the path from the signature where the search started to the one it is at consists of
the open ones. A call to an open signature closes a cycle, which is the part of the path from there
on; every member of it is recorded with this cycle, unless it was recorded before. A call to a
signature that is done is not followed again.

The search is a machine with one rule (`CycleSearch.next`). Every step of it either takes one waiting
signature, follows one call or leaves one signature, so `CycleSearch.stepsNeeded` steps are enough to
come to the end, where the rule changes nothing any more.
-/

set_option autoImplicit false

namespace LiveSpec

/-- The definitions that signatures stand for, in the order of signatures. -/
abbrev Definitions := Std.ExtTreeMap String Concept

/-- The defined signatures that a signature calls, in the order of the body. -/
def callsOf (definitions : Definitions) (signature : String) : List String :=
  match definitions[signature]? with
  | none => []
  | some concept => (concept.body.map Step.value).filter definitions.contains

/-- How far the search is with a signature. -/
inductive CycleMark where
  | entered
  | done
  deriving DecidableEq, Repr, Inhabited

/-- A signature on the path of the search, with the calls that are still to be followed. -/
structure CycleFrame where
  signature : String
  pending : List String
  deriving DecidableEq, Repr, Inhabited

/-- A search in progress. -/
structure CycleSearch where
  /-- The signatures from which the search has not started yet. -/
  waiting : List String
  /-- The open signatures, the innermost first. -/
  path : List CycleFrame
  marks : Std.ExtTreeMap String CycleMark
  /-- The recorded signatures, each with the first cycle it was found on. -/
  cycles : Std.ExtTreeMap String (List String)

namespace CycleSearch

/-- The search before its first step. -/
def start (definitions : Definitions) : CycleSearch := ⟨definitions.keys, [], ∅, ∅⟩

/-- The open signatures from `signature` on, the outermost first. -/
def membersFrom (path : List CycleFrame) (signature : String) : List String :=
  (path.map CycleFrame.signature).reverse.dropWhile (· ≠ signature)

/-- Records a cycle for every signature that has none yet. -/
def recordAll (cycle : List String) (cycles : Std.ExtTreeMap String (List String))
    (members : List String) : Std.ExtTreeMap String (List String) :=
  members.foldl (fun recorded member ↦ recorded.insertIfNew member cycle) cycles

/-- Closes the cycle that a call to the open signature `signature` makes. -/
def close (search : CycleSearch) (signature : String) : CycleSearch :=
  let members := membersFrom search.path signature
  { search with cycles := recordAll (members ++ [signature]) search.cycles members }

/-- Enters a signature that has no mark yet. -/
def enter (definitions : Definitions) (search : CycleSearch) (signature : String) : CycleSearch :=
  { search with
    path := ⟨signature, callsOf definitions signature⟩ :: search.path
    marks := search.marks.insert signature .entered }

/-- Comes to a signature, from the list of signatures or by a call. -/
def visit (definitions : Definitions) (search : CycleSearch) (signature : String) : CycleSearch :=
  match search.marks[signature]? with
  | some .done => search
  | some .entered => search.close signature
  | none => search.enter definitions signature

/-- The rule of the search. -/
def next (definitions : Definitions) (search : CycleSearch) : CycleSearch :=
  match search.path with
  | [] =>
    match search.waiting with
    | [] => search
    | signature :: rest => { search with waiting := rest }.visit definitions signature
  | ⟨signature, []⟩ :: outer =>
    { search with path := outer, marks := search.marks.insert signature .done }
  | ⟨signature, called :: pending⟩ :: outer =>
    { search with path := ⟨signature, pending⟩ :: outer }.visit definitions called

/-- The number of steps after which the search has come to its end: for every signature one to take
it from the list, one to leave it, and one for each of its calls. -/
def stepsNeeded (definitions : Definitions) : Nat :=
  (definitions.keys.map fun signature ↦ 2 + (callsOf definitions signature).length).foldr (· + ·) 0

/-- The search at its end. -/
def run (definitions : Definitions) : CycleSearch :=
  (stepsNeeded definitions).repeat (next definitions) (start definitions)

end CycleSearch

/-- The signatures that the search finds on cycles, each with the first cycle it was found on. -/
def findCycles (definitions : Definitions) : Std.ExtTreeMap String (List String) :=
  (CycleSearch.run definitions).cycles

end LiveSpec
