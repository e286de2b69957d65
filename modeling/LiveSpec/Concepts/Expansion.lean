import LiveSpec.Concepts.Dictionary

/-!
# Expanding invocations

A step whose signature is in the dictionary invokes the concept there. Expanding it copies the body
of the concept into the step, makes a lookup that binds the parameters of the concept to the
arguments of the call by position, and expands the copied steps in turn, inside the new scope. The
step keeps its own signature, text, line and arguments. A step that invokes nothing stays as it is.

Expansion stops at the first invocation whose number of arguments is not the number of parameters
(`Mismatch`). That step and everything after it stay as they are at that point, and the lookups made
so far remain.

Admitted concepts do not invoke themselves, so no chain of nested invocations is longer than the
dictionary, and the depth allowed in `Specification.expand` is never used up.
-/

set_option autoImplicit false

namespace LiveSpec

/-- An invocation with the wrong number of arguments. -/
structure Mismatch where
  concept : String
  expected : Nat
  found : Nat
  line : Nat
  deriving DecidableEq, Repr, Inhabited

/-- The mismatch in words. -/
def Mismatch.message (mismatch : Mismatch) : String :=
  "line " ++ toString mismatch.line ++ ": concept '" ++ mismatch.concept ++ "' expects " ++
    toString mismatch.expected ++ " argument(s), found " ++ toString mismatch.found

/-- What expansion hands from one step to the next: the lookups made so far and the mismatch that
stopped it, if one did. -/
structure ExpansionState where
  scopes : Scopes
  mismatch : Option Mismatch
  deriving Repr, Inhabited

/-- The lookup of an invocation: the parameters of the concept bound to the arguments of the call. -/
def Lookup.ofCall (parent : Option ScopeId) (parameters arguments : List Argument) : Lookup :=
  (Lookup.inside parent).setAll ((parameters.map Argument.label).zip arguments)

/-- A step of a copied body: an invocation gets the scope it stands in as its parent. -/
def Step.inScope (step : Step) (scope : ScopeId) : Step :=
  if step.isConcept then { step with parent := some scope } else step

/-- Expands a step in the scope `parent`, up to a depth of nested invocations. -/
def expandStep (dictionary : Dictionary) :
    Nat → Option ScopeId → ExpansionState → Step → Step × ExpansionState
  | 0, _, state, step => (step, state)
  | depth + 1, parent, state, step =>
    if state.mismatch.isSome then (step, state)
    else
      match dictionary.search? step.value with
      | none => (step, state)
      | some concept =>
        if concept.parameters.length ≠ step.arguments.length then
          (step, { state with
            mismatch := some ⟨concept.signature, concept.parameters.length,
              step.arguments.length, step.line⟩ })
        else
          let scope := state.scopes.size
          let lookup := Lookup.ofCall parent concept.parameters step.arguments
          let expandChild (state : ExpansionState) (child : Step) : Step × ExpansionState :=
            if state.mismatch.isSome then (child, state)
            else expandStep dictionary depth (some scope) state (child.inScope scope)
          let (body, state) :=
            threadList expandChild { state with scopes := state.scopes.push lookup } concept.body
          ({ step with isConcept := true, parent, scope := some scope, body }, state)

/-- Expands the invocations in the contexts, the scenarios and the teardown of a specification, in
source order. The second part is the mismatch that stopped it, if one did. -/
def Specification.expand (spec : Specification) (dictionary : Dictionary) :
    Specification × Option Mismatch :=
  let (expanded, state) :=
    spec.threadSteps (expandStep dictionary dictionary.size none) ⟨spec.scopes, none⟩
  ({ expanded with scopes := state.scopes }, state.mismatch)

end LiveSpec
