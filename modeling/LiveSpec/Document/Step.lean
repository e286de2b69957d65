import LiveSpec.Document.Scope

/-!
# Steps

A step has a signature, in which every argument is replaced by the placeholder `{}`, and the text it
was written with. A step that invokes a concept owns the steps of the concept as its body, has a
scope that binds the parameters, and knows the scope of the invocation around it. Steps are trees
through their bodies; `Step.preorder` lists a tree with the depth of every step.

Two steps are compared together with their trees (`Step.decEq`). Induction over a tree assumes the
property for the steps of the body (`Step.induction`).
-/

set_option autoImplicit false

namespace LiveSpec

/-- What stands in a signature for an argument. -/
def placeholder : String := "\x7b\x7d"

/-- A step, either atomic or the invocation of a concept. -/
structure Step where
  /-- The signature: the text with every argument replaced by the placeholder. -/
  value : String
  /-- The text as it was written, without the star in front. -/
  text : String
  line : Nat
  /-- The arguments of the call; for the root of a concept, its parameters. -/
  arguments : List Argument
  /-- Whether the step invokes a concept. -/
  isConcept : Bool
  /-- The steps of the concept that is invoked. -/
  body : List Step
  /-- The lookup that binds the parameters of this invocation. -/
  scope : Option ScopeId
  /-- The lookup of the invocation around this one. -/
  parent : Option ScopeId
  deriving Repr, Inhabited

namespace Step

mutual

/-- Whether two steps are the same. -/
def decEq : (step other : Step) → Decidable (step = other)
  | ⟨value, text, line, arguments, isConcept, body, scope, parent⟩,
      ⟨value', text', line', arguments', isConcept', body', scope', parent'⟩ =>
    have := decEqAll body body'
    decidable_of_iff (value = value' ∧ text = text' ∧ line = line' ∧ arguments = arguments' ∧
      isConcept = isConcept' ∧ body = body' ∧ scope = scope' ∧ parent = parent') (by simp)

/-- Whether two lists of steps are the same. -/
def decEqAll : (steps others : List Step) → Decidable (steps = others)
  | [], [] => isTrue rfl
  | [], other :: others => isFalse (List.cons_ne_nil other others).symm
  | step :: rest, [] => isFalse (List.cons_ne_nil step rest)
  | step :: rest, other :: others =>
    have := decEq step other
    have := decEqAll rest others
    decidable_of_iff (step = other ∧ rest = others) (by simp)

end

instance : DecidableEq Step := decEq

/-- A step as it stands in a file: no invocation has been expanded. -/
def written (value text : String) (line : Nat) (arguments : List Argument) : Step :=
  ⟨value, text, line, arguments, false, [], none, none⟩

/-- Attaches a table. The signature gets a placeholder for it. -/
def addTable (step : Step) (table : Table) : Step :=
  { step with
    value := step.value ++ " " ++ placeholder
    arguments := step.arguments ++ [.table table] }

/-- Adds an argument without touching the signature. -/
def addArgument (step : Step) (argument : Argument) : Step :=
  { step with arguments := step.arguments ++ [argument] }

/-- The table that was attached last, if the last argument is one. -/
def lastTable? (step : Step) : Option Table := step.arguments.getLast?.bind Argument.table?

/-- Replaces the last argument by a table. -/
def setLastTable (step : Step) (table : Table) : Step :=
  { step with arguments := step.arguments.dropLast ++ [.table table] }

mutual

/-- The steps of a tree in the order in which they are read, with their depths below `depth`. -/
def preorder (depth : Nat) : Step → List (Nat × Step)
  | ⟨value, text, line, arguments, isConcept, body, scope, parent⟩ =>
    (depth, ⟨value, text, line, arguments, isConcept, body, scope, parent⟩) ::
      preorderAll (depth + 1) body

/-- The steps of several trees, one tree after another. -/
def preorderAll (depth : Nat) : List Step → List (Nat × Step)
  | [] => []
  | step :: rest => preorder depth step ++ preorderAll depth rest

end

/-- A property of all trees follows if it passes from the steps of a body to their owner. -/
theorem induction {motive : Step → Prop}
    (h : ∀ step : Step, (∀ child ∈ step.body, motive child) → motive step) :
    ∀ step, motive step
  | ⟨value, text, line, arguments, isConcept, body, scope, parent⟩ =>
    h ⟨value, text, line, arguments, isConcept, body, scope, parent⟩
      fun child _ ↦ induction h child

theorem preorder_eq (depth : Nat) (step : Step) :
    step.preorder depth = (depth, step) :: preorderAll (depth + 1) step.body := by
  cases step
  simp [preorder]

theorem preorderAll_eq (depth : Nat) (steps : List Step) :
    preorderAll depth steps = steps.flatMap (preorder depth) := by
  induction steps with
  | nil => simp [preorderAll]
  | cons step rest ih => simp [preorderAll, ih]

end Step

end LiveSpec
