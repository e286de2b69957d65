import LiveSpec.Document.Specification

/-!
# Uses of data columns

Which of a list of names do the contexts and the teardown of a specification refer to, directly or
through the concepts that they invoke? (`Specification.mentionsInContextOrTearDown`.) A reference
inside the body of a concept is resolved in the scope of the invocation whose body it stands in, so
it counts only if it still is a reference to one of the names when it has reached the outermost
call. A cell of a table counts as it is written, as `<name>`.
-/

set_option autoImplicit false

namespace LiveSpec

/-- The name that a cell refers to, when all of the cell is a name in angle brackets. -/
def cellReference? (cell : String) : Option String :=
  match cell.toList with
  | '<' :: rest =>
    if rest.getLast? = some '>' then some (String.ofList rest.dropLast) else none
  | _ => none

/-- What a reference ends in when it stands in the body of the invocation with the scope
`enclosing`. A reference that is bound nowhere is taken as it is. -/
def Scopes.outermost (scopes : Scopes) (enclosing : Option ScopeId) (name : String) : Argument :=
  match enclosing.bind fun scope ↦ scopes.resolve scope name with
  | some bound => bound
  | none => .dynamic name

/-- Whether an argument in the scope `enclosing` refers to one of the names. -/
def Argument.mentions (scopes : Scopes) (names : List String) (enclosing : Option ScopeId) :
    Argument → Bool
  | static _ => false
  | dynamic name =>
    match (scopes.outermost enclosing name).reference? with
    | some outer => names.contains outer
    | none => false
  | table content =>
    content.cells.any fun cell ↦
      match cellReference? cell with
      | some name => names.contains name
      | none => false
  | absentTable _ => false

namespace Step

mutual

/-- Whether a step in the scope `enclosing`, or a step of its body at any depth, refers to one of
the names. -/
def mentions (scopes : Scopes) (names : List String) (enclosing : Option ScopeId) : Step → Bool
  | ⟨_, _, _, arguments, _, body, scope, _⟩ =>
    arguments.any (Argument.mentions scopes names enclosing) || anyMentions scopes names scope body

/-- Whether one of several steps in the scope `enclosing` refers to one of the names. -/
def anyMentions (scopes : Scopes) (names : List String) (enclosing : Option ScopeId) :
    List Step → Bool
  | [] => false
  | step :: rest => mentions scopes names enclosing step || anyMentions scopes names enclosing rest

end

end Step

/-- Whether a context or teardown step refers to one of the names, directly or through the concepts
that it invokes. -/
def Specification.mentionsInContextOrTearDown (spec : Specification) (names : List String) : Bool :=
  (spec.contexts ++ spec.tearDownSteps).any (Step.mentions spec.scopes names none)

end LiveSpec
