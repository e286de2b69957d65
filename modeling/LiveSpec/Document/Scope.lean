import LiveSpec.Document.Argument

/-!
# Scopes

Every invocation of a concept has a lookup that binds the parameters of the concept to the
arguments of the call, and that knows the lookup of the invocation around it. The lookups of one
specification are kept in the order in which they were made (`Scopes`), and a handle is a position
in that order. A lookup is made after the one it is nested in, so parents have smaller handles.

Resolving a name (`Scopes.resolve`) starts in one scope and climbs. A binding that is not a
reference is the answer. A binding that is a reference is looked up under its new name in the
enclosing scope; when nothing further is found the last reference met is the answer. A name that a
scope does not bind is looked up in the enclosing scope.
-/

set_option autoImplicit false

namespace LiveSpec

/-- The handle of a lookup: its position among the lookups of a specification. -/
abbrev ScopeId := Nat

/-- The bindings of one invocation, in the order of declaration, and the lookup around it. -/
structure Lookup where
  bindings : List (String × Argument)
  parent : Option ScopeId
  deriving DecidableEq, Repr, Inhabited

/-- Binds a name. A name that is bound already is bound anew where it stands. -/
def bindIn (name : String) (argument : Argument) :
    List (String × Argument) → List (String × Argument)
  | [] => [(name, argument)]
  | (bound, earlier) :: rest =>
    if bound = name then (bound, argument) :: rest
    else (bound, earlier) :: bindIn name argument rest

namespace Lookup

/-- A lookup that binds nothing yet. -/
def inside (parent : Option ScopeId) : Lookup := ⟨[], parent⟩

/-- Binds a name, in place if it is bound already. -/
def set (lookup : Lookup) (name : String) (argument : Argument) : Lookup :=
  { lookup with bindings := bindIn name argument lookup.bindings }

/-- Binds several names one after another. -/
def setAll (lookup : Lookup) (bindings : List (String × Argument)) : Lookup :=
  bindings.foldl (fun bound binding ↦ bound.set binding.1 binding.2) lookup

/-- The binding of a name in this lookup alone. -/
def get? (lookup : Lookup) (name : String) : Option Argument := lookup.bindings.lookup name

/-- Whether this lookup binds a name. -/
def contains (lookup : Lookup) (name : String) : Bool := (lookup.get? name).isSome

/-- The bound names in the order of declaration. -/
def names (lookup : Lookup) : List String := lookup.bindings.map Prod.fst

/-- How many names are bound. -/
def size (lookup : Lookup) : Nat := lookup.bindings.length

/-- What one lookup says about a name. -/
inductive Reading where
  /-- The binding settles what the name stands for. -/
  | answer (argument : Argument)
  /-- The enclosing scope has to be asked for `wanted`; `met` is the last reference met. -/
  | ask (wanted : String) (met : Option Argument)
  deriving DecidableEq, Repr

/-- Reads a name in this lookup alone, with the last reference met on the way here. -/
def read (lookup : Lookup) (name : String) (met : Option Argument) : Reading :=
  match lookup.get? name with
  | none => .ask name met
  | some (.dynamic forwarded) => .ask forwarded (some (.dynamic forwarded))
  | some argument => .answer argument

end Lookup

/-- The lookups of one specification, in the order in which they were made. -/
structure Scopes where
  lookups : Array Lookup
  deriving DecidableEq, Repr, Inhabited

namespace Scopes

/-- No lookups. -/
def empty : Scopes := ⟨#[]⟩

/-- How many lookups there are, which is also the next handle. -/
def size (scopes : Scopes) : Nat := scopes.lookups.size

/-- The lookup behind a handle. -/
def get? (scopes : Scopes) (scope : ScopeId) : Option Lookup := scopes.lookups[scope]?

/-- Adds a lookup; its handle is the number of lookups before it. -/
def push (scopes : Scopes) (lookup : Lookup) : Scopes := ⟨scopes.lookups.push lookup⟩

/-- Binds a name in the lookup behind a handle, if there is one. -/
def set (scopes : Scopes) (scope : ScopeId) (name : String) (argument : Argument) : Scopes :=
  ⟨scopes.lookups.modify scope fun lookup ↦ lookup.set name argument⟩

/-- The lookups in order. -/
def toList (scopes : Scopes) : List Lookup := scopes.lookups.toList

/-- Climbs from a scope, looking for a name, with the last reference met so far. The climb goes to
earlier lookups only, which is where parents are. -/
def climb (scopes : Scopes) (scope : ScopeId) (name : String) (met : Option Argument) :
    Option Argument :=
  match scopes.get? scope with
  | none => none
  | some lookup =>
    match lookup.read name met with
    | .answer argument => some argument
    | .ask wanted met =>
      match lookup.parent with
      | none => met
      | some outer => if outer < scope then scopes.climb outer wanted met else met
termination_by scope

/-- The argument that a name stands for in a scope. -/
def resolve (scopes : Scopes) (scope : ScopeId) (name : String) : Option Argument :=
  scopes.climb scope name none

end Scopes

end LiveSpec
