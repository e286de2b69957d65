import LiveSpec.Path.Basic

/-!
# Kinds of sources

What a path holds is judged by its extension alone: `spec` and `md` for specifications, `cpt` for
concepts, and anything else is no source. Upper and lower case differ.
-/

set_option autoImplicit false

namespace LiveSpec

/-- What a file holds. -/
inductive SourceKind where
  | specification
  | concepts
  | other
  deriving DecidableEq, Repr, Inhabited

/-- The extensions of specifications. -/
def specificationExtensions : List String := ["spec", "md"]

/-- The extensions of concept files. -/
def conceptExtensions : List String := ["cpt"]

/-- The kind of source that has a given extension. -/
def SourceKind.ofExtension (extension : String) : SourceKind :=
  if specificationExtensions.contains extension then .specification
  else if conceptExtensions.contains extension then .concepts
  else .other

/-- The kind of source at a path. -/
def Path.sourceKind (path : Path) : SourceKind :=
  match path.extension? with
  | some extension => .ofExtension extension
  | none => .other

/-- Whether a path holds a specification. -/
def Path.isSpecification (path : Path) : Bool := path.sourceKind = .specification

/-- Whether a path holds concepts. -/
def Path.isConceptFile (path : Path) : Bool := path.sourceKind = .concepts

end LiveSpec
