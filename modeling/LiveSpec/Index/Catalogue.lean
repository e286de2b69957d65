import LiveSpec.Document.Signature
import LiveSpec.Path.Map

/-!
# The catalogue of steps

The catalogue lists every step signature once, with the files that contribute it. The form in which
a signature is listed is the first one that was contributed while nobody else contributed it. A
signature is dropped with its last contributor, so every entry has at least one.
-/

set_option autoImplicit false

namespace LiveSpec

/-- A listed signature and its contributors. -/
structure CatalogueEntry where
  signature : StepSignature
  files : PathSet

/-- The listed signatures by their value. -/
structure Catalogue where
  entries : Std.ExtTreeMap String CatalogueEntry

namespace Catalogue

/-- The catalogue that lists nothing. -/
def empty : Catalogue := ⟨∅⟩

instance : Inhabited Catalogue := ⟨empty⟩

/-- Adds one signature contributed by a file. A signature that is listed keeps its form. -/
def insertOne (file : Path) (catalogue : Catalogue) (signature : StepSignature) : Catalogue :=
  let listed := match catalogue.entries[signature.value]? with
    | some listed => listed
    | none => ⟨signature, ∅⟩
  ⟨catalogue.entries.insert signature.value { listed with files := listed.files.insert file }⟩

/-- Adds the signatures that a file contributes, one after another. -/
def insert (catalogue : Catalogue) (file : Path) (signatures : List StepSignature) : Catalogue :=
  signatures.foldl (insertOne file) catalogue

/-- An entry without one of its files, if any other file contributes it. -/
def CatalogueEntry.withoutFile? (file : Path) (entry : CatalogueEntry) : Option CatalogueEntry :=
  let files : PathSet := PathMap.erase entry.files file
  if files.isEmpty then none else some { entry with files }

/-- Withdraws everything that a file contributes. -/
def removeFile (catalogue : Catalogue) (file : Path) : Catalogue :=
  ⟨catalogue.entries.filterMap fun _ entry ↦ CatalogueEntry.withoutFile? file entry⟩

/-- Replaces everything that a file contributes. -/
def replaceFile (catalogue : Catalogue) (file : Path) (signatures : List StepSignature) :
    Catalogue :=
  (catalogue.removeFile file).insert file signatures

/-- The listed signatures in order. -/
def toList (catalogue : Catalogue) : List StepSignature :=
  catalogue.entries.values.map CatalogueEntry.signature

/-- The files that contribute a signature, ordered by location. -/
def contributors (catalogue : Catalogue) (signature : String) : List Path :=
  match catalogue.entries[signature]? with
  | some entry => PathMap.paths entry.files
  | none => []

/-- How many signatures are listed. -/
def size (catalogue : Catalogue) : Nat := catalogue.entries.size

end Catalogue

end LiveSpec
