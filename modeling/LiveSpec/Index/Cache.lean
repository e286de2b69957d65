import LiveSpec.Document.Summary
import LiveSpec.Index.Catalogue

/-!
# The cache of the index

What the index knows about files: the specifications read from each path, the concepts read from
each path, and the catalogue of steps. Every operation here is one indivisible step of the index;
what one file contributes is replaced as a whole.
-/

set_option autoImplicit false

namespace LiveSpec

/-- The parsed files and the steps that they contribute. -/
structure Cache where
  specifications : PathMap (List Specification)
  concepts : PathMap (List Concept)
  catalogue : Catalogue

namespace Cache

/-- The cache of an index that knows no file. -/
def empty : Cache := ⟨∅, ∅, .empty⟩

instance : Inhabited Cache := ⟨empty⟩

/-! ### Changes -/

/-- Adds a specification to those of its path. -/
def appendSpecification (cache : Cache) (spec : Specification) : Cache :=
  let earlier := (cache.specifications.find? spec.file).getD []
  { cache with specifications := cache.specifications.set spec.file (earlier ++ [spec]) }

/-- Makes a specification the only one of its path, with the steps that it contributes. -/
def replaceSpecification (cache : Cache) (spec : Specification)
    (signatures : List StepSignature) : Cache :=
  { cache with
    specifications := cache.specifications.set spec.file [spec]
    catalogue := cache.catalogue.replaceFile spec.file signatures }

/-- Forgets the specifications of a path and what it contributes. -/
def removeSpecification (cache : Cache) (path : Path) : Cache :=
  { cache with
    specifications := cache.specifications.erase path
    catalogue := cache.catalogue.removeFile path }

/-- Makes some concepts those of a path. -/
def replaceConcepts (cache : Cache) (path : Path) (concepts : List Concept) : Cache :=
  { cache with concepts := cache.concepts.set path concepts }

/-- Forgets the concepts of a path and what it contributes. -/
def removeConcepts (cache : Cache) (path : Path) : Cache :=
  { cache with
    concepts := cache.concepts.erase path
    catalogue := cache.catalogue.removeFile path }

/-- Adds steps that a file contributes to those it contributes already. -/
def insertSteps (cache : Cache) (file : Path) (signatures : List StepSignature) : Cache :=
  { cache with catalogue := cache.catalogue.insert file signatures }

/-- Replaces the steps that a file contributes. -/
def replaceSteps (cache : Cache) (file : Path) (signatures : List StepSignature) : Cache :=
  { cache with catalogue := cache.catalogue.replaceFile file signatures }

/-! ### Questions -/

/-- Every specification, ordered by path. -/
def allSpecifications (cache : Cache) : List Specification := cache.specifications.values.flatten

/-- The specification of a path that was added last. -/
def specification? (cache : Cache) (path : Path) : Option Specification :=
  (cache.specifications.find? path).bind List.getLast?

/-- Every concept, in the order of the files. -/
def allConcepts (cache : Cache) : List Concept := cache.concepts.values.flatten

/-- The concept files, in order. -/
def conceptFiles (cache : Cache) : List Path := cache.concepts.paths

/-- Every concept in a listing. -/
def conceptSummaries (cache : Cache) : List ConceptSummary := cache.allConcepts.map .of

/-- The specification paths beneath a directory, in order. -/
def specificationsBeneath (cache : Cache) (directory : Path) : List Path :=
  cache.specifications.pathsBeneath directory

/-- The concept files beneath a directory, in order. -/
def conceptFilesBeneath (cache : Cache) (directory : Path) : List Path :=
  cache.concepts.pathsBeneath directory

/-- The listed steps, in order. -/
def steps (cache : Cache) : List StepSignature := cache.catalogue.toList

/-- The files that contribute a signature, in order. -/
def contributors (cache : Cache) (signature : String) : List Path :=
  cache.catalogue.contributors signature

end Cache

end LiveSpec
