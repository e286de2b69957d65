import LiveSpec.Index.Cache
import LiveSpec.Index.Contents
import LiveSpec.Source.Kind

/-!
# The index and its changes

The index holds what it knows about the files in its directories (`Index.cache`) and the dictionary
that specifications are expanded with. It follows its files by changes: a file was written, a file is
gone, or a directory is gone with all that was in it.

A change is worked off in two parts. First the file is read, parsed and expanded, which does not
touch the index (`Change.prepare`). Then what has come out is put into the index (`Index.commit`).
When the first part fails there is no second one, and the index stays as it is. `Index.apply` is both
parts in one.

Whenever the concepts have changed the dictionary is built anew from all of them, and what every
concept file contributes to the catalogue is replaced (`Index.refreshConcepts`), because the
admission of one concept can depend on another file. Specifications keep the bodies that they were
expanded with until they are written again.
-/

set_option autoImplicit false

namespace LiveSpec

/-- A change of the files that the index follows. -/
inductive Change where
  /-- The file is new or has new content. -/
  | write (path : Path)
  /-- The file is gone. -/
  | remove (path : Path)
  /-- The directory is gone, with everything beneath it. -/
  | removeTree (directory : Path)
  deriving DecidableEq, Repr, Inhabited

/-- The path that a change is about. -/
def Change.path : Change → Path
  | write path => path
  | remove path => path
  | removeTree directory => directory

/-- What the index knows. -/
structure Index where
  /-- The directories in which sources are looked for. -/
  directories : List Path
  dictionary : Dictionary
  cache : Cache

namespace Index

/-- An index that knows no file yet. -/
def new (directories : List Path) : Index := ⟨directories, .empty, .empty⟩

instance : Inhabited Index := ⟨new []⟩

/-- Builds the dictionary from all known concepts. -/
def rebuildDictionary (index : Index) : Index :=
  { index with dictionary := (Dictionary.build index.cache.allConcepts).1 }

/-- Replaces what every concept file contributes to the catalogue. -/
def refreshSteps (index : Index) : Index :=
  { index with
    cache := index.cache.conceptFiles.foldl
      (fun cache file ↦ cache.replaceSteps file (index.dictionary.fileSignatures file))
      index.cache }

/-- Brings the dictionary and the catalogue up to date with the known concepts. -/
def refreshConcepts (index : Index) : Index := index.rebuildDictionary.refreshSteps

end Index

/-- What is put into the index when a change has been prepared. -/
inductive Update where
  | nothing
  | replaceSpecification (spec : Specification)
  | removeSpecification (path : Path)
  | replaceConcepts (path : Path) (concepts : List Concept)
  | removeConcepts (path : Path)
  | removeTree (directory : Path)
  deriving Repr, Inhabited

/-- Reads and parses what a change is about, and expands it when it is a specification. Changes of
files that hold neither specifications nor concepts come to nothing. -/
def Change.prepare (contents : Contents) (dictionary : Dictionary) :
    Change → Except IndexError Update
  | write path =>
    match path.sourceKind with
    | .specification => (contents.expanded dictionary path).map .replaceSpecification
    | .concepts => ((contents.concepts path).mapError .parse).map (.replaceConcepts path)
    | .other => .ok .nothing
  | remove path =>
    match path.sourceKind with
    | .specification => .ok (.removeSpecification path)
    | .concepts => .ok (.removeConcepts path)
    | .other => .ok .nothing
  | removeTree directory => .ok (.removeTree directory)

namespace Index

/-- Forgets the specifications beneath a directory. -/
def removeSpecificationsBeneath (index : Index) (directory : Path) : Index :=
  { index with
    cache := (index.cache.specificationsBeneath directory).foldl Cache.removeSpecification
      index.cache }

/-- Forgets the concept files beneath a directory. -/
def removeConceptsBeneath (index : Index) (directory : Path) : Index :=
  match index.cache.conceptFilesBeneath directory with
  | [] => index
  | files =>
    { index with cache := files.foldl Cache.removeConcepts index.cache }.refreshConcepts

/-- Puts what a change has come to into the index. -/
def commit (index : Index) : Update → Index
  | .nothing => index
  | .replaceSpecification spec =>
    { index with cache := index.cache.replaceSpecification spec spec.signatures }
  | .removeSpecification path => { index with cache := index.cache.removeSpecification path }
  | .replaceConcepts path concepts =>
    { index with cache := index.cache.replaceConcepts path concepts }.refreshConcepts
  | .removeConcepts path =>
    let isKnown := index.cache.concepts.contains path
    let index := { index with cache := index.cache.removeConcepts path }
    if isKnown then index.refreshConcepts else index
  | .removeTree directory =>
    (index.removeSpecificationsBeneath directory).removeConceptsBeneath directory

/-- Works off a change. When it fails the index stays as it is. -/
def apply (index : Index) (contents : Contents) (change : Change) : Except IndexError Index :=
  (change.prepare contents index.dictionary).map index.commit

/-- Works off changes one after another, passing over those that fail. -/
def applyAll (index : Index) (contents : Contents) (changes : List Change) : Index :=
  changes.foldl (fun index change ↦ (index.apply contents change).toOption.getD index) index

/-! ### Questions -/

/-- The specifications in a listing, ordered by path. -/
def specificationSummaries (index : Index) : List SpecSummary :=
  index.cache.allSpecifications.map .of

/-- The scenario of a specification that a line belongs to, or all of them, if the specification is
known. -/
def scenarioAt? (index : Index) (path : Path) (line : Nat) : Option ScenarioLookup :=
  (index.cache.specification? path).map fun spec ↦ spec.scenarioAt line

end Index

end LiveSpec
