import LiveSpec.Disk.Walk
import LiveSpec.Index.Change

/-!
# Building the index

A build reads all sources in the directories of the index, every file once, however many directories
it is found through: first the concepts, from which the dictionary is built, then the specifications,
which are expanded with it. Files that fail are left out and reported, the others are not affected.
What has been read is a `BuildPlan`.

Putting a plan into the index takes one step after another (`BuildPlan.steps`): everything is
forgotten, the concepts are stored file by file, the dictionary is replaced, the specifications are
stored, and last come the steps that all of them contribute.
-/

set_option autoImplicit false

namespace LiveSpec

/-- What reading all sources gives. -/
structure BuildPlan where
  /-- The concept files that could be parsed, in order, with their concepts. -/
  conceptFiles : List (Path × List Concept)
  /-- The dictionary of these concepts. -/
  dictionary : Dictionary
  /-- The specifications that could be parsed and expanded, in the order of their files. -/
  specifications : List Specification
  /-- The files that failed: first the concept files, then the specifications. -/
  failures : List IndexError
  /-- The concepts that are not in the dictionary. -/
  conceptErrors : List ConceptError

/-- The results of reading some files, the failures apart from the others and both in order. -/
def partitionResults {α : Type} (results : List (Except IndexError α)) :
    List α × List IndexError :=
  (results.filterMap Except.toOption,
    results.filterMap fun result ↦
      match result with
      | .ok _ => none
      | .error error => some error)

/-- The concepts in a file, with the file. -/
def Contents.conceptFile (contents : Contents) (file : Path) :
    Except IndexError (Path × List Concept) :=
  ((contents.concepts file).mapError .parse).map fun concepts ↦ (file, concepts)

namespace BuildPlan

/-- Reads some concept files and specifications. -/
def read (contents : Contents) (conceptFiles specificationFiles : List Path) : BuildPlan :=
  let (conceptFiles, conceptFailures) :=
    partitionResults (conceptFiles.map contents.conceptFile)
  let (dictionary, conceptErrors) := Dictionary.build (conceptFiles.flatMap Prod.snd)
  let (specifications, specificationFailures) :=
    partitionResults (specificationFiles.map (contents.expanded dictionary))
  { conceptFiles, dictionary, specifications, conceptErrors
    failures := conceptFailures ++ specificationFailures }

end BuildPlan

/-- A step of a build. -/
inductive BuildStep where
  | forgetAll
  | storeConcepts (file : Path) (concepts : List Concept)
  | replaceDictionary (dictionary : Dictionary)
  | storeSpecification (spec : Specification)
  | contribute (file : Path) (signatures : List StepSignature)

/-- The steps of a build. -/
def BuildPlan.steps (plan : BuildPlan) : List BuildStep :=
  .forgetAll :: (plan.conceptFiles.map fun (file, concepts) ↦ .storeConcepts file concepts) ++
    .replaceDictionary plan.dictionary :: plan.specifications.map .storeSpecification ++
    (plan.specifications.map fun spec ↦ .contribute spec.file spec.signatures) ++
    plan.conceptFiles.map fun (file, _) ↦ .contribute file (plan.dictionary.fileSignatures file)

namespace Index

/-- The index after a step of a build. -/
def perform (index : Index) : BuildStep → Index
  | .forgetAll => { index with cache := .empty }
  | .storeConcepts file concepts =>
    { index with cache := index.cache.replaceConcepts file concepts }
  | .replaceDictionary dictionary => { index with dictionary }
  | .storeSpecification spec => { index with cache := index.cache.appendSpecification spec }
  | .contribute file signatures =>
    { index with cache := index.cache.insertSteps file signatures }

/-- Builds the index from some files, whatever it knew before. -/
def buildFrom (index : Index) (contents : Contents) (conceptFiles specificationFiles : List Path) :
    Index × BuildReport :=
  let plan := BuildPlan.read contents conceptFiles specificationFiles
  let built := plan.steps.foldl perform index
  (built,
    { conceptFiles := conceptFiles.length
      concepts := plan.dictionary.size
      specifications := plan.specifications.length
      steps := built.cache.steps.length
      failures := plan.failures
      conceptErrors := plan.conceptErrors })

/-- The sources of one kind in some directories, in order. Where two directories give one location
two spellings, that of the later directory counts. -/
def sourcesIn (disk : Disk) (kind : SourceKind) (directories : List Path) : List Path :=
  PathMap.paths (PathSet.insertAll ∅ (directories.reverse.flatMap (disk.sources kind)))

/-- Builds the index from a disk. -/
def build (index : Index) (disk : Disk) : Index × BuildReport :=
  index.buildFrom disk.contents (sourcesIn disk .concepts index.directories)
    (sourcesIn disk .specification index.directories)

end Index

end LiveSpec
