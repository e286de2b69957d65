import LiveSpec.Index.Change

/-!
# Changes side by side

Changes that are worked off at the same time interleave. What is indivisible is one operation of the
cache, reading or replacing the dictionary, and taking or releasing the lock that lets only one
change touch the concepts at a time. An `Activity` is a change that is being worked off, by the step
that it takes next, and a `ConcurrentIndex` is an index with the activities on it.

A specification is read and expanded with the dictionary that was current when its change began, and
is stored without the lock. A change of concepts holds the lock from the first operation on concepts
to the last one of the refresh that follows it: all concepts are collected, the dictionary built from
them replaces the old one, the concept files are listed, and the steps of each are replaced.
-/

set_option autoImplicit false

namespace LiveSpec

/-- What a change does to the concepts. -/
inductive ConceptWork where
  | replace (path : Path) (concepts : List Concept)
  | remove (path : Path)
  | removeAll (files : List Path)
  deriving Repr, Inhabited

/-- A change that is being worked off, by its next step. -/
inductive Activity where
  /-- Nothing has been done. -/
  | ready (change : Change)
  /-- A specification will be read and expanded with a dictionary. -/
  | reading (path : Path) (dictionary : Dictionary)
  /-- A specification will be stored. -/
  | storing (spec : Specification)
  /-- Specifications will be forgotten one by one, and then concept files. -/
  | forgetting (specifications conceptFiles : List Path)
  /-- The lock will be taken as soon as it is free. -/
  | waiting (work : ConceptWork)
  /-- The lock is held, and concepts will be changed. -/
  | changing (work : ConceptWork)
  /-- The lock is held, and all concepts will be collected. -/
  | collecting
  /-- The lock is held, and the dictionary of some concepts will replace the current one. -/
  | swapping (concepts : List Concept)
  /-- The lock is held, and the concept files will be listed. -/
  | listing (dictionary : Dictionary)
  /-- The lock is held, and the steps of some concept files will be replaced one by one. -/
  | refreshing (dictionary : Dictionary) (files : List Path)
  /-- The lock will be released. -/
  | releasing
  | finished

/-- The change has been worked off. -/
def Activity.isFinished : Activity → Bool
  | finished => true
  | _ => false

/-- An index, its lock, and the activities on it. -/
structure ConcurrentIndex where
  index : Index
  isLocked : Bool
  activities : List Activity

namespace ConcurrentIndex

/-- An index on which nothing goes on. -/
def quiet (index : Index) : ConcurrentIndex := ⟨index, false, []⟩

/-- The first step of a change. -/
def begin (index : Index) (contents : Contents) : Change → Index × Activity
  | .write path =>
    match path.sourceKind with
    | .specification => (index, .reading path index.dictionary)
    | .concepts =>
      match contents.concepts path with
      | .ok concepts => (index, .waiting (.replace path concepts))
      | .error _ => (index, .finished)
    | .other => (index, .finished)
  | .remove path =>
    match path.sourceKind with
    | .specification =>
      ({ index with cache := index.cache.removeSpecification path }, .finished)
    | .concepts => (index, .waiting (.remove path))
    | .other => (index, .finished)
  | .removeTree directory =>
    (index, .forgetting (index.cache.specificationsBeneath directory)
      (index.cache.conceptFilesBeneath directory))

/-- The step that changes concepts, or one of several such steps. -/
def changeConcepts (index : Index) : ConceptWork → Index × Activity
  | .replace path concepts =>
    ({ index with cache := index.cache.replaceConcepts path concepts }, .collecting)
  | .remove path =>
    ({ index with cache := index.cache.removeConcepts path },
      if index.cache.concepts.contains path then .collecting else .releasing)
  | .removeAll (file :: rest) =>
    ({ index with cache := index.cache.removeConcepts file }, .changing (.removeAll rest))
  | .removeAll [] => (index, .collecting)

/-- The next step of an activity that does not concern the lock. -/
def stepOf (index : Index) (contents : Contents) : Activity → Index × Activity
  | .ready change => begin index contents change
  | .reading path dictionary =>
    match contents.expanded dictionary path with
    | .ok spec => (index, .storing spec)
    | .error _ => (index, .finished)
  | .storing spec =>
    ({ index with cache := index.cache.replaceSpecification spec spec.signatures }, .finished)
  | .forgetting (path :: rest) conceptFiles =>
    ({ index with cache := index.cache.removeSpecification path }, .forgetting rest conceptFiles)
  | .forgetting [] [] => (index, .finished)
  | .forgetting [] conceptFiles => (index, .waiting (.removeAll conceptFiles))
  | .changing work => changeConcepts index work
  | .collecting => (index, .swapping index.cache.allConcepts)
  | .swapping concepts =>
    let dictionary := (Dictionary.build concepts).1
    ({ index with dictionary }, .listing dictionary)
  | .listing dictionary => (index, .refreshing dictionary index.cache.conceptFiles)
  | .refreshing dictionary (file :: rest) =>
    ({ index with cache := index.cache.replaceSteps file (dictionary.fileSignatures file) },
      .refreshing dictionary rest)
  | .refreshing _ [] => (index, .releasing)
  | .waiting work => (index, .waiting work)
  | .releasing => (index, .releasing)
  | .finished => (index, .finished)

/-- Puts an activity at its next step. -/
def setActivity (state : ConcurrentIndex) (position : Nat) (activity : Activity) :
    ConcurrentIndex :=
  { state with activities := state.activities.set position activity }

/-- The next step of the activity at a position. While the lock is held by another activity, one that
waits for it takes no step. -/
def advance (state : ConcurrentIndex) (contents : Contents) (position : Nat) : ConcurrentIndex :=
  match state.activities[position]? with
  | none => state
  | some (.waiting work) =>
    if state.isLocked then state
    else { state with isLocked := true }.setActivity position (.changing work)
  | some .releasing => { state with isLocked := false }.setActivity position .finished
  | some activity =>
    let (index, next) := stepOf state.index contents activity
    { state with index }.setActivity position next

/-- What the environment does next. -/
inductive Move where
  /-- A change comes in. -/
  | arrive (change : Change)
  /-- An activity takes its next step, while reading gives certain contents. -/
  | advance (position : Nat) (contents : Contents)

/-- The state after a move. -/
def move (state : ConcurrentIndex) : Move → ConcurrentIndex
  | .arrive change => { state with activities := state.activities ++ [.ready change] }
  | .advance position contents => state.advance contents position

/-- The state after some moves. -/
def run (state : ConcurrentIndex) (moves : List Move) : ConcurrentIndex := moves.foldl move state

/-- Whether no change is in progress. -/
def IsQuiet (state : ConcurrentIndex) : Prop :=
  ∀ activity ∈ state.activities, activity = .finished

end ConcurrentIndex

end LiveSpec
