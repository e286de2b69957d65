import LiveSpec.Proofs.Index.Interleaving

/-!
# The turns of an activity

A step of a concurrent index is a turn of one activity, or nothing happens because there is no such activity or
it waits for the lock (`ConcurrentIndex.exists_isTurn_of_advance`). What a turn can do is said once and
completely (`ConcurrentIndex.IsTurn`), with what reading gave in it. What activities store, forget or read are
case analyses of it.
-/

set_option autoImplicit false

namespace LiveSpec

/-- The change that comes in with a move, if one does. -/
def ConcurrentIndex.Move.arrived? : ConcurrentIndex.Move → Option Change
  | arrive change => some change
  | _ => none

namespace ConcurrentIndex

/-- What a turn of an activity does to the index and to the activity. -/
inductive IsTurn (index : Index) (contents : Contents) : Activity → Index × Activity → Prop
  | acquired (work : ConceptWork) : IsTurn index contents (.waiting work) (index, .changing work)
  | released : IsTurn index contents .releasing (index, .finished)
  /-- A write of a specification takes the current dictionary. -/
  | beganSpecification {path : Path} (hkind : path.sourceKind = .specification) :
    IsTurn index contents (.ready (.write path)) (index, .reading path index.dictionary)
  | beganConcepts {path : Path} {concepts : List Concept} (hkind : path.sourceKind = .concepts)
    (hread : contents.concepts path = .ok concepts) :
    IsTurn index contents (.ready (.write path)) (index, .waiting (.replace path concepts))
  | failedConcepts {path : Path} {error : ParseError} (hkind : path.sourceKind = .concepts)
    (hread : contents.concepts path = .error error) :
    IsTurn index contents (.ready (.write path)) (index, .finished)
  | ignoredWrite {path : Path} (hkind : path.sourceKind = .other) :
    IsTurn index contents (.ready (.write path)) (index, .finished)
  | forgotSpecification {path : Path} (hkind : path.sourceKind = .specification) :
    IsTurn index contents (.ready (.remove path))
      ({ index with cache := index.cache.removeSpecification path }, .finished)
  | beganRemoval {path : Path} (hkind : path.sourceKind = .concepts) :
    IsTurn index contents (.ready (.remove path)) (index, .waiting (.remove path))
  | ignoredRemoval {path : Path} (hkind : path.sourceKind = .other) :
    IsTurn index contents (.ready (.remove path)) (index, .finished)
  /-- A removal of a directory looks at what is known beneath it. -/
  | looked (directory : Path) :
    IsTurn index contents (.ready (.removeTree directory)) (index,
      .forgetting (index.cache.specificationsBeneath directory) (index.cache.conceptFilesBeneath directory))
  | expanded {path : Path} {dictionary : Dictionary} {spec : Specification}
    (hread : contents.expanded dictionary path = .ok spec) :
    IsTurn index contents (.reading path dictionary) (index, .storing spec)
  | failedExpansion {path : Path} {dictionary : Dictionary} {error : IndexError}
    (hread : contents.expanded dictionary path = .error error) :
    IsTurn index contents (.reading path dictionary) (index, .finished)
  | stored (spec : Specification) :
    IsTurn index contents (.storing spec)
      ({ index with cache := index.cache.replaceSpecification spec spec.signatures }, .finished)
  | forgot (path : Path) (rest conceptFiles : List Path) :
    IsTurn index contents (.forgetting (path :: rest) conceptFiles)
      ({ index with cache := index.cache.removeSpecification path }, .forgetting rest conceptFiles)
  | forgotAll : IsTurn index contents (.forgetting [] []) (index, .finished)
  | beganRemovals (file : Path) (rest : List Path) :
    IsTurn index contents (.forgetting [] (file :: rest)) (index, .waiting (.removeAll (file :: rest)))
  | replaced (path : Path) (concepts : List Concept) :
    IsTurn index contents (.changing (.replace path concepts))
      ({ index with cache := index.cache.replaceConcepts path concepts }, .collecting)
  /-- The concepts of a path are forgotten, and a refresh follows only if there were any. -/
  | removed (path : Path) {next : Activity} (hnext : next = .collecting ∨ next = .releasing) :
    IsTurn index contents (.changing (.remove path))
      ({ index with cache := index.cache.removeConcepts path }, next)
  | removedFirst (file : Path) (rest : List Path) :
    IsTurn index contents (.changing (.removeAll (file :: rest)))
      ({ index with cache := index.cache.removeConcepts file }, .changing (.removeAll rest))
  | removedAll : IsTurn index contents (.changing (.removeAll [])) (index, .collecting)
  | collected : IsTurn index contents .collecting (index, .swapping index.cache.allConcepts)
  | swapped (concepts : List Concept) :
    IsTurn index contents (.swapping concepts)
      ({ index with dictionary := (Dictionary.build concepts).1 }, .listing (Dictionary.build concepts).1)
  | listed (dictionary : Dictionary) :
    IsTurn index contents (.listing dictionary) (index, .refreshing dictionary index.cache.conceptFiles)
  | refreshed (dictionary : Dictionary) (file : Path) (rest : List Path) :
    IsTurn index contents (.refreshing dictionary (file :: rest))
      ({ index with cache := index.cache.replaceSteps file (dictionary.fileSignatures file) },
        .refreshing dictionary rest)
  | refreshedAll (dictionary : Dictionary) : IsTurn index contents (.refreshing dictionary []) (index, .releasing)
  | rested : IsTurn index contents .finished (index, .finished)

theorem isTurn_begin (index : Index) (contents : Contents) (change : Change) :
    IsTurn index contents (.ready change) (begin index contents change) := by
  cases change with
  | write path =>
    cases hkind : path.sourceKind with
    | specification =>
      simp only [begin, hkind]
      exact .beganSpecification hkind
    | concepts =>
      cases hread : contents.concepts path with
      | ok concepts =>
        simp only [begin, hkind, hread]
        exact .beganConcepts hkind hread
      | error error =>
        simp only [begin, hkind, hread]
        exact .failedConcepts hkind hread
    | other =>
      simp only [begin, hkind]
      exact .ignoredWrite hkind
  | remove path =>
    cases hkind : path.sourceKind with
    | specification =>
      simp only [begin, hkind]
      exact .forgotSpecification hkind
    | concepts =>
      simp only [begin, hkind]
      exact .beganRemoval hkind
    | other =>
      simp only [begin, hkind]
      exact .ignoredRemoval hkind
  | removeTree directory => exact .looked directory

/-- Assumes: an activity that neither waits for the lock nor will release it. Its next step is a turn. -/
theorem isTurn_stepOf (index : Index) (contents : Contents) {activity : Activity}
    (hwaiting : ∀ work, activity ≠ .waiting work) (hreleasing : activity ≠ .releasing) :
    IsTurn index contents activity (stepOf index contents activity) := by
  cases activity with
  | ready change => exact isTurn_begin index contents change
  | reading path dictionary =>
    cases hread : contents.expanded dictionary path with
    | ok spec =>
      simp only [stepOf, hread]
      exact .expanded hread
    | error error =>
      simp only [stepOf, hread]
      exact .failedExpansion hread
  | storing spec => exact .stored spec
  | forgetting specifications conceptFiles =>
    cases specifications with
    | cons path rest => exact .forgot path rest conceptFiles
    | nil =>
      cases conceptFiles with
      | nil => exact .forgotAll
      | cons file rest => exact .beganRemovals file rest
  | waiting work => exact absurd rfl (hwaiting work)
  | changing work =>
    cases work with
    | replace path concepts => exact .replaced path concepts
    | remove path =>
      simp only [stepOf, changeConcepts]
      split
      · exact .removed path (.inl rfl)
      · exact .removed path (.inr rfl)
    | removeAll files =>
      cases files with
      | nil => exact .removedAll
      | cons file rest => exact .removedFirst file rest
  | collecting => exact .collected
  | swapping concepts => exact .swapped concepts
  | listing dictionary => exact .listed dictionary
  | refreshing dictionary files =>
    cases files with
    | nil => exact .refreshedAll dictionary
    | cons file rest => exact .refreshed dictionary file rest
  | releasing => exact absurd rfl hreleasing
  | finished => exact .rested

/-- An activity takes a turn, or nothing happens. -/
theorem exists_isTurn_of_advance (state : ConcurrentIndex) (contents : Contents) (position : Nat) :
    state.advance contents position = state ∨
      ∃ activity step isLocked, state.activities[position]? = some activity ∧
        IsTurn state.index contents activity step ∧ state.advance contents position =
          { state with index := step.1, isLocked }.setActivity position step.2 := by
  unfold advance
  cases hactivity : state.activities[position]? with
  | none => exact .inl rfl
  | some activity =>
    cases activity with
    | waiting work =>
      by_cases hlocked : state.isLocked = true
      · simp only [hlocked, if_true]
        exact .inl trivial
      · simp only [hlocked]
        exact .inr ⟨_, _, true, rfl, .acquired work, rfl⟩
    | releasing => exact .inr ⟨_, _, false, rfl, .released, rfl⟩
    | _ =>
      refine .inr ⟨_, _, state.isLocked, rfl, isTurn_stepOf state.index contents ?_ ?_, rfl⟩
      · rintro work ⟨⟩
      · rintro ⟨⟩

variable {state : ConcurrentIndex} {contents : Contents} {position other : Nat}

theorem length_activities_advance :
    (state.advance contents position).activities.length = state.activities.length := by
  obtain hsame | ⟨activity, step, isLocked, -, -, hafter⟩ :=
    state.exists_isTurn_of_advance contents position
  · rw [hsame]
  · rw [hafter]
    exact List.length_set

/-- The activities stay as they are when a change comes in. -/
theorem getElem?_activities_arrive {activity : Activity} (h : state.activities[position]? = some activity)
    (change : Change) : (state.move (.arrive change)).activities[position]? = some activity :=
  (List.getElem?_append_left (List.getElem?_eq_some_iff.mp h).1).trans h

/-- The other activities stay as they are when one of them takes a turn. -/
theorem getElem?_activities_advance (h : position ≠ other) :
    (state.advance contents position).activities[other]? = state.activities[other]? := by
  obtain hsame | ⟨activity, step, isLocked, -, -, hafter⟩ :=
    state.exists_isTurn_of_advance contents position
  · rw [hsame]
  · rw [hafter]
    exact List.getElem?_set_ne h

/-- There are as many activities as changes have come in. -/
theorem length_activities_run (state : ConcurrentIndex) (moves : List Move) :
    (state.run moves).activities.length =
      state.activities.length + (moves.filterMap Move.arrived?).length := by
  induction moves generalizing state with
  | nil => rfl
  | cons next moves ih =>
    refine (ih (state.move next)).trans ?_
    cases next with
    | arrive change =>
      show (state.activities ++ [_]).length + _ = _ + (change :: _).length
      rw [List.length_append, List.length_cons, List.length_cons, List.length_nil]
      omega
    | advance position contents => exact congrArg (· + _) length_activities_advance

end ConcurrentIndex

end LiveSpec
