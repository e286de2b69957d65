import LiveSpec.Index.Activity
import LiveSpec.Proofs.Index.Build

/-!
# Coherence under interleaved changes

Changes that are worked off side by side leave a coherent index behind once none is in progress,
however their steps interleave and whatever reading gives on the way
(`ConcurrentIndex.isCoherent_of_isQuiet`). The index may start out empty or just after a build
(`Index.IsStart`).

Two facts carry this. An activity on specifications touches nothing that concerns concepts, so it may
happen at any moment. And the lock has one holder at a time, which leads the concepts through fixed
stages from one settled state to the next (`Activity.Stage`): all concepts have been collected, the
dictionary is that of the collected concepts, and of the concept files all but those that are still to
come are up to date with it. Both are part of an invariant (`ConcurrentIndex.IsConsistent`) that every
move preserves.
-/

set_option autoImplicit false

namespace LiveSpec

/-- A concept change concerns concept files only. -/
def ConceptWork.HasKinds : ConceptWork → Prop
  | replace path _ => path.sourceKind = .concepts
  | remove path => path.sourceKind = .concepts
  | removeAll files => ∀ file ∈ files, file.sourceKind = .concepts

namespace Activity

/-- The lock is held. -/
def HoldsLock : Activity → Prop
  | changing _ => True
  | collecting => True
  | swapping _ => True
  | listing _ => True
  | refreshing _ _ => True
  | releasing => True
  | _ => False

/-- Every path of an activity has the kind that the activity is about. -/
def HasKinds : Activity → Prop
  | reading path _ => path.sourceKind = .specification
  | storing spec => spec.file.sourceKind = .specification
  | forgetting specifications conceptFiles =>
    (∀ path ∈ specifications, path.sourceKind = .specification) ∧
      ∀ file ∈ conceptFiles, file.sourceKind = .concepts
  | waiting work => work.HasKinds
  | changing work => work.HasKinds
  | _ => True

/-- How far the concepts of an index are when an activity that holds the lock takes its next step. -/
def Stage (index : Index) : Activity → Prop
  | changing (.remove _) => index.IsSettled
  | swapping concepts => concepts = index.cache.allConcepts
  | listing dictionary =>
    index.dictionary = dictionary ∧ dictionary = (Dictionary.build index.cache.allConcepts).1
  | refreshing dictionary files =>
    index.dictionary = dictionary ∧ dictionary = (Dictionary.build index.cache.allConcepts).1 ∧
      index.cache.IsRefreshing dictionary files
  | releasing => index.IsSettled
  | _ => True

theorem isFinished_iff {activity : Activity} : activity.isFinished = true ↔ activity = .finished := by
  cases activity <;> simp [isFinished]

theorem stage_of_not_holdsLock {activity : Activity} (h : ¬ activity.HoldsLock) (index : Index) :
    activity.Stage index := by
  cases activity with
  | ready _ => trivial
  | reading _ _ => trivial
  | storing _ => trivial
  | forgetting _ _ => trivial
  | waiting _ => trivial
  | finished => trivial
  | changing _ => exact absurd trivial h
  | collecting => exact absurd trivial h
  | swapping _ => exact absurd trivial h
  | listing _ => exact absurd trivial h
  | refreshing _ _ => exact absurd trivial h
  | releasing => exact absurd trivial h

end Activity

/-! ### Steps that leave the concepts alone -/

theorem Activity.Stage.of_same {before after : Index} {activity : Activity}
    (hagree : before.cache.ConceptsAgree) (hsame : Index.SameConcepts before after)
    (h : activity.Stage before) : activity.Stage after := by
  cases activity with
  | ready _ => trivial
  | reading _ _ => trivial
  | storing _ => trivial
  | forgetting _ _ => trivial
  | waiting _ => trivial
  | finished => trivial
  | collecting => trivial
  | changing work =>
    cases work with
    | replace _ _ => trivial
    | removeAll _ => trivial
    | remove _ => exact Index.IsSettled.of_same hagree hsame h
  | swapping concepts => exact Eq.trans h hsame.allConcepts_eq.symm
  | listing dictionary =>
    obtain ⟨hcurrent, hbuilt⟩ := h
    refine ⟨hsame.dictionary_eq.trans hcurrent, ?_⟩
    rw [hsame.allConcepts_eq]
    exact hbuilt
  | refreshing dictionary files =>
    obtain ⟨hcurrent, hbuilt, hrefreshing⟩ := h
    refine ⟨hsame.dictionary_eq.trans hcurrent, ?_, hrefreshing.of_same hagree hsame.cache⟩
    rw [hsame.allConcepts_eq]
    exact hbuilt
  | releasing => exact Index.IsSettled.of_same hagree hsame h

namespace ConcurrentIndex

variable {index : Index} {contents : Contents} {activity : Activity}

/-- What a step without the lock leads to: the concepts are left alone and the lock is not taken. -/
structure IsFreeStep (index : Index) (step : Index × Activity) : Prop where
  isSound : step.1.cache.IsSound
  sameConcepts : Index.SameConcepts index step.1
  hasKinds : step.2.HasKinds
  not_holdsLock : ¬ step.2.HoldsLock

/-- A step that changes nothing in the index. -/
theorem IsFreeStep.of_index (h : index.cache.IsSound) {next : Activity} (hkinds : next.HasKinds)
    (hfree : ¬ next.HoldsLock) : IsFreeStep index (index, next) :=
  ⟨h, .refl index, hkinds, hfree⟩

/-- A step that forgets a specification. -/
theorem IsFreeStep.of_removeSpecification (h : index.cache.IsSound) {path : Path}
    (hpath : path.sourceKind = .specification) {next : Activity} (hkinds : next.HasKinds)
    (hfree : ¬ next.HoldsLock) :
    IsFreeStep index ({ index with cache := index.cache.removeSpecification path }, next) :=
  ⟨h.removeSpecification hpath, ⟨rfl, Cache.sameConcepts_removeSpecification hpath⟩, hkinds, hfree⟩

theorem isFreeStep_begin (h : index.cache.IsSound) (change : Change) :
    IsFreeStep index (begin index contents change) := by
  cases change with
  | write path =>
    simp only [begin]
    split
    · rename_i hpath
      exact .of_index h hpath id
    · rename_i hpath
      split
      · exact .of_index h hpath id
      · exact .of_index h trivial id
    · exact .of_index h trivial id
  | remove path =>
    simp only [begin]
    split
    · rename_i hpath
      exact .of_removeSpecification h hpath trivial id
    · rename_i hpath
      exact .of_index h hpath id
    · exact .of_index h trivial id
  | removeTree directory =>
    refine .of_index h ⟨?_, ?_⟩ id
    · intro path hpath
      have hlisted := (List.mem_filter.mp hpath).1
      exact h.specifications.sourceKind_eq path
        (PathMap.contains_of_mem_paths h.specifications.isSpelled hlisted)
    · intro file hfile
      have hlisted := (List.mem_filter.mp hfile).1
      exact h.concepts.sourceKind_eq file
        (PathMap.contains_of_mem_paths h.concepts.isSpelled hlisted)

/-- Assumes: a sound cache, and an activity on paths of the right kind that does not hold the lock. Its
next step leaves the concepts alone. -/
theorem isFreeStep_stepOf (contents : Contents) (h : index.cache.IsSound) (hkinds : activity.HasKinds)
    (hfree : ¬ activity.HoldsLock) : IsFreeStep index (stepOf index contents activity) := by
  cases activity with
  | ready change => exact isFreeStep_begin h change
  | reading path dictionary =>
    simp only [stepOf]
    split
    · rename_i spec hread
      refine .of_index h ?_ id
      show spec.file.sourceKind = .specification
      rw [Contents.file_of_expanded hread]
      exact hkinds
    · exact .of_index h trivial id
  | storing spec =>
    exact ⟨h.replaceSpecification hkinds,
      ⟨rfl, Cache.sameConcepts_replaceSpecification hkinds spec.signatures⟩, trivial, id⟩
  | forgetting specifications conceptFiles =>
    obtain ⟨hspecifications, hconcepts⟩ := hkinds
    cases specifications with
    | cons path rest =>
      refine .of_removeSpecification h (hspecifications path List.mem_cons_self) ⟨?_, hconcepts⟩ id
      intro other hother
      exact hspecifications other (List.mem_cons_of_mem path hother)
    | nil =>
      cases conceptFiles with
      | nil => exact .of_index h trivial id
      | cons file rest => exact .of_index h hconcepts id
  | waiting work => exact .of_index h hkinds id
  | finished => exact .of_index h trivial id
  | changing _ => exact absurd trivial hfree
  | collecting => exact absurd trivial hfree
  | swapping _ => exact absurd trivial hfree
  | listing _ => exact absurd trivial hfree
  | refreshing _ _ => exact absurd trivial hfree
  | releasing => exact absurd trivial hfree

/-! ### Steps of the holder of the lock -/

/-- What a step with the lock leads to: the next stage, still with the lock. -/
structure IsHeldStep (step : Index × Activity) : Prop where
  isSound : step.1.cache.IsSound
  hasKinds : step.2.HasKinds
  holdsLock : step.2.HoldsLock
  stage : step.2.Stage step.1

theorem isHeldStep_changeConcepts (h : index.cache.IsSound) {work : ConceptWork}
    (hkinds : work.HasKinds) (hstage : (Activity.changing work).Stage index) :
    IsHeldStep (changeConcepts index work) := by
  cases work with
  | replace path concepts => exact ⟨h.replaceConcepts hkinds concepts, trivial, trivial, trivial⟩
  | remove path =>
    simp only [changeConcepts]
    split
    · exact ⟨h.removeConcepts hkinds, trivial, trivial, trivial⟩
    · rename_i hunknown
      exact ⟨h.removeConcepts hkinds, trivial, trivial,
        hstage.removeConcepts (Bool.eq_false_iff.mpr hunknown)⟩
  | removeAll files =>
    cases files with
    | nil => exact ⟨h, trivial, trivial, trivial⟩
    | cons file rest =>
      refine ⟨h.removeConcepts (hkinds file List.mem_cons_self), ?_, trivial, trivial⟩
      intro other hother
      exact hkinds other (List.mem_cons_of_mem file hother)

/-- Assumes: a sound cache, and an activity at its stage that holds the lock. Its next step leads to the
next stage. -/
theorem isHeldStep_stepOf (contents : Contents) (h : index.cache.IsSound) (hkinds : activity.HasKinds)
    (hholds : activity.HoldsLock) (hstage : activity.Stage index) :
    IsHeldStep (stepOf index contents activity) := by
  cases activity with
  | changing work => exact isHeldStep_changeConcepts h hkinds hstage
  | collecting => exact ⟨h, trivial, trivial, rfl⟩
  | swapping concepts =>
    obtain rfl : concepts = index.cache.allConcepts := hstage
    exact ⟨h, trivial, trivial, rfl, rfl⟩
  | listing dictionary =>
    obtain ⟨hcurrent, hbuilt⟩ := hstage
    exact ⟨h, trivial, trivial, hcurrent, hbuilt, h.concepts.isRefreshing dictionary⟩
  | refreshing dictionary files =>
    obtain ⟨hcurrent, hbuilt, hrefreshing⟩ := hstage
    cases files with
    | cons file rest =>
      have hknown := hrefreshing.contains_of_mem file List.mem_cons_self
      exact ⟨h.replaceSteps hknown _, trivial, trivial, hcurrent, hbuilt, hrefreshing.replaceSteps⟩
    | nil =>
      exact ⟨h, trivial, trivial, Index.isSettled_of_isRefreshing hcurrent hbuilt hrefreshing⟩
  | releasing => exact ⟨h, trivial, trivial, hstage⟩
  | ready _ => exact hholds.elim
  | reading _ _ => exact hholds.elim
  | storing _ => exact hholds.elim
  | forgetting _ _ => exact hholds.elim
  | waiting _ => exact hholds.elim
  | finished => exact hholds.elim

/-! ### What every move preserves -/

variable {state : ConcurrentIndex}

/-- The activity at a position holds the lock. -/
def IsHolder (state : ConcurrentIndex) (position : Nat) : Prop :=
  ∃ activity, state.activities[position]? = some activity ∧ activity.HoldsLock

/-- The cache is sound, the lock has one holder at most, the concepts are at the stage of the holder, and
they are settled while there is none. -/
structure IsConsistent (state : ConcurrentIndex) : Prop where
  isSound : state.index.cache.IsSound
  hasKinds : ∀ activity ∈ state.activities, activity.HasKinds
  stage : ∀ activity ∈ state.activities, activity.Stage state.index
  holder_unique : ∀ position other, state.IsHolder position → state.IsHolder other → position = other
  isLocked : ∀ position, state.IsHolder position → state.isLocked = true
  isSettled : (∀ position, ¬ state.IsHolder position) → state.index.IsSettled

/-- No change is in progress exactly when every activity is finished. -/
theorem isQuiet_iff : state.IsQuiet ↔ state.activities.all Activity.isFinished = true := by
  rw [List.all_eq_true]
  exact forall₂_congr fun activity _ ↦ Activity.isFinished_iff.symm

theorem isConsistent_quiet (hsound : index.cache.IsSound) (hsettled : index.IsSettled) :
    (quiet index).IsConsistent := by
  have hnone : ∀ position, ¬ (quiet index).IsHolder position := by
    rintro position ⟨activity, hactivity, -⟩
    cases hactivity
  constructor
  · exact hsound
  · intro activity hmem
    cases hmem
  · intro activity hmem
    cases hmem
  · intro position other hholder _
    exact absurd hholder (hnone position)
  · intro position hholder
    exact absurd hholder (hnone position)
  · intro _
    exact hsettled

theorem isHolder_setActivity (state : ConcurrentIndex) {position other : Nat} {next : Activity}
    (h : state.activities[position]? = some activity) :
    (state.setActivity position next).IsHolder other ↔
      if position = other then next.HoldsLock else state.IsHolder other := by
  have hlength : position < state.activities.length := (List.getElem?_eq_some_iff.mp h).1
  simp only [IsHolder, setActivity, List.getElem?_set]
  by_cases hsame : position = other
  · subst hsame
    simp [hlength]
  · simp [hsame]

namespace IsConsistent

variable {position : Nat} {next : Activity}

/-- Assumes: an activity of a consistent state that does not hold the lock, and a step of it that leaves
the concepts alone. The state after the step is consistent. -/
theorem of_isFreeStep (h : state.IsConsistent) (hactivity : state.activities[position]? = some activity)
    (hfree : ¬ activity.HoldsLock) {step : Index × Activity} (hstep : IsFreeStep state.index step) :
    ({ state with index := step.1 }.setActivity position step.2).IsConsistent := by
  have hholder : ∀ other,
      ({ state with index := step.1 }.setActivity position step.2).IsHolder other ↔
        state.IsHolder other := by
    intro other
    rw [isHolder_setActivity { state with index := step.1 } hactivity]
    by_cases hsame : position = other
    · subst hsame
      rw [if_pos rfl]
      refine iff_of_false hstep.not_holdsLock ?_
      rintro ⟨found, hfound, hholds⟩
      rw [hactivity] at hfound
      cases hfound
      exact hfree hholds
    · rw [if_neg hsame]
      rfl
  constructor
  · exact hstep.isSound
  · intro other hother
    rcases List.mem_or_eq_of_mem_set hother with hold | rfl
    · exact h.hasKinds other hold
    · exact hstep.hasKinds
  · intro other hother
    rcases List.mem_or_eq_of_mem_set hother with hold | rfl
    · exact (h.stage other hold).of_same h.isSound.concepts hstep.sameConcepts
    · exact Activity.stage_of_not_holdsLock hstep.not_holdsLock _
  · intro one other hone hother
    exact h.holder_unique one other ((hholder one).mp hone) ((hholder other).mp hother)
  · intro other hother
    exact h.isLocked other ((hholder other).mp hother)
  · intro hnone
    have hsettled := h.isSettled fun other hother ↦ hnone other ((hholder other).mpr hother)
    exact hsettled.of_same h.isSound.concepts hstep.sameConcepts

/-- Assumes: a state in which no activity but the one at a position holds the lock. After a held step
there the state is consistent. -/
theorem of_isHeldStep (h : state.IsConsistent) (hactivity : state.activities[position]? = some activity)
    (hothers : ∀ other, state.IsHolder other → position = other) {step : Index × Activity}
    (hstep : IsHeldStep step) :
    ({ state with index := step.1, isLocked := true }.setActivity position step.2).IsConsistent := by
  have hholder : ∀ other,
      ({ state with index := step.1, isLocked := true }.setActivity position step.2).IsHolder other ↔
        position = other := by
    intro other
    rw [isHolder_setActivity { state with index := step.1, isLocked := true } hactivity]
    by_cases hsame : position = other
    · rw [if_pos hsame]
      exact iff_of_true hstep.holdsLock hsame
    · rw [if_neg hsame]
      exact iff_of_false (fun hother ↦ hsame (hothers other hother)) hsame
  constructor
  · exact hstep.isSound
  · intro other hother
    rcases List.mem_or_eq_of_mem_set hother with hold | rfl
    · exact h.hasKinds other hold
    · exact hstep.hasKinds
  · intro other hother
    by_cases hholds : other.HoldsLock
    · obtain ⟨place, hplace⟩ := List.getElem?_of_mem hother
      have hsame := (hholder place).mp ⟨other, hplace, hholds⟩
      subst hsame
      have hset : step.2 = other := by
        have hlength := (List.getElem?_eq_some_iff.mp hactivity).1
        simp only [setActivity, List.getElem?_set, hlength] at hplace
        simpa using hplace
      rw [← hset]
      exact hstep.stage
    · exact Activity.stage_of_not_holdsLock hholds _
  · intro one other hone hother
    exact ((hholder one).mp hone).symm.trans ((hholder other).mp hother)
  · intro _ _
    rfl
  · intro hnone
    exact absurd ((hholder position).mpr rfl) (hnone position)

/-- The holder of the lock is the only one. -/
theorem eq_of_isHolder (h : state.IsConsistent) (hactivity : state.activities[position]? = some activity)
    (hholds : activity.HoldsLock) (other : Nat) (hother : state.IsHolder other) :
    position = other :=
  h.holder_unique position other ⟨activity, hactivity, hholds⟩ hother

/-- Taking the free lock. -/
theorem acquire (h : state.IsConsistent) {work : ConceptWork}
    (hactivity : state.activities[position]? = some (.waiting work))
    (hunlocked : ¬ state.isLocked = true) :
    ({ state with isLocked := true }.setActivity position (.changing work)).IsConsistent := by
  have hnone : ∀ other, ¬ state.IsHolder other :=
    fun other hother ↦ hunlocked (h.isLocked other hother)
  have hstep : IsHeldStep (state.index, .changing work) := by
    have hkinds : work.HasKinds := h.hasKinds _ (List.mem_of_getElem? hactivity)
    refine ⟨h.isSound, hkinds, trivial, ?_⟩
    cases work with
    | remove _ => exact h.isSettled hnone
    | replace _ _ => trivial
    | removeAll _ => trivial
  exact h.of_isHeldStep hactivity (fun other hother ↦ absurd hother (hnone other)) hstep

/-- Giving back the lock. -/
theorem release (h : state.IsConsistent)
    (hactivity : state.activities[position]? = some .releasing) :
    ({ state with isLocked := false }.setActivity position .finished).IsConsistent := by
  have hsettled : state.index.IsSettled := h.stage _ (List.mem_of_getElem? hactivity)
  have hnone : ∀ other,
      ¬ ({ state with isLocked := false }.setActivity position .finished).IsHolder other := by
    intro other
    rw [isHolder_setActivity { state with isLocked := false } hactivity]
    by_cases hsame : position = other
    · rw [if_pos hsame]
      exact id
    · rw [if_neg hsame]
      exact fun hother ↦ hsame (h.eq_of_isHolder hactivity trivial other hother)
  constructor
  · exact h.isSound
  · intro other hother
    rcases List.mem_or_eq_of_mem_set hother with hold | rfl
    · exact h.hasKinds other hold
    · trivial
  · intro other hother
    rcases List.mem_or_eq_of_mem_set hother with hold | rfl
    · exact h.stage other hold
    · trivial
  · intro one _ hone _
    exact absurd hone (hnone one)
  · intro other hother
    exact absurd hother (hnone other)
  · intro _
    exact hsettled

/-- A step of an activity that neither waits for the lock nor gives it back. -/
theorem step (h : state.IsConsistent) (contents : Contents)
    (hactivity : state.activities[position]? = some activity) :
    ({ state with index := (stepOf state.index contents activity).1 }.setActivity position
      (stepOf state.index contents activity).2).IsConsistent := by
  have hkinds := h.hasKinds activity (List.mem_of_getElem? hactivity)
  by_cases hholds : activity.HoldsLock
  · have hstage := h.stage activity (List.mem_of_getElem? hactivity)
    have hlocked := h.isLocked position ⟨activity, hactivity, hholds⟩
    have hnext := h.of_isHeldStep hactivity (h.eq_of_isHolder hactivity hholds)
      (isHeldStep_stepOf contents h.isSound hkinds hholds hstage)
    rw [← hlocked] at hnext
    exact hnext
  · exact h.of_isFreeStep hactivity hholds (isFreeStep_stepOf contents h.isSound hkinds hholds)

theorem advance (h : state.IsConsistent) (contents : Contents) (position : Nat) :
    (state.advance contents position).IsConsistent := by
  unfold ConcurrentIndex.advance
  cases hactivity : state.activities[position]? with
  | none => exact h
  | some activity =>
    cases activity with
    | waiting work =>
      by_cases hlocked : state.isLocked = true
      · simp only [hlocked, if_true]
        exact h
      · simp only [hlocked]
        exact h.acquire hactivity hlocked
    | releasing => exact h.release hactivity
    | ready _ => exact h.step contents hactivity
    | reading _ _ => exact h.step contents hactivity
    | storing _ => exact h.step contents hactivity
    | forgetting _ _ => exact h.step contents hactivity
    | changing _ => exact h.step contents hactivity
    | collecting => exact h.step contents hactivity
    | swapping _ => exact h.step contents hactivity
    | listing _ => exact h.step contents hactivity
    | refreshing _ _ => exact h.step contents hactivity
    | finished => exact h.step contents hactivity

/-- A change that comes in holds no lock. -/
theorem arrive (h : state.IsConsistent) (change : Change) :
    (state.move (.arrive change)).IsConsistent := by
  have hholder : ∀ other, (state.move (.arrive change)).IsHolder other ↔ state.IsHolder other := by
    intro other
    show (∃ activity, (state.activities ++ [.ready change])[other]? = some activity ∧ _) ↔ _
    constructor
    · rintro ⟨activity, hactivity, hholds⟩
      rw [List.getElem?_append] at hactivity
      split at hactivity
      · exact ⟨activity, hactivity, hholds⟩
      · obtain rfl := List.mem_singleton.mp (List.mem_of_getElem? hactivity)
        exact hholds.elim
    · rintro ⟨activity, hactivity, hholds⟩
      refine ⟨activity, ?_, hholds⟩
      rw [List.getElem?_append_left (List.getElem?_eq_some_iff.mp hactivity).1]
      exact hactivity
  constructor
  · exact h.isSound
  · intro activity hmem
    rcases List.mem_append.mp hmem with hold | hnew
    · exact h.hasKinds activity hold
    · obtain rfl := List.mem_singleton.mp hnew
      trivial
  · intro activity hmem
    rcases List.mem_append.mp hmem with hold | hnew
    · exact h.stage activity hold
    · obtain rfl := List.mem_singleton.mp hnew
      trivial
  · intro one other hone hother
    exact h.holder_unique one other ((hholder one).mp hone) ((hholder other).mp hother)
  · intro other hother
    exact h.isLocked other ((hholder other).mp hother)
  · intro hnone
    exact h.isSettled fun other hother ↦ hnone other ((hholder other).mpr hother)

theorem move (h : state.IsConsistent) (next : Move) : (state.move next).IsConsistent := by
  cases next with
  | arrive change => exact h.arrive change
  | advance position contents => exact h.advance contents position

theorem run (h : state.IsConsistent) (moves : List Move) : (state.run moves).IsConsistent := by
  induction moves generalizing state with
  | nil => exact h
  | cons next moves ih => exact ih (h.move next)

end IsConsistent

/-- When no change is in progress the concepts are settled. -/
theorem IsConsistent.isSettled_of_isQuiet (h : state.IsConsistent) (hquiet : state.IsQuiet) :
    state.index.IsSettled := by
  refine h.isSettled ?_
  rintro position ⟨activity, hactivity, hholds⟩
  rw [hquiet activity (List.mem_of_getElem? hactivity)] at hholds
  exact hholds

/-- Assumes: an index that is empty or was just built. However the steps of any changes interleave, and
whatever is read meanwhile, the index is coherent whenever no change is in progress. -/
theorem isCoherent_of_isQuiet {index : Index} (hstart : index.IsStart) (moves : List Move)
    (hquiet : ((quiet index).run moves).IsQuiet) :
    ((quiet index).run moves).index.IsCoherent := by
  have hconsistent := (isConsistent_quiet hstart.isSound hstart.isSettled).run moves
  exact Index.isCoherent hconsistent.isSound (hconsistent.isSettled_of_isQuiet hquiet)

/-- A concept file and a specification that has one step of its own. -/
def loginContents : Contents := fun path ↦
  if path = ⟨"login.cpt"⟩ then .ok "# Log in\n* Open page\n"
  else if path = ⟨"pay.spec"⟩ then .ok "# Pay\n* Log in\n* Pay\n"
  else .error .notFound

/-- Both files are written and a third one is removed, in turns. The specification is read before the
concepts are known. -/
def loginMoves : List Move :=
  [.arrive (.write ⟨"login.cpt"⟩), .arrive (.write ⟨"pay.spec"⟩), .arrive (.remove ⟨"old.cpt"⟩)] ++
    [1, 0, 2, 0, 1, 2, 0, 1, 0, 2, 0, 0, 0, 0, 0, 2, 2, 2].map fun position ↦
      .advance position loginContents

/-- After these moves nothing is in progress and the concept file contributes the step of its
concept. -/
theorem isCoherent_of_isQuiet_login :
    ((quiet (.new [])).run loginMoves).IsQuiet ∧
      ((quiet (.new [])).run loginMoves).index.IsCoherent ∧
      ((quiet (.new [])).run loginMoves).index.cache.contributors "Open page" = [⟨"login.cpt"⟩] := by
  have hquiet : ((quiet (.new [])).run loginMoves).IsQuiet := isQuiet_iff.mpr (by decide +kernel)
  exact ⟨hquiet, isCoherent_of_isQuiet (.new []) loginMoves hquiet, by decide +kernel⟩

end ConcurrentIndex

end LiveSpec
