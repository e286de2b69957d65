import LiveSpec.Proofs.Index.Listing
import LiveSpec.Proofs.Index.Scheduling

/-!
# The stages of a write

A file that is written is read in one step of its activity and stored in a later one, with steps of other
activities in between. A specification is expanded with the dictionary of the first step, and concepts are
stored before the dictionary is built anew from them. `Activity.Writes` says of every stage which dictionary
was read and what has been stored, and a write goes from one stage to the next
(`ConcurrentIndex.IsTurn.writes_of_ready`, `ConcurrentIndex.IsTurn.writes`). Its steps concern no other path
(`ConcurrentIndex.IsTurn.sameAt`), so writes of different paths do not disturb each other
(`Activity.Writes.of_sameAt`), and only a write of concepts changes the dictionary
(`ConcurrentIndex.IsTurn.dictionary_eq`).

Whatever activities do, all known concepts have been read from their paths
(`ConcurrentIndex.conceptsAreRead_run`).
-/

set_option autoImplicit false

namespace LiveSpec

/-! ### Where the concepts come from -/

/-- Some concepts have been read from a path, under some spelling. -/
def Path.Brings (path : Path) (concepts : List Concept) : Prop :=
  ∃ file text, file.location = path.location ∧ Concept.parseAll file text = .ok concepts

/-- The concepts that an activity will put into the index have been read from their path. -/
def Activity.AreRead : Activity → Prop
  | waiting (.replace path concepts) => path.Brings concepts
  | changing (.replace path concepts) => path.Brings concepts
  | _ => True

namespace ConcurrentIndex

variable {index : Index} {contents : Contents} {activity : Activity} {step : Index × Activity}
  {state : ConcurrentIndex}

/-- A step leaves all concepts read from their paths. -/
theorem IsTurn.areRead (h : IsTurn index contents activity step) (hcache : index.cache.ConceptsAreRead)
    (hread : activity.AreRead) : step.1.cache.ConceptsAreRead ∧ step.2.AreRead := by
  have herased : ∀ removed : Path, (index.cache.removeConcepts removed).ConceptsAreRead := by
    intro removed path concepts hfound
    rw [Cache.removeConcepts, PathMap.find?_erase] at hfound
    split_ifs at hfound
    exact hcache path concepts hfound
  cases h with
  | acquired work => cases work <;> exact ⟨hcache, hread⟩
  | beganConcepts hkind hconcepts =>
    obtain ⟨text, hparse⟩ := Contents.exists_parseAll hconcepts
    exact ⟨hcache, _, text, rfl, hparse⟩
  | replaced written new =>
    refine ⟨fun path concepts hfound ↦ ?_, trivial⟩
    have hstored : (index.cache.concepts.set written new).find? path = some concepts := hfound
    rw [PathMap.find?_set] at hstored
    split_ifs at hstored with hsame
    · obtain ⟨file, text, hlocation, hparse⟩ := hread
      exact ⟨file, text, hlocation.trans hsame, Option.some.inj hstored ▸ hparse⟩
    · exact hcache path concepts hstored
  | removed path hnext => obtain rfl | rfl := hnext <;> exact ⟨herased path, trivial⟩
  | removedFirst file rest => exact ⟨herased file, trivial⟩
  | _ => exact ⟨hcache, trivial⟩

/-- Assumes: an index whose concepts have been read from their paths. So they are after any moves. -/
theorem conceptsAreRead_run (hcache : index.cache.ConceptsAreRead) (moves : List Move) :
    ((quiet index).run moves).index.cache.ConceptsAreRead := by
  have hrun : ∀ (moves : List Move) (state : ConcurrentIndex), state.index.cache.ConceptsAreRead →
      (∀ activity ∈ state.activities, activity.AreRead) → (state.run moves).index.cache.ConceptsAreRead := by
    intro moves
    induction moves with
    | nil => exact fun _ hcache _ ↦ hcache
    | cons next moves ih =>
      intro state hcache hread
      cases next with
      | arrive change =>
        refine ih _ hcache fun activity hactivity ↦ ?_
        rcases List.mem_append.mp hactivity with hbefore | hnew
        · exact hread activity hbefore
        · rw [List.mem_singleton.mp hnew]
          trivial
      | advance position contents =>
        show ((state.advance contents position).run moves).index.cache.ConceptsAreRead
        obtain hsame | ⟨activity, step, isLocked, hactivity, hturn, hafter⟩ :=
          state.exists_isTurn_of_advance contents position
        · rw [hsame]
          exact ih state hcache hread
        · obtain ⟨hcacheAfter, hreadAfter⟩ :=
            hturn.areRead hcache (hread activity (List.mem_of_getElem? hactivity))
          rw [hafter]
          refine ih _ hcacheAfter fun other hother ↦ ?_
          rcases List.mem_or_eq_of_mem_set hother with hbefore | rfl
          · exact hread other hbefore
          · exact hreadAfter
  exact hrun moves _ hcache fun activity hactivity ↦ absurd hactivity List.not_mem_nil

end ConcurrentIndex

/-! ### The stages of a write -/

/-- What reading a path gives, with a certain dictionary, is in the index. -/
structure Index.HasStored (index : Index) (contents : Contents) (dictionary : Dictionary) (path : Path) :
    Prop where
  specification : path.sourceKind = .specification → ∀ spec,
    contents.expanded dictionary path = .ok spec → index.cache.specification? path = some spec
  concepts : path.sourceKind = .concepts → ∀ concepts,
    contents.concepts path = .ok concepts → index.cache.concepts.find? path = some concepts

/-- Of the path of a specification only the specification has to be stored. -/
theorem Index.HasStored.of_specification {index : Index} {contents : Contents} {dictionary : Dictionary}
    {path : Path} (hkind : path.sourceKind = .specification)
    (h : ∀ spec, contents.expanded dictionary path = .ok spec → index.cache.specification? path = some spec) :
    index.HasStored contents dictionary path := by
  refine ⟨fun _ ↦ h, fun hconcepts ↦ ?_⟩
  rw [hkind] at hconcepts
  cases hconcepts

/-- Of the path of a concept file only the concepts have to be stored. -/
theorem Index.HasStored.of_concepts {index : Index} {contents : Contents} {dictionary : Dictionary}
    {path : Path} (hkind : path.sourceKind = .concepts)
    (h : ∀ concepts, contents.concepts path = .ok concepts →
      index.cache.concepts.find? path = some concepts) : index.HasStored contents dictionary path := by
  refine ⟨fun hspec ↦ ?_, fun _ ↦ h⟩
  rw [hkind] at hspec
  cases hspec

/-- Two indices know the same of a path. -/
structure Index.SameAt (before after : Index) (path : Path) : Prop where
  specification_eq : after.cache.specification? path = before.cache.specification? path
  concepts_eq : after.cache.concepts.find? path = before.cache.concepts.find? path

theorem Index.SameAt.hasStored {before after : Index} {contents : Contents} {dictionary : Dictionary}
    {path : Path} (hsame : before.SameAt after path) (h : before.HasStored contents dictionary path) :
    after.HasStored contents dictionary path :=
  ⟨fun hkind spec hspec ↦ hsame.specification_eq.trans (h.specification hkind spec hspec),
    fun hkind concepts hconcepts ↦ hsame.concepts_eq.trans (h.concepts hkind concepts hconcepts)⟩

/-- An activity is writing a path, for which it has read a certain dictionary. What it will store is what
reading the path gives, and when it has stored it, it is in the index. -/
def Activity.Writes (contents : Contents) (path : Path) (dictionary : Dictionary) (index : Index) :
    Activity → Prop
  | reading file known => path.sourceKind = .specification ∧ file = path ∧ known = dictionary
  | storing spec => path.sourceKind = .specification ∧ contents.expanded dictionary path = .ok spec
  | waiting (.replace file concepts) =>
    path.sourceKind = .concepts ∧ file = path ∧ contents.concepts path = .ok concepts
  | changing (.replace file concepts) =>
    path.sourceKind = .concepts ∧ file = path ∧ contents.concepts path = .ok concepts
  | collecting => path.sourceKind = .concepts ∧ index.HasStored contents dictionary path
  | swapping _ => path.sourceKind = .concepts ∧ index.HasStored contents dictionary path
  | listing _ => path.sourceKind = .concepts ∧ index.HasStored contents dictionary path
  | refreshing _ _ => path.sourceKind = .concepts ∧ index.HasStored contents dictionary path
  | releasing => path.sourceKind = .concepts ∧ index.HasStored contents dictionary path
  | finished => index.HasStored contents dictionary path
  | _ => False

/-- What other activities do elsewhere does not concern a write. -/
theorem Activity.Writes.of_sameAt {contents : Contents} {path : Path} {dictionary : Dictionary}
    {before after : Index} {activity : Activity} (h : activity.Writes contents path dictionary before)
    (hsame : before.SameAt after path) : activity.Writes contents path dictionary after := by
  cases activity with
  | collecting | swapping | listing | refreshing | releasing => exact ⟨h.1, hsame.hasStored h.2⟩
  | finished => exact hsame.hasStored h
  | waiting work => cases work <;> exact h
  | changing work => cases work <;> exact h
  | _ => exact h

namespace ConcurrentIndex

variable {index : Index} {contents : Contents} {activity : Activity} {step : Index × Activity}
  {path file : Path} {dictionary : Dictionary}

/-- The first step of a write reads the current dictionary. -/
theorem IsTurn.writes_of_ready (h : IsTurn index contents (.ready (.write path)) step) :
    step.2.Writes contents path index.dictionary step.1 ∧ step.1 = index := by
  cases h with
  | beganSpecification hkind => exact ⟨⟨hkind, rfl, rfl⟩, rfl⟩
  | beganConcepts hkind hread => exact ⟨⟨hkind, rfl, hread⟩, rfl⟩
  | failedConcepts hkind hread =>
    refine ⟨.of_concepts hkind fun concepts hconcepts ↦ ?_, rfl⟩
    rw [hread] at hconcepts
    cases hconcepts
  | ignoredWrite hkind =>
    refine ⟨⟨fun hspec ↦ ?_, fun hconcepts ↦ ?_⟩, rfl⟩
    · rw [hkind] at hspec
      cases hspec
    · rw [hkind] at hconcepts
      cases hconcepts

/-- A write comes from one stage to the next. -/
theorem IsTurn.writes (h : IsTurn index contents activity step)
    (hwrites : activity.Writes contents path dictionary index) :
    step.2.Writes contents path dictionary step.1 := by
  cases h with
  | acquired work => cases work <;> exact hwrites
  | released => exact hwrites.2
  | expanded hread =>
    obtain ⟨hkind, rfl, rfl⟩ := hwrites
    exact ⟨hkind, hread⟩
  | failedExpansion hread =>
    obtain ⟨hkind, rfl, rfl⟩ := hwrites
    refine .of_specification hkind fun spec hspec ↦ ?_
    rw [hread] at hspec
    cases hspec
  | stored spec =>
    obtain ⟨hkind, hread⟩ := hwrites
    refine .of_specification hkind fun other hother ↦ ?_
    obtain rfl : spec = other := Except.ok.inj (hread.symm.trans hother)
    rw [Cache.specification?_replaceSpecification, if_pos]
    rw [Contents.file_of_expanded hread]
  | replaced file concepts =>
    obtain ⟨hkind, rfl, hread⟩ := hwrites
    refine ⟨hkind, .of_concepts hkind fun other hother ↦ ?_⟩
    obtain rfl : concepts = other := Except.ok.inj (hread.symm.trans hother)
    exact PathMap.find?_set_self ..
  | swapped | refreshed => exact ⟨hwrites.1, hwrites.2.specification, hwrites.2.concepts⟩
  | collected | listed | refreshedAll | rested => exact hwrites
  | _ => exact hwrites.elim

/-- A step of a write concerns no other path. -/
theorem IsTurn.sameAt (h : IsTurn index contents activity step)
    (hwrites : activity.Writes contents path dictionary index) (hother : path.location ≠ file.location) :
    index.SameAt step.1 file := by
  cases h with
  | stored spec =>
    refine ⟨?_, rfl⟩
    rw [Cache.specification?_replaceSpecification, if_neg]
    rwa [Contents.file_of_expanded hwrites.2]
  | replaced written concepts =>
    obtain ⟨-, rfl, -⟩ := hwrites
    exact ⟨rfl, (PathMap.find?_set _ _ _ _).trans (if_neg hother)⟩
  | forgotSpecification | forgot | removed | removedFirst => exact hwrites.elim
  | _ => exact ⟨rfl, rfl⟩

/-- Only a write of concepts changes the dictionary. -/
theorem IsTurn.dictionary_eq (h : IsTurn index contents activity step)
    (hwrites : activity.Writes contents path dictionary index) (hkind : path.sourceKind ≠ .concepts) :
    step.1.dictionary = index.dictionary := by
  cases h with
  | swapped concepts => exact absurd hwrites.1 hkind
  | _ => rfl

end ConcurrentIndex

end LiveSpec
