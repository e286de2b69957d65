import Mathlib.Logic.Relation
import LiveSpec.Proofs.Index.Interleaving
import LiveSpec.Proofs.Index.TreeRemoval

/-!
# Changes that fail

A change that fails leaves no trace. Take any index and any history of changes, each with what reading
gives at its time, and work it off in single steps, one change after another. The history without the
changes that failed comes to the same index, with the same results for the changes that are left
(`ConcurrentIndex.exists_comesTo_withoutFailures`).

Working off a change alone is taken as what the steps of its activity lead to (`Leads`), so a change
could well leave something behind before it fails. It does not: up to its failure it has only read
(`ConcurrentIndex.index_eq_of_leads`). A change that does not fail leads through all its steps to what
`Index.apply` gives at once (`ConcurrentIndex.leads_apply`); the loops among the steps (forgetting,
removing, refreshing) each lead to the folds that `Index.commit` consists of. Steps are determined, so a
history comes to one end only (`ConcurrentIndex.comesTo_follow`).
-/

set_option autoImplicit false

namespace LiveSpec

namespace Index

variable {index : Index} {contents : Contents} {change : Change}

/-- Why a change fails, if it does. -/
def failure? (index : Index) (contents : Contents) (change : Change) : Option IndexError :=
  match index.apply contents change with
  | .ok _ => none
  | .error error => some error

/-- The index after a change, which stays as it is when the change fails. -/
def next (index : Index) (contents : Contents) (change : Change) : Index :=
  (index.apply contents change).toOption.getD index

/-- Works off a history, and reports of each change whether it failed, and why. -/
def follow (index : Index) : List (Contents × Change) → Index × List (Option IndexError)
  | [] => (index, [])
  | (contents, change) :: history =>
    let (after, results) := (index.next contents change).follow history
    (after, index.failure? contents change :: results)

theorem next_of_fails (h : (index.failure? contents change).isSome) : index.next contents change = index := by
  unfold failure? at h
  unfold next
  cases happlied : index.apply contents change with
  | ok after =>
    rw [happlied] at h
    cases h
  | error error => rfl

end Index

/-- The changes of a history that did not fail. -/
def withoutFailures (history : List (Contents × Change)) (results : List (Option IndexError)) :
    List (Contents × Change) :=
  ((history.zip results).filter fun entry ↦ entry.2.isNone).map Prod.fst

/-- Without the changes that failed, a history gives the same index and the results that are left. -/
theorem Index.follow_withoutFailures (index : Index) (history : List (Contents × Change)) :
    index.follow (withoutFailures history (index.follow history).2) =
      ((index.follow history).1, (index.follow history).2.filter Option.isNone) := by
  induction history generalizing index with
  | nil => rfl
  | cons entry history ih =>
    obtain ⟨contents, change⟩ := entry
    have hrest := ih (index.next contents change)
    cases hfailure : index.failure? contents change with
    | none =>
      simp only [follow, withoutFailures, hfailure, List.zip_cons_cons, List.filter_cons, Option.isNone_none,
        if_true, List.map_cons]
      rw [← withoutFailures, hrest]
    | some error =>
      have hsame := index.next_of_fails (by rw [hfailure]; rfl : (index.failure? contents change).isSome)
      simp only [follow, withoutFailures, hfailure, List.zip_cons_cons, List.filter_cons, Option.isNone_some,
        Bool.false_eq_true, if_false]
      rw [← withoutFailures, ← hrest, hsame]

/-- The next step of an activity neither takes the lock nor releases it. -/
def Activity.KeepsLock : Activity → Prop
  | waiting _ => False
  | releasing => False
  | _ => True

namespace ConcurrentIndex

variable {contents : Contents} {position : Nat} {before after : ConcurrentIndex}

/-- The steps of the activity at a position lead from one state to another. -/
def Leads (contents : Contents) (position : Nat) : ConcurrentIndex → ConcurrentIndex → Prop :=
  Relation.ReflTransGen fun before after ↦ before.advance contents position = after

/-- A history is worked off, one change after another: each comes in, with what reading gives at its
time, and its activity takes steps until it is finished. -/
inductive WorksOff :
    ConcurrentIndex → List (Contents × Change) → List (Option IndexError) → ConcurrentIndex → Prop
  | nothing (state : ConcurrentIndex) : WorksOff state [] [] state
  | change {before after last : ConcurrentIndex} {contents : Contents} {change : Change}
      {history : List (Contents × Change)} {results : List (Option IndexError)}
      (hleads : Leads contents before.activities.length (before.move (.arrive change)) after)
      (hquiet : after.IsQuiet) (hrest : WorksOff after history results last) :
      WorksOff before ((contents, change) :: history)
        (before.index.failure? contents change :: results) last

/-- A history comes to certain results and to a certain index, and to no others. -/
structure ComesTo (index : Index) (history : List (Contents × Change)) (results : List (Option IndexError))
    (after : Index) : Prop where
  exists_worksOff : ∃ last, WorksOff (quiet index) history results last ∧ last.index = after
  eq_of_worksOff : ∀ others last, WorksOff (quiet index) history others last →
    others = results ∧ last.index = after

/-! ### The steps of one activity -/

/-- An activity with some earlier ones before it. -/
def working (index : Index) (isLocked : Bool) (earlier : List Activity) (activity : Activity) :
    ConcurrentIndex :=
  ⟨index, isLocked, earlier ++ [activity]⟩

variable {index : Index} {isLocked : Bool} {earlier : List Activity}

theorem setActivity_working (activity next : Activity) :
    (working index isLocked earlier activity).setActivity earlier.length next =
      working index isLocked earlier next := by
  simp [working, setActivity, List.set_append_right]

theorem getElem?_working (activity : Activity) :
    (working index isLocked earlier activity).activities[earlier.length]? = some activity := by
  simp [working]

theorem leads_of_advance (h : before.advance contents position = after) :
    Leads contents position before after :=
  .single h

theorem Leads.trans {between : ConcurrentIndex} (h : Leads contents position before between)
    (hrest : Leads contents position between after) : Leads contents position before after :=
  Relation.ReflTransGen.trans h hrest

/-- An activity takes its next step, and the earlier ones stay as they are. -/
theorem advance_working {activity : Activity} (h : activity.KeepsLock) :
    (working index isLocked earlier activity).advance contents earlier.length =
      working (stepOf index contents activity).1 isLocked earlier (stepOf index contents activity).2 := by
  simp only [advance, getElem?_working]
  cases activity with
  | waiting work => exact h.elim
  | releasing => exact h.elim
  | _ => exact setActivity_working _ _

theorem leads_step {activity : Activity} (h : activity.KeepsLock) :
    Leads contents earlier.length (working index isLocked earlier activity)
      (working (stepOf index contents activity).1 isLocked earlier
        (stepOf index contents activity).2) :=
  leads_of_advance (advance_working h)

/-- The lock is free and is taken. -/
theorem leads_waiting (work : ConceptWork) :
    Leads contents earlier.length (working index false earlier (.waiting work))
      (working index true earlier (.changing work)) := by
  refine leads_of_advance ?_
  simp only [advance, getElem?_working]
  exact setActivity_working _ _

theorem leads_releasing :
    Leads contents earlier.length (working index true earlier .releasing)
      (working index false earlier .finished) := by
  refine leads_of_advance ?_
  simp only [advance, getElem?_working]
  exact setActivity_working _ _

/-! ### The loops among the steps -/

/-- Specifications are forgotten one by one. -/
theorem leads_forgetting (specifications conceptFiles : List Path) :
    Leads contents earlier.length (working index isLocked earlier (.forgetting specifications conceptFiles))
      (working { index with cache := specifications.foldl Cache.removeSpecification index.cache } isLocked
        earlier (.forgetting [] conceptFiles)) := by
  induction specifications generalizing index with
  | nil => exact .refl
  | cons path rest ih => exact Leads.trans (leads_step trivial) ih

/-- Concept files are forgotten one by one, and then the concepts are refreshed. -/
theorem leads_removeAll (files : List Path) :
    Leads contents earlier.length (working index true earlier (.changing (.removeAll files)))
      (working { index with cache := files.foldl Cache.removeConcepts index.cache } true earlier
        .collecting) := by
  induction files generalizing index with
  | nil => exact leads_step trivial
  | cons file rest ih => exact Leads.trans (leads_step trivial) ih

/-- The steps of concept files are replaced one by one, and then the lock is released. -/
theorem leads_refreshing (dictionary : Dictionary) (files : List Path) :
    Leads contents earlier.length (working index true earlier (.refreshing dictionary files))
      (working { index with cache := index.cache.replaceAllSteps dictionary files } false earlier
        .finished) := by
  induction files generalizing index with
  | nil => exact Leads.trans (leads_step trivial) leads_releasing
  | cons file rest ih => exact Leads.trans (leads_step trivial) ih

/-- Once the concepts have changed, the steps that are left refresh them. -/
theorem leads_collecting :
    Leads contents earlier.length (working index true earlier .collecting)
      (working index.refreshConcepts false earlier .finished) := by
  have hcollected : Leads contents earlier.length (working index true earlier .collecting)
      (working index true earlier (.swapping index.cache.allConcepts)) := leads_step trivial
  have hswapped : Leads contents earlier.length
      (working index true earlier (.swapping index.cache.allConcepts))
      (working index.rebuildDictionary true earlier (.listing index.rebuildDictionary.dictionary)) :=
    leads_step trivial
  have hlisted : Leads contents earlier.length
      (working index.rebuildDictionary true earlier (.listing index.rebuildDictionary.dictionary))
      (working index.rebuildDictionary true earlier
        (.refreshing index.rebuildDictionary.dictionary index.cache.conceptFiles)) :=
    leads_step trivial
  exact ((hcollected.trans hswapped).trans hlisted).trans (leads_refreshing _ _)

/-! ### A change alone -/

/-- Written concepts are put into the index. -/
theorem leads_replaceConcepts (path : Path) (concepts : List Concept) :
    Leads contents earlier.length (working index false earlier (.waiting (.replace path concepts)))
      (working (index.commit (.replaceConcepts path concepts)) false earlier .finished) := by
  have hchanged : Leads contents earlier.length
      (working index true earlier (.changing (.replace path concepts)))
      (working { index with cache := index.cache.replaceConcepts path concepts } true earlier
        .collecting) := leads_step trivial
  exact ((leads_waiting _).trans hchanged).trans leads_collecting

/-- A concept file is forgotten. Only if it was known are the concepts refreshed. -/
theorem leads_removeConcepts (path : Path) :
    Leads contents earlier.length (working index false earlier (.waiting (.remove path)))
      (working (index.commit (.removeConcepts path)) false earlier .finished) := by
  have hchanged : Leads contents earlier.length (working index true earlier (.changing (.remove path)))
      (working { index with cache := index.cache.removeConcepts path } true earlier
        (if index.cache.concepts.contains path then .collecting else .releasing)) :=
    leads_step trivial
  refine ((leads_waiting _).trans hchanged).trans ?_
  by_cases hknown : index.cache.concepts.contains path = true
  · simp only [Index.commit, hknown, if_true]
    exact leads_collecting
  · simp only [Index.commit, hknown, Bool.false_eq_true, if_false]
    exact leads_releasing

/-- What lay beneath a directory is forgotten. The lock is taken only for concept files. -/
theorem leads_removeTree (directory : Path) :
    Leads contents earlier.length
      (working index false earlier (.forgetting (index.cache.specificationsBeneath directory)
        (index.cache.conceptFilesBeneath directory)))
      (working (index.commit (.removeTree directory)) false earlier .finished) := by
  refine (leads_forgetting _ _).trans ?_
  have hfiles : (index.removeSpecificationsBeneath directory).cache.conceptFilesBeneath directory =
      index.cache.conceptFilesBeneath directory := by
    simp only [Index.removeSpecificationsBeneath, Cache.conceptFilesBeneath,
      Cache.concepts_foldl_removeSpecification]
  show Leads contents earlier.length
    (working (index.removeSpecificationsBeneath directory) false earlier
      (.forgetting [] (index.cache.conceptFilesBeneath directory)))
    (working ((index.removeSpecificationsBeneath directory).removeConceptsBeneath directory) false earlier
      .finished)
  rw [← hfiles, Index.removeConceptsBeneath]
  generalize index.removeSpecificationsBeneath directory = index
  split
  · rename_i hnone
    rw [hnone]
    exact leads_step trivial
  · rename_i files hsome
    obtain ⟨file, rest, hfound⟩ := List.exists_cons_of_ne_nil hsome
    have hwaiting : Leads contents earlier.length
        (working index false earlier (.forgetting [] (index.cache.conceptFilesBeneath directory)))
        (working index false earlier (.waiting (.removeAll (index.cache.conceptFilesBeneath directory)))) := by
      rw [hfound]
      exact leads_step trivial
    exact ((hwaiting.trans (leads_waiting _)).trans (leads_removeAll _)).trans leads_collecting

/-- A change that is not disturbed leads to what it comes to when it is worked off at once. -/
theorem leads_apply (change : Change) :
    Leads contents earlier.length (working index false earlier (.ready change))
      (working (index.next contents change) false earlier .finished) := by
  have hbegun : Leads contents earlier.length (working index false earlier (.ready change))
      (working (begin index contents change).1 false earlier (begin index contents change).2) :=
    leads_step trivial
  refine hbegun.trans ?_
  cases change with
  | write path =>
    cases hkind : path.sourceKind with
    | specification =>
      simp only [begin, hkind]
      refine Leads.trans (leads_step trivial) ?_
      simp only [stepOf, Index.next, Index.apply, Change.prepare, hkind]
      cases contents.expanded index.dictionary path with
      | error error => exact .refl
      | ok spec => exact leads_step trivial
    | concepts =>
      simp only [begin, hkind, Index.next, Index.apply, Change.prepare]
      cases contents.concepts path with
      | error error => exact .refl
      | ok concepts => exact leads_replaceConcepts path concepts
    | other =>
      simp only [begin, hkind, Index.next, Index.apply, Change.prepare]
      exact .refl
  | remove path =>
    cases hkind : path.sourceKind with
    | specification =>
      simp only [begin, hkind, Index.next, Index.apply, Change.prepare]
      exact .refl
    | concepts =>
      simp only [begin, hkind, Index.next, Index.apply, Change.prepare]
      exact leads_removeConcepts path
    | other =>
      simp only [begin, hkind, Index.next, Index.apply, Change.prepare]
      exact .refl
  | removeTree directory => exact leads_removeTree directory

/-- What a failing change can be at: nothing has been done, or a specification will be read that cannot be
read or expanded, or the change has failed. -/
inductive IsFailing (contents : Contents) (change : Change) (index : Index) : Activity → Prop
  | ready (h : (index.failure? contents change).isSome) : IsFailing contents change index (.ready change)
  | reading {path : Path} {dictionary : Dictionary} {error : IndexError}
      (h : contents.expanded dictionary path = .error error) :
      IsFailing contents change index (.reading path dictionary)
  | finished : IsFailing contents change index .finished

theorem IsFailing.keepsLock {change : Change} {activity : Activity}
    (h : IsFailing contents change index activity) : activity.KeepsLock := by
  cases h <;> trivial

/-- A step of a failing change leaves the index alone. -/
theorem IsFailing.stepOf {change : Change} {activity : Activity}
    (h : IsFailing contents change index activity) :
    (stepOf index contents activity).1 = index ∧
      IsFailing contents change index (stepOf index contents activity).2 := by
  cases h with
  | finished => exact ⟨rfl, .finished⟩
  | reading hread =>
    simp only [ConcurrentIndex.stepOf, hread]
    exact ⟨trivial, .finished⟩
  | ready hfails =>
    unfold Index.failure? Index.apply at hfails
    cases change with
    | removeTree directory => cases hfails
    | remove path =>
      simp only [Change.prepare] at hfails
      cases hkind : path.sourceKind <;> rw [hkind] at hfails <;> cases hfails
    | write path =>
      simp only [Change.prepare] at hfails
      cases hkind : path.sourceKind with
      | other =>
        rw [hkind] at hfails
        cases hfails
      | concepts =>
        rw [hkind] at hfails
        cases hread : contents.concepts path with
        | ok concepts =>
          rw [hread] at hfails
          cases hfails
        | error error =>
          simp only [ConcurrentIndex.stepOf, begin, hkind, hread]
          exact ⟨trivial, .finished⟩
      | specification =>
        rw [hkind] at hfails
        cases hread : contents.expanded index.dictionary path with
        | ok spec =>
          rw [hread] at hfails
          cases hfails
        | error error =>
          simp only [ConcurrentIndex.stepOf, begin, hkind]
          exact ⟨trivial, .reading hread⟩

/-- Assumes: a change that fails. In no state that its steps lead through has it touched the index. -/
theorem index_eq_of_leads {change : Change} (hfails : (index.failure? contents change).isSome)
    (hleads : Leads contents earlier.length (working index isLocked earlier (.ready change)) after) :
    after.index = index := by
  have hworking : ∃ activity, IsFailing contents change index activity ∧
      after = working index isLocked earlier activity := by
    induction hleads with
    | refl => exact ⟨_, .ready hfails, rfl⟩
    | tail _ hstep ih =>
      obtain ⟨activity, hfailing, rfl⟩ := ih
      obtain ⟨hsame, hnext⟩ := hfailing.stepOf
      refine ⟨_, hnext, ?_⟩
      rw [← hstep, advance_working hfailing.keepsLock, hsame]
  obtain ⟨activity, -, rfl⟩ := hworking
  rfl

/-! ### Histories -/

/-- Nothing that is finished takes a step. -/
theorem advance_of_isQuiet {state : ConcurrentIndex} (h : state.IsQuiet) :
    state.advance contents position = state := by
  unfold advance
  cases hactivity : state.activities[position]? with
  | none => rfl
  | some activity =>
    obtain rfl := h activity (List.mem_of_getElem? hactivity)
    obtain ⟨hposition, hfinished⟩ := List.getElem?_eq_some_iff.mp hactivity
    have hset : state.activities.set position .finished = state.activities := by
      rw [← hfinished, List.set_getElem_self]
    simp only [stepOf, setActivity, hset]

theorem eq_of_leads_of_isQuiet (h : before.IsQuiet) (hleads : Leads contents position before after) :
    after = before := by
  induction hleads with
  | refl => rfl
  | tail _ hstep ih =>
    subst ih
    rw [← hstep, advance_of_isQuiet h]

/-- Steps lead to one state at most in which nothing is in progress. -/
theorem Leads.unique {other : ConcurrentIndex} (h : Leads contents position before after)
    (hafter : after.IsQuiet) (hother : Leads contents position before other) (hquiet : other.IsQuiet) :
    other = after := by
  have hdetermined : Relator.RightUnique
      fun before after : ConcurrentIndex ↦ before.advance contents position = after :=
    fun _ _ _ hone htwo ↦ hone.symm.trans htwo
  rcases Relation.ReflTransGen.total_of_right_unique hdetermined h hother with hmore | hmore
  · exact eq_of_leads_of_isQuiet hafter hmore
  · exact (eq_of_leads_of_isQuiet hquiet hmore).symm

/-- A change alone can be worked off, and comes to the index that it gives at once. -/
theorem leads_arrive {state : ConcurrentIndex} (hlocked : state.isLocked = false) (change : Change) :
    Leads contents state.activities.length (state.move (.arrive change))
      (working (state.index.next contents change) false state.activities .finished) := by
  have harrived : state.move (.arrive change) = working state.index false state.activities (.ready change) := by
    rw [← hlocked]
    rfl
  rw [harrived]
  exact leads_apply change

theorem isQuiet_working_finished {state : ConcurrentIndex} (h : state.IsQuiet) (index : Index)
    (isLocked : Bool) : (working index isLocked state.activities .finished).IsQuiet := by
  intro activity hactivity
  rcases List.mem_append.mp hactivity with hold | hnew
  · exact h activity hold
  · exact List.mem_singleton.mp hnew

/-- Assumes: a state in which nothing is in progress and the lock is free. Any history can be worked off,
and gives what its changes give at once. -/
theorem exists_worksOff {state : ConcurrentIndex} (hquiet : state.IsQuiet)
    (hlocked : state.isLocked = false) (history : List (Contents × Change)) :
    ∃ last, WorksOff state history (state.index.follow history).2 last ∧
      last.index = (state.index.follow history).1 := by
  induction history generalizing state with
  | nil => exact ⟨state, .nothing state, rfl⟩
  | cons entry history ih =>
    obtain ⟨contents, change⟩ := entry
    have hfinished := isQuiet_working_finished hquiet (state.index.next contents change) false
    obtain ⟨last, hworked, hindex⟩ := ih hfinished rfl
    exact ⟨last, .change (leads_arrive hlocked change) hfinished hworked, hindex⟩

theorem eq_of_worksOff {state last : ConcurrentIndex} (hquiet : state.IsQuiet)
    (hlocked : state.isLocked = false) {history : List (Contents × Change)}
    {results : List (Option IndexError)} (h : WorksOff state history results last) :
    results = (state.index.follow history).2 ∧ last.index = (state.index.follow history).1 := by
  induction h with
  | nothing state => exact ⟨rfl, rfl⟩
  | change hleads hafter hrest ih =>
    rename_i before after last contents change history results
    have hfinished := isQuiet_working_finished hquiet (before.index.next contents change) false
    obtain rfl := (leads_arrive hlocked change).unique hfinished hleads hafter
    obtain ⟨hresults, hindex⟩ := ih hfinished rfl
    exact ⟨congrArg _ hresults, hindex⟩

/-- Worked off in single steps, a history comes to what its changes give at once, and to nothing else. -/
theorem comesTo_follow (index : Index) (history : List (Contents × Change)) :
    ComesTo index history (index.follow history).2 (index.follow history).1 := by
  have hquiet : (quiet index).IsQuiet := fun _ hactivity ↦ absurd hactivity List.not_mem_nil
  exact ⟨exists_worksOff hquiet rfl history, fun others last hworked ↦ eq_of_worksOff hquiet rfl hworked⟩

/-- Any history comes to certain results and to an index, and without the changes that failed it comes to
the same index and to the results that are left. -/
theorem exists_comesTo_withoutFailures (index : Index) (history : List (Contents × Change)) :
    ∃ results after, ComesTo index history results after ∧
      ComesTo index (withoutFailures history results) (results.filter Option.isNone) after := by
  refine ⟨_, _, comesTo_follow index history, ?_⟩
  have hkept := comesTo_follow index (withoutFailures history (index.follow history).2)
  rw [index.follow_withoutFailures history] at hkept
  exact hkept

end ConcurrentIndex

end LiveSpec
