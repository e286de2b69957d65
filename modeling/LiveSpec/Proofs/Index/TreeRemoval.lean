import LiveSpec.Proofs.Index.Dispatch
import LiveSpec.Proofs.Index.Following

/-!
# Removing a directory while files are written

The changes of one path are worked off in order, but a directory and the files beneath it are different
paths. A removal of the directory looks at what is known beneath it when it begins, and forgets these files one
by one. A write that was started earlier can store its file after that look. A removal that is parked can also
give way to the next change of the same path, and is then never worked off
(`Dispatcher.exists_known_beneath_shop`).

Apart from that a removal is final. When no write beneath the directory is in hand or parked at some moment
(`Dispatcher.HasNoWriteBeneath`) and none is handed in later on, nothing beneath the directory is stored any
more. A removal of the directory that begins after that moment leaves nothing beneath it in the index, and the
last change of the directory is always finished (`Dispatcher.isClearOf_of_removeTree`).

What an activity will still store (`Activity.target?`) and what it will still forget (`Activity.remaining`) can
be read off it. What is known after a step was known before or was to be stored
(`ConcurrentIndex.IsTurn.knows`), and a removal goes on to forget all that is known beneath its directory
(`Activity.Clears`, `ConcurrentIndex.IsConsistent.clears_advance`).
-/

set_option autoImplicit false

namespace LiveSpec

/-! ### Forgetting what lies beneath a directory -/

namespace PathMap

variable {α : Type} {map : PathMap α}

theorem contains_foldl_erase {paths : List Path} {other : Path} :
    (paths.foldl erase map).contains other = true ↔
      (∀ path ∈ paths, path.location ≠ other.location) ∧ map.contains other = true := by
  rw [contains, contains, stored?, stored?, getElem?_foldl_erase]
  split_ifs with hforgotten
  · obtain ⟨path, hpath, hsame⟩ := hforgotten
    exact iff_of_false Bool.false_ne_true fun hleft ↦ hleft.1 path hpath hsame
  · rw [and_iff_right fun path hpath hsame ↦ hforgotten ⟨path, hpath, hsame⟩]

/-- Assumes: every stored spelling is one of its location. Nothing beneath a directory is left when what
is listed beneath it has been forgotten. -/
theorem contains_foldl_erase_pathsBeneath (h : map.IsSpelled) {directory path : Path}
    (hbeneath : path.isBeneath directory = true) :
    ((map.pathsBeneath directory).foldl erase map).contains path = false := by
  rw [Bool.eq_false_iff, ne_eq, contains_foldl_erase]
  rintro ⟨hothers, hstored⟩
  obtain ⟨listed, hlisted, hsame⟩ := (exists_mem_paths_iff h).mpr hstored
  refine hothers listed (List.mem_filter.mpr ⟨hlisted, ?_⟩) hsame
  rw [Path.isBeneath, hsame]
  exact hbeneath

end PathMap

namespace Cache

variable {cache : Cache}

theorem specifications_foldl_removeSpecification (paths : List Path) :
    (paths.foldl removeSpecification cache).specifications =
      paths.foldl PathMap.erase cache.specifications := by
  induction paths generalizing cache with
  | nil => rfl
  | cons path paths ih => exact ih

theorem concepts_foldl_removeSpecification (paths : List Path) :
    (paths.foldl removeSpecification cache).concepts = cache.concepts := by
  induction paths generalizing cache with
  | nil => rfl
  | cons path paths ih => exact ih

theorem specifications_foldl_removeConcepts (paths : List Path) :
    (paths.foldl removeConcepts cache).specifications = cache.specifications := by
  induction paths generalizing cache with
  | nil => rfl
  | cons path paths ih => exact ih

theorem concepts_foldl_removeConcepts (paths : List Path) :
    (paths.foldl removeConcepts cache).concepts = paths.foldl PathMap.erase cache.concepts := by
  induction paths generalizing cache with
  | nil => rfl
  | cons path paths ih => exact ih

end Cache

/-- The file that a change writes, if it writes one. -/
def Change.written? : Change → Option Path
  | write path => some path
  | _ => none

theorem Change.eq_write_of_written? {change : Change} {file : Path} (h : change.written? = some file) :
    change = .write file := by
  cases change with
  | write path => exact congrArg write (Option.some.inj h)
  | _ => cases h

namespace Index

variable {index : Index} {directory path : Path}

/-- Nothing is known from the files beneath a directory. -/
def IsClearOf (index : Index) (directory : Path) : Prop :=
  ∀ path : Path, path.isBeneath directory = true → ¬ index.Knows path

/-- Assumes: a sound cache. What contributes a signature is known. -/
theorem knows_of_contributes (h : index.cache.IsSound) {file : Path} {signature : String}
    (hcontributes : index.cache.catalogue.Contributes file signature) : index.Knows file := by
  by_cases hkind : file.sourceKind = .specification
  · obtain ⟨spec, hspec, -⟩ :=
      (h.specifications.contributes_iff file signature hkind).mp hcontributes
    obtain ⟨specs, hspecs, -⟩ := Option.bind_eq_some_iff.mp hspec
    exact Or.inl (PathMap.contains_iff.mpr ⟨specs, hspecs⟩)
  · exact Or.inr (h.concepts.contains_of_contributes file signature hkind hcontributes)

theorem specifications_removeTree (index : Index) (directory : Path) :
    (index.commit (.removeTree directory)).cache.specifications =
      (index.cache.specificationsBeneath directory).foldl PathMap.erase index.cache.specifications := by
  rw [← Cache.specifications_foldl_removeSpecification]
  show ((index.removeSpecificationsBeneath directory).removeConceptsBeneath
    directory).cache.specifications = (index.removeSpecificationsBeneath directory).cache.specifications
  unfold removeConceptsBeneath
  split
  · rfl
  · rw [specifications_refreshConcepts, Cache.specifications_foldl_removeConcepts]

theorem concepts_removeTree (index : Index) (directory : Path) :
    (index.commit (.removeTree directory)).cache.concepts =
      (index.cache.conceptFilesBeneath directory).foldl PathMap.erase index.cache.concepts := by
  have hconcepts : (index.removeSpecificationsBeneath directory).cache.concepts = index.cache.concepts :=
    Cache.concepts_foldl_removeSpecification _
  rw [Cache.conceptFilesBeneath, ← hconcepts]
  show ((index.removeSpecificationsBeneath directory).removeConceptsBeneath directory).cache.concepts = _
  unfold removeConceptsBeneath
  split
  · rename_i hnone
    rw [show PathMap.pathsBeneath _ directory = [] from hnone, List.foldl_nil]
  · rw [concepts_refreshConcepts, Cache.concepts_foldl_removeConcepts]
    rfl

/-- Assumes: a sound cache. When a directory has been removed nothing is known beneath it. -/
theorem isClearOf_removeTree (h : index.cache.IsSound) (directory : Path) :
    (index.commit (.removeTree directory)).IsClearOf directory := by
  intro path hbeneath
  rw [Knows, specifications_removeTree, concepts_removeTree, Cache.specificationsBeneath,
    Cache.conceptFilesBeneath,
    PathMap.contains_foldl_erase_pathsBeneath h.specifications.isSpelled hbeneath,
    PathMap.contains_foldl_erase_pathsBeneath h.concepts.isSpelled hbeneath]
  simp

/-- What is known after a specification was forgotten was known before, and is not this specification. -/
theorem knows_removeSpecification {removed : Path}
    (h : { index with cache := index.cache.removeSpecification removed }.Knows path) :
    index.Knows path ∧ (removed.location = path.location → index.cache.concepts.contains path = true) := by
  rcases h with hspec | hconcept
  · obtain ⟨hother, hknown⟩ := PathMap.contains_erase.mp hspec
    exact ⟨.inl hknown, fun hsame ↦ absurd hsame hother⟩
  · exact ⟨.inr hconcept, fun _ ↦ hconcept⟩

/-- What is known after a concept file was forgotten was known before, and is not this file. -/
theorem knows_removeConcepts {removed : Path}
    (h : { index with cache := index.cache.removeConcepts removed }.Knows path) :
    index.Knows path ∧
      (removed.location = path.location → index.cache.specifications.contains path = true) := by
  rcases h with hspec | hconcept
  · exact ⟨.inl hspec, fun _ ↦ hspec⟩
  · obtain ⟨hother, hknown⟩ := PathMap.contains_erase.mp hconcept
    exact ⟨.inr hknown, fun hsame ↦ absurd hsame hother⟩

end Index

/-! ### What an activity will store and forget -/

namespace Activity

/-- The file that an activity will store if nothing fails. -/
def target? : Activity → Option Path
  | ready change => change.written?
  | reading path _ => some path
  | storing spec => some spec.file
  | waiting (.replace path _) => some path
  | changing (.replace path _) => some path
  | _ => none

/-- The files beneath a directory that an activity will still forget. -/
def remaining : Activity → List Path
  | forgetting specifications conceptFiles => specifications ++ conceptFiles
  | waiting (.removeAll files) => files
  | changing (.removeAll files) => files
  | _ => []

/-- An activity removes a directory: it has not looked yet at what lies beneath it, or it will still forget
all that is known there. -/
def Clears (index : Index) (directory : Path) (activity : Activity) : Prop :=
  activity = .ready (.removeTree directory) ∨
    ∀ path : Path, path.isBeneath directory = true → index.Knows path →
      ∃ file ∈ activity.remaining, file.location = path.location

end Activity

namespace ConcurrentIndex

variable {index : Index} {contents : Contents} {activity : Activity} {step : Index × Activity}
  {directory path : Path} {state : ConcurrentIndex} {position : Nat}

/-- What is stored after a step was to be stored before. -/
theorem IsTurn.target? (h : IsTurn index contents activity step) {file : Path}
    (hfile : step.2.target? = some file) : activity.target? = some file := by
  cases h with
  | acquired work => cases work <;> exact hfile
  | beganSpecification | beganConcepts => exact hfile
  | expanded hread =>
    rw [← hfile]
    exact congrArg some (Contents.file_of_expanded hread).symm
  | removed path hnext => obtain rfl | rfl := hnext <;> cases hfile
  | _ => cases hfile

/-- What is known after a step was known before, or has been stored by it. -/
theorem IsTurn.knows (h : IsTurn index contents activity step) (hknown : step.1.Knows path) :
    index.Knows path ∨ ∃ stored, activity.target? = some stored ∧ stored.location = path.location := by
  cases h with
  | stored spec =>
    rcases hknown with hspec | hconcept
    · rcases PathMap.contains_set.mp hspec with hsame | hbefore
      · exact .inr ⟨spec.file, rfl, hsame⟩
      · exact .inl (.inl hbefore)
    · exact .inl (.inr hconcept)
  | replaced stored concepts =>
    rcases hknown with hspec | hconcept
    · exact .inl (.inl hspec)
    · rcases PathMap.contains_set.mp hconcept with hsame | hbefore
      · exact .inr ⟨stored, rfl, hsame⟩
      · exact .inl (.inr hbefore)
  | forgotSpecification | forgot => exact .inl (Index.knows_removeSpecification hknown).1
  | removed | removedFirst => exact .inl (Index.knows_removeConcepts hknown).1
  | _ => exact .inl hknown

/-- Assumes: a sound cache, and an activity on paths of the right kind. What is known after a step was not
forgotten by it. -/
theorem IsTurn.exists_remaining (h : IsTurn index contents activity step) (hsound : index.cache.IsSound)
    (hkinds : activity.HasKinds) (hknown : step.1.Knows path)
    (hremaining : ∃ file ∈ activity.remaining, file.location = path.location) :
    ∃ file ∈ step.2.remaining, file.location = path.location := by
  obtain ⟨file, hfile, hsame⟩ := hremaining
  cases h with
  | acquired work => cases work <;> exact ⟨file, hfile, hsame⟩
  | forgot first rest conceptFiles =>
    rcases List.mem_cons.mp hfile with rfl | hrest
    · -- A path of a specification is no path of concepts.
      have hconcepts := (Index.knows_removeSpecification hknown).2 hsame
      have hkind := Path.sourceKind_congr hsame
      rw [hkinds.1 file List.mem_cons_self, hsound.concepts.sourceKind_eq path hconcepts] at hkind
      cases hkind
    · exact ⟨file, hrest, hsame⟩
  | beganRemovals => exact ⟨file, hfile, hsame⟩
  | removedFirst first rest =>
    rcases List.mem_cons.mp hfile with rfl | hrest
    · have hspecs := (Index.knows_removeConcepts hknown).2 hsame
      have hkind := Path.sourceKind_congr hsame
      rw [hkinds file List.mem_cons_self, hsound.specifications.sourceKind_eq path hspecs] at hkind
      cases hkind
    · exact ⟨file, hrest, hsame⟩
  | _ => cases hfile

/-- Assumes: a consistent state, in which no activity will store a file beneath a directory. An activity that
removes this directory does so after a step of any activity. -/
theorem IsConsistent.clears_advance (h : state.IsConsistent)
    (hnone : ∀ other ∈ state.activities, ∀ file, other.target? = some file → file.isBeneath directory = false)
    (hactivity : state.activities[position]? = some activity)
    (hclears : activity.Clears state.index directory) (turn : Nat) :
    ∃ next, (state.advance contents turn).activities[position]? = some next ∧
      next.Clears (state.advance contents turn).index directory := by
  obtain hsame | ⟨other, step, isLocked, hother, hturn, hafter⟩ :=
    state.exists_isTurn_of_advance contents turn
  · rw [hsame]
    exact ⟨activity, hactivity, hclears⟩
  have hbefore : ∀ path : Path, path.isBeneath directory = true → step.1.Knows path →
      state.index.Knows path := by
    intro path hbeneath hknown
    refine (hturn.knows hknown).resolve_right ?_
    rintro ⟨stored, hstored, hlocation⟩
    have hfree := hnone other (List.mem_of_getElem? hother) stored hstored
    rw [Path.isBeneath, hlocation] at hfree
    exact Bool.noConfusion (hbeneath.symm.trans hfree)
  rw [hafter]
  by_cases hposition : turn = position
  · subst hposition
    obtain rfl : other = activity := Option.some.inj (hother.symm.trans hactivity)
    refine ⟨step.2, List.getElem?_set_self (List.getElem?_eq_some_iff.mp hactivity).1, .inr ?_⟩
    intro path hbeneath hknown
    have hknownBefore := hbefore path hbeneath hknown
    rcases hclears with rfl | hremaining
    · -- Now it looks at what lies beneath the directory.
      cases hturn
      rcases hknownBefore with hspec | hconcept
      · obtain ⟨file, hfile, hlocation⟩ :=
          (PathMap.exists_mem_paths_iff h.isSound.specifications.isSpelled).mpr hspec
        refine ⟨file, List.mem_append_left _ (List.mem_filter.mpr ⟨hfile, ?_⟩), hlocation⟩
        rwa [Path.isBeneath, hlocation]
      · obtain ⟨file, hfile, hlocation⟩ :=
          (PathMap.exists_mem_paths_iff h.isSound.concepts.isSpelled).mpr hconcept
        refine ⟨file, List.mem_append_right _ (List.mem_filter.mpr ⟨hfile, ?_⟩), hlocation⟩
        rwa [Path.isBeneath, hlocation]
    · exact hturn.exists_remaining h.isSound (h.hasKinds other (List.mem_of_getElem? hother)) hknown
        (hremaining path hbeneath hknownBefore)
  · refine ⟨activity, (List.getElem?_set_ne hposition).trans hactivity, hclears.imp_right ?_⟩
    exact fun hremaining path hbeneath hknown ↦ hremaining path hbeneath (hbefore path hbeneath hknown)

end ConcurrentIndex

/-! ### Which files are written -/

/-- The file of a write that a task has still to begin. -/
def Task.target? : Task → Option Path
  | arriving change => change.written?
  | queued ticket => ticket.change.written?
  | _ => none

/-- The file of a write that is handed in or started by a move. -/
def Dispatcher.Move.written? : Move → Option Path
  | handIn change => change.written?
  | applyDirectly change => change.written?
  | _ => none

namespace Dispatcher

variable {dispatcher after : Dispatcher} {contents : Contents} {position : Nat} {allowed : Path → Prop}
  {directory path : Path} {removal : Ticket}

/-- Every write in hand or parked is one of some files. -/
structure WritesOnly (dispatcher : Dispatcher) (allowed : Path → Prop) : Prop where
  activity : ∀ activity ∈ dispatcher.work.activities, ∀ file, activity.target? = some file → allowed file
  task : ∀ task ∈ dispatcher.tasks, ∀ file, task.target? = some file → allowed file
  parked : ∀ (path : Path) (ticket : Ticket), dispatcher.inFlight.find? path = some (some ticket) →
    ∀ file, ticket.change.written? = some file → allowed file

namespace WritesOnly

theorem mono {other : Path → Prop} (h : dispatcher.WritesOnly allowed)
    (hallowed : ∀ file, allowed file → other file) : dispatcher.WritesOnly other :=
  ⟨fun activity hactivity file hfile ↦ hallowed file (h.activity activity hactivity file hfile),
    fun task htask file hfile ↦ hallowed file (h.task task htask file hfile),
    fun path ticket hparked file hfile ↦ hallowed file (h.parked path ticket hparked file hfile)⟩

/-- The activities after a change has come in. -/
theorem activity_arrive (h : dispatcher.WritesOnly allowed) {change : Change}
    (hchange : ∀ file, change.written? = some file → allowed file) :
    ∀ activity ∈ (dispatcher.work.move (.arrive change)).activities, ∀ file,
      activity.target? = some file → allowed file := by
  intro activity hmem
  rcases List.mem_append.mp hmem with hbefore | hnew
  · exact h.activity activity hbefore
  · rw [List.mem_singleton.mp hnew]
    exact hchange

/-- The activities after one of them took a step. -/
theorem activity_advance (h : dispatcher.WritesOnly allowed) (contents : Contents) (turn : Nat) :
    ∀ activity ∈ (dispatcher.work.advance contents turn).activities, ∀ file,
      activity.target? = some file → allowed file := by
  obtain hsame | ⟨other, step, isLocked, hother, hturn, hafter⟩ :=
    dispatcher.work.exists_isTurn_of_advance contents turn
  · rw [hsame]
    exact h.activity
  · rw [hafter]
    intro activity hmem file hfile
    rcases List.mem_or_eq_of_mem_set hmem with hbefore | rfl
    · exact h.activity activity hbefore file hfile
    · exact h.activity other (List.mem_of_getElem? hother) file (hturn.target? hfile)

/-- The tasks after one of them took a step. -/
theorem task_set (h : dispatcher.WritesOnly allowed) {new : Task}
    (hnew : ∀ file, new.target? = some file → allowed file) :
    ∀ task ∈ dispatcher.tasks.set position new, ∀ file, task.target? = some file → allowed file := by
  intro task hmem
  rcases List.mem_or_eq_of_mem_set hmem with hbefore | rfl
  · exact h.task task hbefore
  · exact hnew

/-- What is parked after something else has been put in a place. -/
theorem parked_set (h : dispatcher.WritesOnly allowed) {place : Path} {change : Option Ticket}
    (hchange : ∀ ticket, change = some ticket → ∀ file, ticket.change.written? = some file → allowed file) :
    ∀ (path : Path) (ticket : Ticket), (dispatcher.inFlight.set place change).find? path = some (some ticket) →
      ∀ file, ticket.change.written? = some file → allowed file := by
  intro path ticket hparked
  rw [PathMap.find?_set] at hparked
  split at hparked
  · exact hchange ticket (Option.some.inj hparked)
  · exact h.parked path ticket hparked

theorem step (h : dispatcher.WritesOnly allowed) (hstep : dispatcher.StepsTo contents position after) :
    after.WritesOnly allowed := by
  have hnothing : ∀ file, (none : Option Path) = some file → allowed file :=
    fun file hfile ↦ nomatch hfile
  have hend : ∀ task ∈ dispatcher.tasks.eraseIdx position, ∀ file, task.target? = some file → allowed file :=
    fun task htask ↦ h.task task (List.mem_of_mem_eraseIdx htask)
  cases hstep with
  | missing => exact h
  | @parked change hold hinFlight =>
    have hchange : ∀ file, change.written? = some file → allowed file := h.task _ (List.mem_of_getElem? hold)
    refine ⟨h.activity, h.task_set hnothing, h.parked_set fun ticket hticket ↦ ?_⟩
    rw [← Option.some.inj hticket]
    exact hchange
  | @entered change hold hfree =>
    have hchange : ∀ file, change.written? = some file → allowed file := h.task _ (List.mem_of_getElem? hold)
    exact ⟨h.activity, h.task_set hchange, h.parked_set fun ticket hticket ↦ nomatch hticket⟩
  | begun hold =>
    exact ⟨h.activity_arrive (h.task _ (List.mem_of_getElem? hold)), h.task_set hnothing, h.parked⟩
  | worked hold hactivity => exact ⟨h.activity_advance contents _, h.task, h.parked⟩
  | finished hold => exact ⟨h.activity, h.task_set hnothing, h.parked⟩
  | resumed hold hparked =>
    exact ⟨h.activity, h.task_set (h.parked _ _ hparked), h.parked_set fun ticket hticket ↦ nomatch hticket⟩
  | left hold =>
    refine ⟨h.activity, h.task_set hnothing, fun path ticket hparked ↦ ?_⟩
    have herased := (PathMap.find?_erase _ _ _).symm.trans hparked
    split at herased
    · cases herased
    · exact h.parked path ticket herased
  | ended | endedDirectly => exact ⟨h.activity, hend, h.parked⟩

theorem move {next : Move} (h : dispatcher.WritesOnly allowed)
    (hnext : ∀ file, next.written? = some file → allowed file) (hmove : dispatcher.MovesTo next after) :
    after.WritesOnly allowed := by
  cases hmove with
  | advanced hstep => exact h.step hstep
  | handedIn change =>
    refine ⟨h.activity, fun task htask ↦ ?_, h.parked⟩
    rcases List.mem_append.mp htask with hbefore | hnew
    · exact h.task task hbefore
    · rw [List.mem_singleton.mp hnew]
      exact hnext
  | startedDirectly change =>
    refine ⟨h.activity_arrive hnext, fun task htask file hfile ↦ ?_, h.parked⟩
    rcases List.mem_append.mp htask with hbefore | hnew
    · exact h.task task hbefore file hfile
    · rw [List.mem_singleton.mp hnew] at hfile
      cases hfile
  | _ => exact ⟨h.activity, h.task, h.parked⟩

/-- What a step of an activity makes known is one of the files. -/
theorem knows_workOn (h : dispatcher.WritesOnly allowed) {turn : Nat}
    (hknown : (dispatcher.workOn contents turn).index.Knows path) :
    dispatcher.index.Knows path ∨ ∃ file, allowed file ∧ file.location = path.location := by
  have hadvanced : (dispatcher.work.advance contents turn).index.Knows path := hknown
  obtain hsame | ⟨activity, step, isLocked, hactivity, hturn, hafter⟩ :=
    dispatcher.work.exists_isTurn_of_advance contents turn
  · rw [hsame] at hadvanced
    exact .inl hadvanced
  · rw [hafter] at hadvanced
    refine (hturn.knows hadvanced).imp_right fun ⟨stored, hstored, hlocation⟩ ↦ ?_
    exact ⟨stored, h.activity activity (List.mem_of_getElem? hactivity) stored hstored, hlocation⟩

/-- And so is what a step of a task makes known. -/
theorem knows_step (h : dispatcher.WritesOnly allowed) (hstep : dispatcher.StepsTo contents position after)
    (hknown : after.index.Knows path) :
    dispatcher.index.Knows path ∨ ∃ file, allowed file ∧ file.location = path.location := by
  cases hstep with
  | worked => exact h.knows_workOn hknown
  | _ => exact .inl hknown

end WritesOnly

/-- No write beneath a directory is in hand or parked. -/
def HasNoWriteBeneath (dispatcher : Dispatcher) (directory : Path) : Prop :=
  dispatcher.WritesOnly fun file ↦ file.isBeneath directory = false

/-- When no task is left there is no write to come. -/
theorem hasNoWriteBeneath_of_tasks_eq_nil {index : Index} {moves : List Move}
    (hdone : ((idle index).run moves).tasks = []) :
    ((idle index).run moves).HasNoWriteBeneath directory := by
  refine ⟨fun activity hactivity file hfile ↦ ?_, by simp [hdone], fun path ticket hparked ↦ ?_⟩
  · rw [(isCarried_run index moves).isQuiet hdone activity hactivity] at hfile
    cases hfile
  · simp [(((isSerial_run index moves).servesInOrder path).settled hdone).2.2] at hparked

/-! ### Removals -/

/-- No write beneath a directory is in hand or parked, and when a certain ticket is being worked off, what is
known beneath the directory is what it will still forget. -/
structure IsClearing (dispatcher : Dispatcher) (directory : Path) (removal : Ticket) : Prop where
  isConsistent : dispatcher.work.IsConsistent
  hasNoWriteBeneath : dispatcher.HasNoWriteBeneath directory
  clears : ∀ turn, Task.started removal turn ∈ dispatcher.tasks → ∃ activity,
    dispatcher.work.activities[turn]? = some activity ∧ activity.Clears dispatcher.index directory
  isClearOf : removal ∈ dispatcher.finished → dispatcher.index.IsClearOf directory

namespace IsClearing

/-- A step that leaves the index alone, and neither begins nor finishes a change. -/
theorem of_same (h : dispatcher.IsClearing directory removal) (hwork : after.work = dispatcher.work)
    (hwrites : after.HasNoWriteBeneath directory)
    (hstarted : ∀ turn, Task.started removal turn ∈ after.tasks →
      Task.started removal turn ∈ dispatcher.tasks)
    (hfinished : after.finished = dispatcher.finished) : after.IsClearing directory removal := by
  refine ⟨hwork ▸ h.isConsistent, hwrites, fun turn hturn ↦ ?_, fun hmem ↦ ?_⟩
  · rw [index, hwork]
    exact h.clears turn (hstarted turn hturn)
  · rw [index, hwork]
    exact h.isClearOf (hfinished ▸ hmem)

theorem begun (h : dispatcher.IsClearing directory removal) (hremoval : removal.change = .removeTree directory)
    {ticket : Ticket} (hwrites : (dispatcher.start position ticket).HasNoWriteBeneath directory) :
    (dispatcher.start position ticket).IsClearing directory removal := by
  refine ⟨h.isConsistent.arrive ticket.change, hwrites, fun turn hturn ↦ ?_, fun hmem ↦ ?_⟩
  · rcases List.mem_or_eq_of_mem_set hturn with hbefore | hnew
    · obtain ⟨activity, hactivity, hclears⟩ := h.clears turn hbefore
      exact ⟨activity, ConcurrentIndex.getElem?_activities_arrive hactivity ticket.change, hclears⟩
    · obtain ⟨rfl, rfl⟩ := Task.started.inj hnew
      exact ⟨.ready removal.change, List.getElem?_concat_length, .inl (congrArg Activity.ready hremoval)⟩
  · rw [start, finished_record] at hmem
    exact h.isClearOf ((List.append_nil dispatcher.finished) ▸ hmem)

/-- An activity takes a step. It makes nothing known beneath the directory, and that of the removal goes on
forgetting. -/
theorem worked (h : dispatcher.IsClearing directory removal) {turn : Nat}
    (hwrites : (dispatcher.workOn contents turn).HasNoWriteBeneath directory) :
    (dispatcher.workOn contents turn).IsClearing directory removal := by
  refine ⟨h.isConsistent.advance contents turn, hwrites, fun other hother ↦ ?_, fun hmem ↦ ?_⟩
  · obtain ⟨activity, hactivity, hclears⟩ := h.clears other hother
    exact h.isConsistent.clears_advance h.hasNoWriteBeneath.activity hactivity hclears turn
  · intro path hbeneath hknown
    rcases h.hasNoWriteBeneath.knows_workOn hknown with hbefore | ⟨stored, hother, hsame⟩
    · exact h.isClearOf hmem path hbeneath hbefore
    · rw [Path.isBeneath, hsame] at hother
      exact Bool.noConfusion (hbeneath.symm.trans hother)

/-- A change is finished. If it is the removal, it has nothing left to forget. -/
theorem finished (h : dispatcher.IsClearing directory removal) {ticket : Ticket} {turn : Nat}
    (hold : dispatcher.tasks[position]? = some (.started ticket turn))
    (hdone : dispatcher.hasFinished turn = true)
    (hwrites : (dispatcher.finish position ticket).HasNoWriteBeneath directory) :
    (dispatcher.finish position ticket).IsClearing directory removal := by
  refine ⟨h.isConsistent, hwrites, fun other hother ↦ ?_, fun hmem ↦ ?_⟩
  · rcases List.mem_or_eq_of_mem_set hother with hbefore | hnew
    · exact h.clears other hbefore
    · cases hnew
  · rw [finish, finished_record] at hmem
    rcases List.mem_append.mp hmem with hbefore | hnow
    · exact h.isClearOf hbefore
    · obtain rfl : removal = ticket := List.mem_singleton.mp hnow
      obtain ⟨activity, hactivity, hclears⟩ := h.clears turn (List.mem_of_getElem? hold)
      rw [hasFinished, hactivity, Option.any_some, Activity.isFinished_iff] at hdone
      subst hdone
      rcases hclears with hready | hleft
      · cases hready
      · intro path hbeneath hknown
        obtain ⟨file, hfile, -⟩ := hleft path hbeneath hknown
        exact List.not_mem_nil hfile

theorem step (h : dispatcher.IsClearing directory removal) (hremoval : removal.change = .removeTree directory)
    (hstep : dispatcher.StepsTo contents position after) : after.IsClearing directory removal := by
  have hwrites : after.HasNoWriteBeneath directory := h.hasNoWriteBeneath.step hstep
  have hset : ∀ {new : Task}, new.activity? = none → ∀ turn,
      Task.started removal turn ∈ dispatcher.tasks.set position new →
        Task.started removal turn ∈ dispatcher.tasks := by
    intro new hnew turn hturn
    refine (List.mem_or_eq_of_mem_set hturn).resolve_right ?_
    rintro rfl
    cases hnew
  have hend : ∀ turn, Task.started removal turn ∈ dispatcher.tasks.eraseIdx position →
      Task.started removal turn ∈ dispatcher.tasks := fun turn hturn ↦ List.mem_of_mem_eraseIdx hturn
  cases hstep with
  | missing => exact h
  | parked | entered =>
    exact h.of_same rfl hwrites (hset rfl) ((finished_record _).trans (List.append_nil _))
  | begun => exact h.begun hremoval hwrites
  | worked => exact h.worked hwrites
  | finished hold hdone => exact h.finished hold hdone hwrites
  | resumed | left => exact h.of_same rfl hwrites (hset rfl) rfl
  | ended | endedDirectly => exact h.of_same rfl hwrites hend rfl

theorem move {next : Move} (h : dispatcher.IsClearing directory removal)
    (hremoval : removal.change = .removeTree directory)
    (hnext : ∀ file, next.written? = some file → file.isBeneath directory = false)
    (hmove : dispatcher.MovesTo next after) : after.IsClearing directory removal := by
  have hwrites : after.HasNoWriteBeneath directory := h.hasNoWriteBeneath.move hnext hmove
  have hadd : ∀ {new : Task}, new.ticket? = none → ∀ turn,
      Task.started removal turn ∈ dispatcher.tasks ++ [new] →
        Task.started removal turn ∈ dispatcher.tasks := by
    intro new hnew turn hturn
    refine (List.mem_append.mp hturn).resolve_right fun hlast ↦ ?_
    rw [← List.mem_singleton.mp hlast] at hnew
    cases hnew
  cases hmove with
  | advanced hstep => exact h.step hremoval hstep
  | handedIn change => exact h.of_same rfl hwrites (hadd rfl) rfl
  | startedDirectly change =>
    refine ⟨h.isConsistent.arrive change, hwrites, fun turn hturn ↦ ?_, h.isClearOf⟩
    obtain ⟨activity, hactivity, hclears⟩ := h.clears turn (hadd rfl turn hturn)
    exact ⟨activity, ConcurrentIndex.getElem?_activities_arrive hactivity change, hclears⟩
  | _ => exact h.of_same rfl hwrites (fun turn hturn ↦ hturn) rfl

theorem run (h : dispatcher.IsClearing directory removal)
    (hremoval : removal.change = .removeTree directory) {moves : List Move}
    (hmoves : ∀ move ∈ moves, ∀ file, move.written? = some file → file.isBeneath directory = false) :
    (dispatcher.run moves).IsClearing directory removal := by
  induction moves generalizing dispatcher with
  | nil => exact h
  | cons next moves ih =>
    rw [List.forall_mem_cons] at hmoves
    exact ih (h.move hremoval hmoves.1 (dispatcher.movesTo_move next)) hmoves.2

end IsClearing

/-- Assumes: an index that can be reached; a moment at which no write beneath a directory is in hand or
parked, and after which none is handed in; a removal of the directory that has not begun at that moment and
is the last change of this path that is entered. When no task is left nothing is known beneath the directory
and no file beneath it contributes a step. -/
theorem isClearOf_of_removeTree {index : Index} (hreachable : index.IsReachable)
    {before after : List Move} {directory : Path} {removal : Ticket}
    (hnone : ((idle index).run before).HasNoWriteBeneath directory)
    (hafter : ∀ move ∈ after, ∀ file, move.written? = some file → file.isBeneath directory = false)
    (hremoval : removal.change = .removeTree directory)
    (hopen : removal ∉ ((idle index).run before).begunAt directory)
    (hlast : (((idle index).run (before ++ after)).enteredAt directory).getLast? = some removal)
    (hdone : ((idle index).run (before ++ after)).tasks = []) :
    let final := ((idle index).run (before ++ after)).index
    final.IsClearOf directory ∧ ∀ signature, ∀ file ∈ final.cache.contributors signature,
      file.isBeneath directory = false := by
  have hsplit : (idle index).run (before ++ after) = ((idle index).run before).run after :=
    List.foldl_append
  have hstands := hreachable.stands
  have hserial := isSerial_run index before
  have hpath : removal.change.path = directory := by rw [hremoval]; rfl
  rw [← hpath] at hopen
  have hconsistent := isConsistent_run hstands.isSound hstands.isSettled before
  have hstart : ((idle index).run before).IsClearing directory removal := by
    refine ⟨hconsistent, hnone, fun turn hturn ↦ ?_, fun hmem ↦ ?_⟩
    · exact absurd (hserial.mem_begunAt_of_started hturn) hopen
    · exact absurd (hserial.mem_begunAt_of_finished hmem) hopen
  have hclearing : ((idle index).run (before ++ after)).IsClearing directory removal :=
    hsplit ▸ hstart.run hremoval hafter
  have hfinished : removal ∈ ((idle index).run (before ++ after)).finishedAt directory := by
    have hserved := (isSerial_run index (before ++ after)).servesInOrder directory
    refine List.mem_of_getLast? ?_
    rw [(hserved.settled hdone).2.1, hlast]
  have hclear := hclearing.isClearOf (List.mem_filter.mp hfinished).1
  refine ⟨hclear, fun signature file hfile ↦ ?_⟩
  by_contra hbeneath
  rw [Bool.not_eq_false] at hbeneath
  have hsound := hclearing.isConsistent.isSound
  exact hclear file hbeneath (Index.knows_of_contributes hsound
    (hsound.catalogue.exists_mem_contributors_iff.mp ⟨file, hfile, rfl⟩))

/-- A directory with the name of a specification, and one specification in it. -/
def shopContents : Contents := fun path ↦
  if path = ⟨"shop.spec/a.spec"⟩ then .ok "# A\n* Pay\n" else .error .isDirectory

/-- The tasks at some positions take their next steps, one after another. -/
def turns (positions : List Nat) : List Move :=
  positions.map fun position ↦ .advance position shopContents

/-- The specification is written, and after that its directory is removed. -/
theorem isClearOf_of_removeTree_shop :
    let before := .handIn (.write ⟨"shop.spec/a.spec"⟩) :: turns (List.replicate 8 0)
    let after := .handIn (.removeTree ⟨"shop.spec"⟩) :: turns (List.replicate 8 0)
    ((idle (.new [])).run before).index.cache.contributors "Pay" = [⟨"shop.spec/a.spec"⟩] ∧
      ((idle (.new [])).run (before ++ after)).index.IsClearOf ⟨"shop.spec"⟩ := by
  intro before after
  have hwritten : ((idle (.new [])).run before).index.cache.contributors "Pay" =
      [⟨"shop.spec/a.spec"⟩] := by decide +kernel
  have htasks : ((idle (.new [])).run before).tasks = [] :=
    List.length_eq_zero_iff.mp (by decide +kernel)
  have hafter : ∀ move ∈ after, ∀ file, move.written? = some file →
      file.isBeneath ⟨"shop.spec"⟩ = false := by decide +kernel
  have hopen : (⟨1, .removeTree ⟨"shop.spec"⟩⟩ : Ticket) ∉
      ((idle (.new [])).run before).begunAt ⟨"shop.spec"⟩ := by decide +kernel
  have hremoved := isClearOf_of_removeTree (.start (.new [])) (hasNoWriteBeneath_of_tasks_eq_nil htasks)
    hafter rfl hopen (by decide +kernel) (List.length_eq_zero_iff.mp (by decide +kernel))
  exact ⟨hwritten, hremoved.1⟩

/-- No condition can be left out. A write beneath the directory that was started before the removal stores its
file after it. It does so too when the removal has begun before that and ends later, because the removal has
looked beneath the directory at its start. And a removal that is parked behind a write of the path of the
directory gives way to the next change of this path. -/
theorem exists_known_beneath_shop :
    let written := .handIn (.write ⟨"shop.spec/a.spec"⟩) :: turns (List.replicate 8 0)
    let read := .handIn (.write ⟨"shop.spec/a.spec"⟩) :: turns (List.replicate 4 0)
    let overtaken := (idle (.new [])).run
      (read ++ .handIn (.removeTree ⟨"shop.spec"⟩) :: turns (List.replicate 7 1 ++ List.replicate 4 0))
    let missed := (idle (.new [])).run
      (read ++ .handIn (.removeTree ⟨"shop.spec"⟩) :: turns ([1, 1, 1, 0] ++ List.replicate 4 1 ++ [0, 0, 0]))
    let replaced := (idle (.new [])).run
      (written ++ .handIn (.write ⟨"shop.spec"⟩) :: turns [0, 0] ++
        .handIn (.removeTree ⟨"shop.spec"⟩) :: turns [1, 1] ++
        .handIn (.remove ⟨"shop.spec"⟩) :: turns ([1, 1] ++ List.replicate 9 0))
    (overtaken.tasks = [] ∧
      overtaken.enteredAt ⟨"shop.spec"⟩ = [⟨1, .removeTree ⟨"shop.spec"⟩⟩] ∧
      overtaken.index.cache.contributors "Pay" = [⟨"shop.spec/a.spec"⟩]) ∧
    (missed.tasks = [] ∧
      missed.enteredAt ⟨"shop.spec"⟩ = [⟨1, .removeTree ⟨"shop.spec"⟩⟩] ∧
      missed.index.cache.contributors "Pay" = [⟨"shop.spec/a.spec"⟩]) ∧
    replaced.tasks = [] ∧
      (replaced.enteredAt ⟨"shop.spec"⟩).map Ticket.change =
        [.write ⟨"shop.spec"⟩, .removeTree ⟨"shop.spec"⟩, .remove ⟨"shop.spec"⟩] ∧
      replaced.index.cache.contributors "Pay" = [⟨"shop.spec/a.spec"⟩] := by
  decide +kernel

end Dispatcher

end LiveSpec
