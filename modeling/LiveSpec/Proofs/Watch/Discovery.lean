import LiveSpec.Proofs.Index.TreeRemoval
import LiveSpec.Proofs.Watch.Startup
import Mathlib.Data.List.Induction

/-!
# Which files come to be known

The build knows the sources that a walk of the directories finds, and the ignore rules count for it. Afterwards
a file can become known in two ways (`FileEvent.Brings`): a new directory is walked as the root of a walk of
its own, and a file that is created or written is judged by its kind alone. So every path that is known at
some moment was found when the index was built, or has been brought by a report since
(`Startup.comesFromFiles_run`), and a live index knows no other files than a build as long as no report names
a source that the walk leaves out.

The ignore rules do not count for the second way. A file that they exclude is not known after the build, and is
known after it was written (`Startup.exists_known_unlisted_draft`), whenever it can be read
(`Service.knows_handle_written`). Nor do they count for a new directory that they exclude, because the root of
a walk is never ignored.
-/

set_option autoImplicit false

namespace LiveSpec

/-! ### Files that are found -/

/-- A walk of some directories finds a path of this kind, under some spelling. -/
def Disk.Lists (disk : Disk) (directories : List Path) (path : Path) : Prop :=
  ∃ directory ∈ directories, ∃ file ∈ disk.sources path.sourceKind directory, file.location = path.location

instance (disk : Disk) (directories : List Path) (path : Path) :
    Decidable (disk.Lists directories path) :=
  inferInstanceAs (Decidable (∃ directory ∈ directories, ∃ file ∈ disk.sources path.sourceKind directory,
    file.location = path.location))

instance (index : Index) (path : Path) : Decidable (index.Knows path) :=
  inferInstanceAs (Decidable (_ = true ∨ _ = true))

theorem Disk.lists_of_mem_sourcesIn {disk : Disk} {directories : List Path} {kind : SourceKind}
    {file path : Path} (h : file ∈ Index.sourcesIn disk kind directories)
    (hsame : file.location = path.location) : disk.Lists directories path := by
  have hkind : path.sourceKind = kind :=
    (Path.sourceKind_congr hsame).symm.trans
      ((Index.areSources_sourcesIn disk kind directories).sourceKind_eq file h)
  obtain ⟨found, hfound, hspelling⟩ := PathSet.exists_of_mem_paths_insertAll h
  obtain ⟨directory, hdirectory, hfound⟩ := List.mem_flatMap.mp hfound
  exact ⟨directory, List.mem_reverse.mp hdirectory, found, hkind ▸ hfound, hspelling.trans hsame⟩

/-- The file that a step of a build stores, if it stores one. -/
def BuildStep.stored? : BuildStep → Option Path
  | storeConcepts file _ => some file
  | storeSpecification spec => some spec.file
  | _ => none

namespace Index

variable {index : Index} {path : Path}

/-- What is known after a step of a build was known before or has been stored by it. -/
theorem knows_perform {step : BuildStep} (h : (index.perform step).Knows path) :
    index.Knows path ∨ ∃ stored, step.stored? = some stored ∧ stored.location = path.location := by
  cases step with
  | forgetAll => simp [Knows, perform, Cache.empty, PathMap.contains_empty] at h
  | storeConcepts file concepts =>
    rcases h with hspec | hconcept
    · exact .inl (.inl hspec)
    · rcases PathMap.contains_set.mp hconcept with hsame | hknown
      · exact .inr ⟨file, rfl, hsame⟩
      · exact .inl (.inr hknown)
  | replaceDictionary dictionary => exact .inl h
  | storeSpecification spec =>
    rcases h with hspec | hconcept
    · rcases PathMap.contains_set.mp hspec with hsame | hknown
      · exact .inr ⟨spec.file, rfl, hsame⟩
      · exact .inl (.inl hknown)
    · exact .inl (.inr hconcept)
  | contribute file signatures => exact .inl h

theorem knows_foldl_perform {steps : List BuildStep} (h : (steps.foldl perform index).Knows path) :
    index.Knows path ∨
      ∃ step ∈ steps, ∃ stored, step.stored? = some stored ∧ stored.location = path.location := by
  induction steps generalizing index with
  | nil => exact .inl h
  | cons step rest ih =>
    rcases ih h with hbefore | ⟨later, hlater, hstored⟩
    · exact (knows_perform hbefore).imp_right fun hstored ↦ ⟨step, List.mem_cons_self, hstored⟩
    · exact .inr ⟨later, List.mem_cons_of_mem step hlater, hstored⟩

theorem not_knows_new (directories : List Path) (path : Path) : ¬ (new directories).Knows path := by
  simp [Knows, new, Cache.empty, PathMap.contains_empty]

end Index

namespace BuildPlan

/-- What reading gives, of the sources that a walk of some directories finds. -/
def ofWalk (disk : Disk) (contents : Contents) (directories : List Path) : BuildPlan :=
  read contents (Index.sourcesIn disk .concepts directories)
    (Index.sourcesIn disk .specification directories)

variable {disk : Disk} {contents : Contents} {directories : List Path}

/-- A step of a build stores a file that the walk finds. -/
theorem lists_of_stored? {step : BuildStep} (h : step ∈ (ofWalk disk contents directories).steps)
    {stored path : Path} (hstored : step.stored? = some stored) (hsame : stored.location = path.location) :
    disk.Lists directories path := by
  cases step with
  | storeConcepts file concepts =>
    obtain rfl : file = stored := Option.some.inj hstored
    have hmem : (file, concepts) ∈ (ofWalk disk contents directories).conceptFiles := by
      simpa [steps] using h
    exact Disk.lists_of_mem_sourcesIn (mem_conceptFiles.mp hmem).1 hsame
  | storeSpecification spec =>
    obtain rfl : spec.file = stored := Option.some.inj hstored
    have hmem : spec ∈ (ofWalk disk contents directories).specifications := by simpa [steps] using h
    exact Disk.lists_of_mem_sourcesIn (mem_specifications.mp hmem).1 hsame
  | _ => cases hstored

/-- The first steps of a build know only what the walk finds. -/
theorem lists_of_knows {done : List BuildStep} (h : done <+: (ofWalk disk contents directories).steps)
    {path : Path} (hknown : (done.foldl Index.perform (.new directories)).Knows path) :
    disk.Lists directories path := by
  obtain ⟨step, hstep, stored, hstored, hsame⟩ :=
    (Index.knows_foldl_perform hknown).resolve_left (Index.not_knows_new directories path)
  exact lists_of_stored? (h.subset hstep) hstored hsame

end BuildPlan

/-! ### Files that events bring -/

/-- How an event makes the index take in a file. -/
inductive FileEvent.Brings (disk : Disk) : FileEvent → Path → Prop
  /-- A new directory is walked. -/
  | found {directory file : Path} {kind : SourceKind} (hdirectory : disk.isDirectory directory = true)
    (hfile : file ∈ disk.sources kind directory) : Brings disk (.created directory) file
  /-- A new file is judged by its kind. -/
  | created {file : Path} (hfile : disk.isDirectory file = false) (hkind : file.sourceKind ≠ .other) :
    Brings disk (.created file) file
  /-- And so is a file that was written. -/
  | written {file : Path} (hkind : file.sourceKind ≠ .other) : Brings disk (.written file) file

namespace Coverage

variable {coverage : Coverage} {disk : Disk} {file path : Path}

theorem mem_writeOf (h : .write file ∈ writeOf path) : file = path ∧ path.sourceKind ≠ .other := by
  unfold writeOf at h
  split_ifs at h with hkind
  · simp at h
  · simpa [hkind] using h

theorem not_mem_removalOf (file path : Path) : .write file ∉ removalOf path := by
  unfold removalOf
  split_ifs <;> simp

theorem not_mem_respondToLoss (coverage : Coverage) (file path : Path) :
    .write file ∉ (coverage.respondToLoss path).2 := by
  unfold respondToLoss
  split_ifs
  · simp
  · exact not_mem_removalOf file path

/-- Only files that an event brings are written because of it. -/
theorem brings_of_mem_respond {event : FileEvent} (h : .write file ∈ (coverage.respond disk event).2) :
    event.Brings disk file := by
  cases event with
  | created path =>
    simp only [respond] at h
    split_ifs at h with hdirectory
    · obtain ⟨found, hfound, hsame⟩ := List.mem_map.mp h
      obtain rfl : found = file := Change.write.inj hsame
      rcases List.mem_append.mp hfound with hconcept | hspec
      · exact .found hdirectory hconcept
      · exact .found hdirectory hspec
    · obtain ⟨rfl, hkind⟩ := mem_writeOf h
      exact .created (Bool.eq_false_iff.mpr hdirectory) hkind
  | written path =>
    obtain ⟨rfl, hkind⟩ := mem_writeOf h
    exact .written hkind
  | renamedAway path => exact absurd h (not_mem_respondToLoss coverage file path)
  | removed path => exact absurd h (not_mem_respondToLoss coverage file path)

theorem brings_of_mem_foldl_answer {events : List FileEvent} {answered : Coverage × List Change}
    (h : .write file ∈ (events.foldl (answer disk) answered).2) :
    .write file ∈ answered.2 ∨ ∃ event ∈ events, event.Brings disk file := by
  induction events generalizing answered with
  | nil => exact .inl h
  | cons event rest ih =>
    rcases ih h with hanswered | ⟨later, hlater, hbrings⟩
    · refine (List.mem_append.mp hanswered).imp_right fun hnow ↦ ?_
      exact ⟨event, List.mem_cons_self, brings_of_mem_respond hnow⟩
    · exact .inr ⟨later, List.mem_cons_of_mem event hlater, hbrings⟩

/-- Only files that some report brings are written because of reports. -/
theorem brings_of_mem_answerAll {responses : List (RawEvent × Disk)}
    (h : .write file ∈ (coverage.answerAll responses).2) :
    ∃ response ∈ responses, ∃ event ∈ FileEvent.ofRaw response.2.isPresent response.1,
      event.Brings response.2 file := by
  induction responses using List.reverseRecOn with
  | nil => exact absurd h List.not_mem_nil
  | append_singleton earlier last ih =>
    rw [answerAll, List.foldl_append] at h
    rcases brings_of_mem_foldl_answer h with hbefore | ⟨event, hevent, hbrings⟩
    · obtain ⟨response, hresponse, hevents⟩ := ih hbefore
      exact ⟨response, List.mem_append_left _ hresponse, hevents⟩
    · exact ⟨last, List.mem_append_right earlier List.mem_cons_self, event, hevent, hbrings⟩

end Coverage

namespace Dispatcher

variable {dispatcher : Dispatcher} {first : Index} {changes : List Change}

/-- Only files that a change writes are in hand or parked. -/
theorem HasTaken.writesOnly (h : HasTaken first changes dispatcher) :
    dispatcher.WritesOnly fun file ↦ .write file ∈ changes := by
  induction h with
  | idle =>
    refine ⟨fun activity hactivity ↦ absurd hactivity List.not_mem_nil,
      fun task htask ↦ absurd htask List.not_mem_nil, fun path ticket hparked ↦ ?_⟩
    rw [Dispatcher.idle, PathMap.find?_empty] at hparked
    cases hparked
  | @handIn dispatcher changes h change ih =>
    have hbefore : dispatcher.WritesOnly fun file ↦ .write file ∈ changes ++ [change] :=
      ih.mono fun file ↦ List.mem_append_left [change]
    refine hbefore.move (fun file hfile ↦ ?_) (.handedIn change)
    rw [Change.eq_write_of_written? hfile]
    exact List.mem_append_right changes List.mem_cons_self
  | @advance dispatcher changes h contents position ih =>
    exact ih.step (dispatcher.stepsTo_advance contents position)

/-- What is known after some changes was known at the start, or a change has written it. -/
theorem HasTaken.knows (h : HasTaken first changes dispatcher) {path : Path}
    (hpath : dispatcher.index.Knows path) :
    first.Knows path ∨ ∃ file, .write file ∈ changes ∧ file.location = path.location := by
  induction h with
  | idle => exact .inl hpath
  | handIn h change ih =>
    refine (ih hpath).imp_right fun ⟨file, hfile, hsame⟩ ↦ ?_
    exact ⟨file, List.mem_append_left [change] hfile, hsame⟩
  | @advance dispatcher changes h contents position ih =>
    exact (h.writesOnly.knows_step (dispatcher.stepsTo_advance contents position) hpath).elim ih .inr

end Dispatcher

/-! ### The live index -/

namespace Startup

variable {directories : List Path} {disk : Disk} {coverage : Coverage} {disks : List Disk}
  {state : Startup}

/-- A report that has been responded to brings a path, under some spelling. -/
def IsBrought (state : Startup) (disks : List Disk) (path : Path) : Prop :=
  ∃ report ∈ state.handled, ∃ disk ∈ disks, ∃ event ∈ FileEvent.ofRaw disk.isPresent report,
    ∃ file, event.Brings disk file ∧ file.location = path.location

/-- Whatever is known was found by a walk of the directories or has been brought by a report. -/
def ComesFromFiles (disk : Disk) (directories : List Path) (disks : List Disk) (state : Startup) : Prop :=
  ∀ path, state.dispatcher.index.Knows path → disk.Lists directories path ∨ state.IsBrought disks path

/-- Assumes: an index that has been built, and reports that were responded to. What is known comes from
files. -/
theorem IsAnswered.comesFromFiles {built : Index}
    (h : state.IsAnswered built coverage disks)
    (hbuilt : ∀ path, built.Knows path → disk.Lists directories path) :
    state.ComesFromFiles disk directories disks := by
  obtain ⟨used, hused, -, -, htaken⟩ := h
  intro path hpath
  refine (htaken.knows hpath).imp (hbuilt path) ?_
  rintro ⟨file, hfile, hsame⟩
  obtain ⟨⟨report, now⟩, hresponse, event, hevent, hbrings⟩ := Coverage.brings_of_mem_answerAll hfile
  obtain ⟨hreport, hnow⟩ := List.of_mem_zip hresponse
  exact ⟨report, hreport, now, hused.subset hnow, event, hevent, file, hbrings, hsame⟩

/-- Assumes: a build that stores only files that the walk finds. At every stage of a start-up what is known
comes from files. -/
theorem IsStarting.comesFromFiles {first : Index} {plan : BuildPlan} {reports : List RawEvent}
    (h : state.IsStarting first plan coverage disks reports)
    (hfound : ∀ done, done <+: plan.steps → ∀ path, (done.foldl Index.perform first).Knows path →
      disk.Lists directories path) : state.ComesFromFiles disk directories disks := by
  cases h with
  | begun => exact fun path hpath ↦ .inl (hfound [] List.nil_prefix path hpath)
  | guarded => exact fun path hpath ↦ .inl (hfound [] List.nil_prefix path hpath)
  | @building done rest hsteps =>
    exact fun path hpath ↦ .inl (hfound done (hsteps ▸ List.prefix_append done rest) path hpath)
  | built => exact fun path hpath ↦ .inl (hfound plan.steps (List.prefix_refl _) path hpath)
  | serving h hreports => exact h.comesFromFiles (hfound plan.steps (List.prefix_refl _))

/-- However the steps of a start-up fall among one another, and whatever is reported when and while the files
change, every path that is known was found by the walk before the build or has been brought by a report
since. -/
theorem comesFromFiles_run (directories : List Path) (coverage : Coverage) (disk : Disk)
    (contents : Contents) (moves : List Move) :
    ((new directories coverage (.ofWalk disk contents directories)).run moves).ComesFromFiles disk directories
      (served moves) :=
  ((isStarting_new directories coverage (.ofWalk disk contents directories)).run moves).comesFromFiles
    fun _ hdone _ ↦ BuildPlan.lists_of_knows hdone

/-- A directory whose ignore file names a specification and a directory in it. -/
def draftDisk : Disk :=
  ⟨(((((∅ : Std.ExtTreeMap Place DiskEntry).insert ["specs"] .directory).insert ["specs", ".ignore"]
    (.text "draft.spec\nold\n")).insert ["specs", "draft.spec"] (.text "# Draft\n* Go\n")).insert
    ["specs", "old"] .directory).insert ["specs", "old", "pay.spec"] (.text "# Pay\n* Pay\n"), []⟩

/-- The whole build, then reports that the specification was written and that the directory is new, and all
steps that they ask for. -/
def draftMoves : List Move :=
  List.replicate 5 .proceed ++
    [.deliver ⟨.modified, [⟨"/specs/draft.spec"⟩]⟩, .deliver ⟨.created, [⟨"/specs/old"⟩]⟩] ++
    List.replicate 3 (.serve draftDisk) ++ List.replicate 16 (.advance 0 draftDisk.contents)

/-- The walk finds neither specification, and both are known in the end. -/
theorem exists_known_unlisted_draft :
    let state := (new [⟨"/specs"⟩] ([⟨"/specs"⟩].foldl (Coverage.registerTree draftDisk) .empty)
      (.ofWalk draftDisk draftDisk.contents [⟨"/specs"⟩])).run draftMoves
    state.remaining.length = 0 ∧ state.queue = [] ∧ state.dispatcher.tasks.length = 0 ∧
      ∀ path ∈ [⟨"/specs/draft.spec"⟩, ⟨"/specs/old/pay.spec"⟩],
        state.dispatcher.index.Knows path ∧ ¬ draftDisk.Lists [⟨"/specs"⟩] path := by
  decide +kernel

end Startup

/-! ### Sources that the walk leaves out -/

/-- Assumes: a path of a source. What a write of it has come to is known once it is in the index. -/
theorem Index.knows_commit_write {index : Index} {contents : Contents} {dictionary : Dictionary} {path : Path}
    (hkind : path.sourceKind ≠ .other) {update : Update}
    (h : (Change.write path).prepare contents dictionary = .ok update) : (index.commit update).Knows path := by
  simp only [Change.prepare] at h
  split at h
  · cases hread : contents.expanded dictionary path <;> rw [hread] at h <;> cases h
    exact .inl (PathMap.contains_set.mpr (.inl (congrArg Path.location (Contents.file_of_expanded hread))))
  · cases hread : contents.concepts path <;> rw [hread] at h <;> cases h
    rw [Knows, commit, concepts_refreshConcepts]
    exact .inr (PathMap.contains_set.mpr (.inl rfl))
  · contradiction

/-- Assumes: a path of a source, which can be read and expanded. Once a service has responded to an event that
it was written it is known, whatever a walk finds. -/
theorem Service.knows_handle_written (service : Service) (disk : Disk) {path : Path}
    (hkind : path.sourceKind ≠ .other) {update : Update}
    (hread : (Change.write path).prepare disk.contents service.index.dictionary = .ok update) :
    (service.handle disk (.written path)).index.Knows path := by
  have hindex : (service.handle disk (.written path)).index = service.index.commit update := by
    show service.index.applyAll disk.contents (Coverage.writeOf path) = _
    rw [Coverage.writeOf, if_neg hkind]
    exact Index.applyAll_cons [] hread
  rw [hindex]
  exact Index.knows_commit_write hkind hread

end LiveSpec
