import LiveSpec.Proofs.Index.Readiness
import LiveSpec.Proofs.Index.Stores
import LiveSpec.Proofs.Index.Writing
import LiveSpec.Watch.Coverage
import Mathlib.Data.List.TakeWhile

/-!
# Directories that appear

When a directory appears its concept files and then its specifications are handed in, each as a change of its
own, and the tasks run side by side. So a specification can be begun before the concepts beside it are in the
dictionary, and is then stored with invocations that are not expanded
(`Dispatcher.exists_unexpanded_arrival`).

Whatever the order is, the concepts of the directory are known in the end, and the dictionary is the one of
all known concepts. A specification that is begun when the concepts are in effect
(`Dispatcher.FollowsConcepts`) is stored as it is expanded with this dictionary
(`Dispatcher.expanded_of_takesIn`).

What carries this is that every file is written once. The stages of a write say which dictionary it has read
and what is in the index when it has been worked off (`Activity.Writes`), and no other write disturbs them. A
dictionary that has been read is still the current one as long as no change of concepts is being worked off or
has been finished since the write was begun (`Dispatcher.IsCurrent`, `Dispatcher.IsTakingIn`).
-/

set_option autoImplicit false

namespace LiveSpec

namespace Dispatcher

variable {dispatcher after : Dispatcher} {contents : Contents} {position : Nat} {path : Path}

/-! ### Since a change was begun -/

/-- What has happened since a change of a path was begun for the first time. -/
def sinceBegun (dispatcher : Dispatcher) (path : Path) : List DispatchEvent :=
  dispatcher.journal.dropWhile fun event ↦ !event.begun?.any (Ticket.isAt path)

/-- No change of concepts has been finished since a change of the path was begun. -/
def FollowsConcepts (dispatcher : Dispatcher) (path : Path) : Prop :=
  ∀ ticket ∈ (dispatcher.sinceBegun path).filterMap DispatchEvent.finished?,
    ticket.change.path.sourceKind ≠ .concepts

instance (dispatcher : Dispatcher) (path : Path) : Decidable (dispatcher.FollowsConcepts path) :=
  inferInstanceAs (Decidable (∀ ticket ∈ _, _))

section Since

variable {events : List DispatchEvent}
  (hjournal : after.journal = dispatcher.journal ++ events)

include hjournal

/-- What has happened since then is never forgotten. -/
theorem sinceBegun_append : ∃ more, after.sinceBegun path = dispatcher.sinceBegun path ++ more := by
  unfold sinceBegun
  rw [hjournal, List.dropWhile_append]
  split
  · rename_i hnone
    rw [List.isEmpty_iff.mp hnone]
    exact ⟨_, rfl⟩
  · exact ⟨events, rfl⟩

theorem FollowsConcepts.of_append (h : after.FollowsConcepts path) : dispatcher.FollowsConcepts path := by
  obtain ⟨more, hmore⟩ : ∃ more, after.sinceBegun path = dispatcher.sinceBegun path ++ more :=
    sinceBegun_append hjournal
  intro ticket hticket
  refine h ticket ?_
  rw [hmore, List.filterMap_append]
  exact List.mem_append_left _ hticket

/-- Once a change of the path has been begun, everything that happens counts. -/
theorem sinceBegun_of_begun (hbegun : dispatcher.begunAt path ≠ []) :
    after.sinceBegun path = dispatcher.sinceBegun path ++ events := by
  unfold sinceBegun
  rw [hjournal, List.dropWhile_append, if_neg]
  rw [List.isEmpty_iff, List.dropWhile_eq_nil_iff]
  intro hnone
  obtain ⟨ticket, hticket⟩ := List.exists_mem_of_ne_nil _ hbegun
  obtain ⟨hmem, hat⟩ := List.mem_filter.mp hticket
  obtain ⟨event, hevent, hsome⟩ := List.mem_filterMap.mp hmem
  have hfalse := hnone event hevent
  rw [hsome, Option.any_some, hat] at hfalse
  cases hfalse

end Since

/-! ### Writing every file once -/

/-- Some changes write different files. -/
structure AreWrites (changes : List Change) : Prop where
  exists_file : ∀ change ∈ changes, ∃ file, change = .write file
  nodup : (changes.map fun change ↦ change.path.location).Nodup

theorem AreWrites.sublist {changes more : List Change} (h : AreWrites more)
    (hsublist : changes.Sublist more) : AreWrites changes :=
  ⟨fun change hmem ↦ h.exists_file change (hsublist.subset hmem), h.nodup.sublist (hsublist.map _)⟩

/-- Assumes: changes that write different files. Every path is entered once at most. -/
theorem IsAccountedFor.eq_of_location_eq {handedIn : List Change} (h : dispatcher.IsAccountedFor handedIn)
    (hwrites : AreWrites handedIn) {ticket other : Ticket} (hticket : ticket ∈ dispatcher.entered)
    (hother : other ∈ dispatcher.entered)
    (hsame : ticket.change.path.location = other.change.path.location) : ticket = other := by
  have hnodup := (h.map fun change ↦ change.path.location).nodup_iff.mpr hwrites.nodup
  rw [List.map_append, List.map_map] at hnodup
  exact List.inj_on_of_nodup_map hnodup.of_append_left hticket hother hsame

/-- Assumes: changes that write different files. A change that was entered is one of them. -/
theorem IsAccountedFor.exists_file {handedIn : List Change} (h : dispatcher.IsAccountedFor handedIn)
    (hwrites : AreWrites handedIn) {ticket : Ticket} (hticket : ticket ∈ dispatcher.entered) :
    ∃ file, ticket.change = .write file :=
  hwrites.exists_file _ (h.subset (List.mem_append_left _ (List.mem_map_of_mem hticket)))

/-- No change of concepts is being worked off. -/
def HasNoConceptWork (dispatcher : Dispatcher) : Prop :=
  ∀ ticket turn, Task.started ticket turn ∈ dispatcher.tasks → ticket.change.path.sourceKind ≠ .concepts

/-- A dictionary is the current one, unless concepts are being changed or have been changed since a change of
the path was begun. -/
def IsCurrent (dispatcher : Dispatcher) (path : Path) (dictionary : Dictionary) : Prop :=
  dispatcher.FollowsConcepts path → dispatcher.HasNoConceptWork → dictionary = dispatcher.index.dictionary

/-- Steps that leave the index alone. The changes of concepts that are being worked off have to stay, or to be
recorded as finished. -/
theorem IsCurrent.of_same {events : List DispatchEvent} {dictionary : Dictionary}
    (h : dispatcher.IsCurrent path dictionary) (hwork : after.work.index = dispatcher.work.index)
    (hjournal : after.journal = dispatcher.journal ++ events)
    (hkept : after.FollowsConcepts path → ∀ ticket turn, Task.started ticket turn ∈ dispatcher.tasks →
      ticket.change.path.sourceKind = .concepts → Task.started ticket turn ∈ after.tasks) :
    after.IsCurrent path dictionary := by
  intro hfollows hnone
  refine (h (.of_append hjournal hfollows) fun ticket turn hturn hkind ↦ ?_).trans
    (congrArg Index.dictionary hwork).symm
  exact hnone ticket turn (hkept hfollows ticket turn hturn hkind) hkind

/-- A change is being worked off: it has not taken its first step, or it is at some stage of writing its path,
with a dictionary that was current when it took its first step. -/
def IsAtWork (dispatcher : Dispatcher) (contents : Contents) (path : Path) (turn : Nat) : Prop :=
  ∃ activity, dispatcher.work.activities[turn]? = some activity ∧ (activity = .ready (.write path) ∨
    ∃ dictionary, dispatcher.IsCurrent path dictionary ∧
      activity.Writes contents path dictionary dispatcher.index)

/-- Steps that leave the index and the activity of a change alone. Its dictionary has to stay current. -/
theorem IsAtWork.of_same {turn : Nat} (h : dispatcher.IsAtWork contents path turn)
    (hindex : after.index = dispatcher.index)
    (hactivity : ∀ activity, dispatcher.work.activities[turn]? = some activity →
      after.work.activities[turn]? = some activity)
    (hcurrent : ∀ dictionary, dispatcher.IsCurrent path dictionary → after.IsCurrent path dictionary) :
    after.IsAtWork contents path turn := by
  obtain ⟨activity, hknown, hstage⟩ := h
  refine ⟨activity, hactivity activity hknown, hstage.imp_right ?_⟩
  rintro ⟨dictionary, hbefore, hwriting⟩
  exact ⟨dictionary, hcurrent dictionary hbefore, hindex ▸ hwriting⟩

/-- Some files are being written, each once, while reading gives certain contents. -/
structure IsTakingIn (dispatcher : Dispatcher) (contents : Contents) (handedIn : List Change) : Prop where
  isSerial : dispatcher.IsSerial
  isAccountedFor : dispatcher.IsAccountedFor handedIn
  not_direct : ∀ turn, Task.direct turn ∉ dispatcher.tasks
  started : ∀ ticket turn, Task.started ticket turn ∈ dispatcher.tasks → ∀ path,
    ticket.change = .write path → dispatcher.IsAtWork contents path turn
  finished : ∀ ticket ∈ dispatcher.finished, ∀ path, ticket.change = .write path → ∃ dictionary,
    dispatcher.IsCurrent path dictionary ∧ dispatcher.index.HasStored contents dictionary path

namespace IsTakingIn

variable {handedIn : List Change} {ticket : Ticket}

theorem mem_entered_of_started (h : dispatcher.IsTakingIn contents handedIn) {turn : Nat}
    (htask : Task.started ticket turn ∈ dispatcher.tasks) : ticket ∈ dispatcher.entered :=
  h.isSerial.mem_entered_of_begunAt (h.isSerial.mem_begunAt_of_started htask)

theorem mem_entered_of_finished (h : dispatcher.IsTakingIn contents handedIn)
    (hfinished : ticket ∈ dispatcher.finished) : ticket ∈ dispatcher.entered :=
  h.isSerial.mem_entered_of_begunAt (h.isSerial.mem_begunAt_of_finished hfinished)

/-- Steps that leave the index alone, and neither begin nor finish a change. -/
theorem of_same {more : List Change} {events : List DispatchEvent}
    (h : dispatcher.IsTakingIn contents handedIn) (hserial : after.IsSerial)
    (haccounted : after.IsAccountedFor more) (hwork : after.work = dispatcher.work)
    (hjournal : after.journal = dispatcher.journal ++ events)
    (hfinished : after.finished = dispatcher.finished)
    (htasks : ∀ task, task.activity?.isSome = true → (task ∈ after.tasks ↔ task ∈ dispatcher.tasks)) :
    after.IsTakingIn contents more := by
  have hcurrent : ∀ (path : Path) (dictionary : Dictionary), dispatcher.IsCurrent path dictionary →
      after.IsCurrent path dictionary := fun path dictionary hbefore ↦
    hbefore.of_same (congrArg ConcurrentIndex.index hwork) hjournal
      fun _ ticket turn hturn _ ↦ (htasks _ rfl).mpr hturn
  refine ⟨hserial, haccounted, fun turn hturn ↦ h.not_direct turn ((htasks _ rfl).mp hturn), ?_, ?_⟩
  · intro ticket turn hturn path hpath
    refine (h.started ticket turn ((htasks _ rfl).mp hturn) path hpath).of_same
      (congrArg ConcurrentIndex.index hwork) (fun activity hactivity ↦ ?_) (hcurrent path)
    rwa [hwork]
  · intro ticket hticket path hpath
    obtain ⟨dictionary, hbefore, hstored⟩ := h.finished ticket (hfinished ▸ hticket) path hpath
    rw [index, hwork]
    exact ⟨dictionary, hcurrent path dictionary hbefore, hstored⟩

/-- A change is begun. -/
theorem begun (h : dispatcher.IsTakingIn contents handedIn)
    (hold : dispatcher.tasks[position]? = some (.queued ticket))
    (hserial : (dispatcher.start position ticket).IsSerial)
    (haccounted : (dispatcher.start position ticket).IsAccountedFor handedIn) :
    (dispatcher.start position ticket).IsTakingIn contents handedIn := by
  have hcurrent : ∀ (path : Path) (dictionary : Dictionary), dispatcher.IsCurrent path dictionary →
      (dispatcher.start position ticket).IsCurrent path dictionary := by
    intro path dictionary hbefore
    refine hbefore.of_same rfl rfl fun _ other turn hturn _ ↦ mem_set_of_ne hold hturn ?_
    intro hsame
    cases hsame
  refine ⟨hserial, haccounted, fun turn hturn ↦ ?_, ?_, ?_⟩
  · rcases List.mem_or_eq_of_mem_set hturn with hbefore | hnew
    · exact h.not_direct turn hbefore
    · cases hnew
  · intro other turn hturn path hpath
    rcases List.mem_or_eq_of_mem_set hturn with hbefore | hnew
    · exact (h.started other turn hbefore path hpath).of_same rfl
        (fun _ hactivity ↦ ConcurrentIndex.getElem?_activities_arrive hactivity ticket.change) (hcurrent path)
    · obtain ⟨rfl, rfl⟩ := Task.started.inj hnew
      exact ⟨.ready other.change, List.getElem?_concat_length, .inl (congrArg Activity.ready hpath)⟩
  · intro other hother path hpath
    rw [start, finished_record] at hother
    obtain ⟨dictionary, hbefore, hstored⟩ :=
      h.finished other ((List.append_nil dispatcher.finished) ▸ hother) path hpath
    exact ⟨dictionary, hcurrent path dictionary hbefore, hstored⟩

/-- A change is finished. -/
theorem finish (h : dispatcher.IsTakingIn contents handedIn) {turn : Nat}
    (hold : dispatcher.tasks[position]? = some (.started ticket turn))
    (hdone : dispatcher.hasFinished turn = true)
    (hserial : (dispatcher.finish position ticket).IsSerial)
    (haccounted : (dispatcher.finish position ticket).IsAccountedFor handedIn) :
    (dispatcher.finish position ticket).IsTakingIn contents handedIn := by
  have hmem := List.mem_of_getElem? hold
  -- A path that was begun follows no concepts any more if these are finished now.
  have hcurrent : ∀ {path : Path} {dictionary : Dictionary}, dispatcher.begunAt path ≠ [] →
      dispatcher.IsCurrent path dictionary →
        (dispatcher.finish position ticket).IsCurrent path dictionary := by
    intro path dictionary hbegun hbefore
    refine hbefore.of_same rfl rfl fun hfollows other number hother hkind ↦ ?_
    refine mem_set_of_ne hold hother ?_
    intro hsame
    obtain ⟨rfl, -⟩ := Task.started.inj hsame
    refine hfollows other ?_ hkind
    rw [sinceBegun_of_begun rfl hbegun, List.filterMap_append]
    exact List.mem_append_right _ (List.mem_singleton_self other)
  have hbegunAt : ∀ {other : Ticket} {path : Path}, other.change = .write path →
      other ∈ dispatcher.begunAt other.change.path → dispatcher.begunAt path ≠ [] := by
    rintro other path hpath hbegun
    rw [hpath] at hbegun
    exact List.ne_nil_of_mem hbegun
  refine ⟨hserial, haccounted, fun number hnumber ↦ ?_, ?_, ?_⟩
  · rcases List.mem_or_eq_of_mem_set hnumber with hbefore | hnew
    · exact h.not_direct number hbefore
    · cases hnew
  · intro other number hother path hpath
    rcases List.mem_or_eq_of_mem_set hother with hbefore | hnew
    · have hbegun := hbegunAt hpath (h.isSerial.mem_begunAt_of_started hbefore)
      exact (h.started other number hbefore path hpath).of_same rfl (fun _ ↦ id) fun _ ↦ hcurrent hbegun
    · cases hnew
  · intro other hother path hpath
    rw [Dispatcher.finish, finished_record] at hother
    rcases List.mem_append.mp hother with hbefore | hnow
    · obtain ⟨dictionary, hknown, hstored⟩ := h.finished other hbefore path hpath
      exact ⟨dictionary, hcurrent (hbegunAt hpath (h.isSerial.mem_begunAt_of_finished hbefore)) hknown, hstored⟩
    · obtain rfl : other = ticket := List.mem_singleton.mp hnow
      obtain ⟨activity, hactivity, hstage⟩ := h.started other turn hmem path hpath
      rw [hasFinished, hactivity, Option.any_some, Activity.isFinished_iff] at hdone
      subst hdone
      rcases hstage with hready | ⟨dictionary, hknown, hstored⟩
      · cases hready
      · have hbegun := hbegunAt hpath (h.isSerial.mem_begunAt_of_started hmem)
        exact ⟨dictionary, hcurrent hbegun hknown, hstored⟩

/-- A write takes a step. The others are not disturbed, because they are about other paths. -/
theorem worked (h : dispatcher.IsTakingIn contents handedIn) (hwrites : AreWrites handedIn) {turn : Nat}
    (hmem : Task.started ticket turn ∈ dispatcher.tasks) {activity : Activity} {step : Index × Activity}
    {isLocked : Bool} (hactivity : dispatcher.work.activities[turn]? = some activity)
    (hturn : ConcurrentIndex.IsTurn dispatcher.work.index contents activity step)
    (hwork : after.work = { dispatcher.work with index := step.1, isLocked }.setActivity turn step.2)
    (htasks : after.tasks = dispatcher.tasks) (hjournal : after.journal = dispatcher.journal)
    (hserial : after.IsSerial) (haccounted : after.IsAccountedFor handedIn) :
    after.IsTakingIn contents handedIn := by
  have hentered := h.mem_entered_of_started hmem
  obtain ⟨path, hpath⟩ := h.isAccountedFor.exists_file hwrites hentered
  have hindex : after.index = step.1 := congrArg ConcurrentIndex.index hwork
  obtain ⟨hsame, hdictionary⟩ : (∀ file : Path, path.location ≠ file.location →
      dispatcher.index.SameAt step.1 file) ∧
        (path.sourceKind ≠ .concepts → step.1.dictionary = dispatcher.index.dictionary) := by
    obtain ⟨known, hknown, hstage⟩ := h.started ticket turn hmem path hpath
    obtain rfl : activity = known := Option.some.inj (hactivity.symm.trans hknown)
    rcases hstage with rfl | ⟨dictionary, -, hwriting⟩
    · rw [hturn.writes_of_ready.2]
      exact ⟨fun _ _ ↦ ⟨rfl, rfl⟩, fun _ ↦ rfl⟩
    · exact ⟨fun _ hother ↦ hturn.sameAt hwriting hother, hturn.dictionary_eq hwriting⟩
  have hcurrent : ∀ {file : Path} {dictionary : Dictionary}, dispatcher.IsCurrent file dictionary →
      after.IsCurrent file dictionary := by
    intro file dictionary hbefore hfollows hnone
    rw [HasNoConceptWork, htasks] at hnone
    have hkind := hnone ticket turn hmem
    rw [hpath] at hkind
    rw [hindex, hdictionary hkind]
    exact hbefore (.of_append (hjournal.trans (List.append_nil _).symm) hfollows) hnone
  have hother : ∀ {other : Ticket} {file : Path}, other.change = .write file → other ∈ dispatcher.entered →
      other ≠ ticket → path.location ≠ file.location := by
    intro other file hfile hmem hdifferent hlocation
    refine hdifferent (h.isAccountedFor.eq_of_location_eq hwrites hmem hentered ?_)
    rw [hfile, hpath]
    exact hlocation.symm
  refine ⟨hserial, haccounted, htasks ▸ h.not_direct, ?_, ?_⟩
  · intro other number hnumber file hfile
    rw [htasks] at hnumber
    obtain ⟨known, hknown, hstage⟩ := h.started other number hnumber file hfile
    rw [IsAtWork, hwork, hindex]
    by_cases hnow : turn = number
    · subst hnow
      obtain rfl : activity = known := Option.some.inj (hactivity.symm.trans hknown)
      refine ⟨step.2, List.getElem?_set_self (List.getElem?_eq_some_iff.mp hactivity).1, .inr ?_⟩
      rcases hstage with rfl | ⟨dictionary, hbefore, hwriting⟩
      · obtain ⟨hwriting, hfirst⟩ := hturn.writes_of_ready
        refine ⟨dispatcher.index.dictionary, fun _ _ ↦ ?_, hwriting⟩
        rw [hindex, hfirst]
        rfl
      · exact ⟨dictionary, hcurrent hbefore, hturn.writes hwriting⟩
    · refine ⟨known, (List.getElem?_set_ne hnow).trans hknown, hstage.imp_right ?_⟩
      rintro ⟨dictionary, hbefore, hwriting⟩
      refine ⟨dictionary, hcurrent hbefore, hwriting.of_sameAt (hsame file (hother hfile ?_ ?_))⟩
      · exact h.mem_entered_of_started hnumber
      · rintro rfl
        exact hnow (h.isSerial.turn_unique hmem hnumber)
  · intro other hfinished file hfile
    rw [Dispatcher.finished, hjournal] at hfinished
    obtain ⟨dictionary, hbefore, hstored⟩ := h.finished other hfinished file hfile
    rw [hindex]
    refine ⟨dictionary, hcurrent hbefore, (hsame file (hother hfile ?_ ?_)).hasStored hstored⟩
    · exact h.mem_entered_of_finished hfinished
    · rintro rfl
      exact h.isSerial.not_mem_finished_of_started hmem hfinished

theorem step (h : dispatcher.IsTakingIn contents handedIn) (hwrites : AreWrites handedIn)
    (hstep : dispatcher.StepsTo contents position after) : after.IsTakingIn contents handedIn := by
  have hserial := h.isSerial.step hstep
  have haccounted := h.isAccountedFor.step hstep
  have hset : ∀ {old new : Task}, dispatcher.tasks[position]? = some old → old.activity? = none →
      new.activity? = none → ∀ task, task.activity?.isSome = true →
        (task ∈ dispatcher.tasks.set position new ↔ task ∈ dispatcher.tasks) := by
    intro old new hold hnone hnew task hsome
    constructor
    · intro hmem
      refine (List.mem_or_eq_of_mem_set hmem).resolve_right ?_
      rintro rfl
      simp [hnew] at hsome
    · intro hmem
      refine mem_set_of_ne hold hmem ?_
      rintro rfl
      simp [hnone] at hsome
  cases hstep with
  | missing => exact h
  | parked hold | entered hold =>
    exact h.of_same hserial haccounted rfl rfl ((finished_record _).trans (List.append_nil _))
      (hset hold rfl rfl)
  | begun hold => exact h.begun hold hserial haccounted
  | @worked task turn hold hactivity hopen =>
    have hmem := List.mem_of_getElem? hold
    cases task with
    | started ticket number =>
      obtain rfl : number = turn := Option.some.inj hactivity
      obtain hsame | ⟨activity, step, isLocked, hactivity, hturn, hafter⟩ :=
        dispatcher.work.exists_isTurn_of_advance contents number
      · refine h.of_same hserial haccounted hsame (List.append_nil _).symm rfl fun _ _ ↦ Iff.rfl
      · exact h.worked hwrites hmem hactivity hturn hafter rfl rfl hserial haccounted
    | direct number => exact absurd hmem (h.not_direct number)
    | _ => cases hactivity
  | finished hold hdone => exact h.finish hold hdone hserial haccounted
  | resumed hold | left hold =>
    exact h.of_same hserial haccounted rfl (List.append_nil _).symm rfl (hset hold rfl rfl)
  | ended hold =>
    refine h.of_same hserial haccounted rfl (List.append_nil _).symm rfl fun task hsome ↦ ?_
    refine ⟨List.mem_of_mem_eraseIdx, fun hmem ↦ mem_eraseIdx_of_ne hold hmem ?_⟩
    rintro rfl
    cases hsome
  | endedDirectly hold => exact absurd (List.mem_of_getElem? hold) (h.not_direct _)

end IsTakingIn

/-- Reading gives certain contents in a move, and nothing is worked off outside of the order of its path. -/
def Move.Reads (contents : Contents) : Move → Prop
  | advance _ read => read = contents
  | applyDirectly _ => False
  | _ => True

namespace IsTakingIn

variable {handedIn : List Change}

theorem idle (index : Index) (contents : Contents) : (idle index).IsTakingIn contents [] :=
  ⟨isSerial_idle index, List.Perm.refl [], fun _ ↦ List.not_mem_nil,
    fun _ _ htask ↦ absurd htask List.not_mem_nil, fun _ hticket ↦ absurd hticket List.not_mem_nil⟩

theorem move {next : Move} (h : dispatcher.IsTakingIn contents handedIn) (hwrites : AreWrites handedIn)
    (hreads : next.Reads contents) (hmove : dispatcher.MovesTo next after) :
    after.IsTakingIn contents (handedIn ++ next.handedIn?.toList) := by
  have hserial := h.isSerial.move hmove
  have haccounted := h.isAccountedFor.move hmove
  cases hmove with
  | advanced hstep =>
    cases hreads
    show after.IsTakingIn contents (handedIn ++ [])
    rw [List.append_nil]
    exact h.step hwrites hstep
  | handedIn change =>
    refine h.of_same hserial haccounted rfl (List.append_nil _).symm rfl fun task hsome ↦ ?_
    refine ⟨fun hmem ↦ (List.mem_append.mp hmem).resolve_right fun hlast ↦ ?_, List.mem_append_left _⟩
    rw [List.mem_singleton.mp hlast] at hsome
    cases hsome
  | startedDirectly change => exact hreads.elim
  | _ => exact h.of_same hserial haccounted rfl (List.append_nil _).symm rfl fun _ _ ↦ Iff.rfl

theorem run {moves : List Move} (h : dispatcher.IsTakingIn contents handedIn)
    (hwrites : AreWrites (handedIn ++ moves.filterMap Move.handedIn?))
    (hreads : ∀ move ∈ moves, move.Reads contents) :
    (dispatcher.run moves).IsTakingIn contents (handedIn ++ moves.filterMap Move.handedIn?) := by
  induction moves generalizing dispatcher handedIn with
  | nil => rwa [List.filterMap_nil, List.append_nil]
  | cons next moves ih =>
    have hsplit : handedIn ++ (next :: moves).filterMap Move.handedIn? =
        handedIn ++ next.handedIn?.toList ++ moves.filterMap Move.handedIn? := by
      rw [List.append_assoc]
      cases next <;> rfl
    rw [List.forall_mem_cons] at hreads
    rw [hsplit] at hwrites ⊢
    have hnow := hwrites.sublist (List.sublist_append_left _ (moves.filterMap Move.handedIn?))
    have hmoved := h.move (hnow.sublist (List.sublist_append_left _ _)) hreads.1 (dispatcher.movesTo_move next)
    exact ih hmoved hwrites hreads.2

/-- When no task is left every file that was handed in has been written. -/
theorem exists_finished {file : Path} (h : dispatcher.IsTakingIn contents handedIn)
    (hwrites : AreWrites handedIn) (hdone : dispatcher.tasks = [])
    (hfile : Change.write file ∈ handedIn) :
    ∃ ticket ∈ dispatcher.finished, ticket.change = .write file := by
  have haccounted := h.isAccountedFor
  rw [IsAccountedFor, hdone, List.filterMap_nil, List.append_nil] at haccounted
  obtain ⟨ticket, hticket, hchange⟩ := List.mem_map.mp (haccounted.symm.subset hfile)
  obtain ⟨last, hfinished, hlast⟩ := h.isSerial.exists_finished hdone hticket
  refine ⟨last, hfinished, ?_⟩
  have hsame : last = ticket := by
    rcases hlast with rfl | ⟨hat, -⟩
    · rfl
    · exact h.isAccountedFor.eq_of_location_eq hwrites (h.mem_entered_of_finished hfinished) hticket
        (Ticket.isAt_iff.mp hat)
  rw [hsame, hchange]

end IsTakingIn

/-! ### The files of a new directory -/

/-- A directory that appears is taken in: the changes that it asks for are handed in, one after another, and
tasks take steps meanwhile and afterwards, while the files are as on the disk. -/
structure TakesIn (coverage : Coverage) (disk : Disk) (directory : Path) (moves : List Move) : Prop where
  handedIn_eq : moves.filterMap Move.handedIn? = (coverage.respond disk (.created directory)).2
  reads : ∀ move ∈ moves, move.Reads disk.contents

end Dispatcher

theorem Disk.areSources_sources (disk : Disk) (kind : SourceKind) (root : Path) :
    Path.AreSources kind (disk.sources kind root) :=
  ⟨PathMap.areInOrder_paths (PathSet.isSpelled_insertAll PathMap.isSpelled_empty _),
    fun _ ↦ Disk.sourceKind_of_mem_sources⟩

namespace Dispatcher

/-- The changes that a new directory asks for write different files. -/
theorem areWrites_arrivals (disk : Disk) (directory : Path) :
    AreWrites (Coverage.arrivals disk directory) := by
  have hconcepts := disk.areSources_sources .concepts directory
  have hspecs := disk.areSources_sources .specification directory
  constructor
  · intro change hchange
    obtain ⟨file, -, rfl⟩ := List.mem_map.mp hchange
    exact ⟨file, rfl⟩
  · show ((List.map _ _).map _).Nodup
    rw [List.map_map, show (fun change : Change ↦ change.path.location) ∘ Change.write = Path.location from rfl,
      List.map_append]
    refine List.Nodup.append hconcepts.inOrder.nodup hspecs.inOrder.nodup ?_
    intro location hfirst hsecond
    obtain ⟨concept, hconcept, rfl⟩ := List.mem_map.mp hfirst
    obtain ⟨spec, hspec, hsame⟩ := List.mem_map.mp hsecond
    have hkind := Path.sourceKind_congr hsame
    rw [hconcepts.sourceKind_eq concept hconcept, hspecs.sourceKind_eq spec hspec] at hkind
    cases hkind

namespace TakesIn

variable {coverage : Coverage} {disk : Disk} {directory : Path} {moves : List Move}
  (h : TakesIn coverage disk directory moves) (hdirectory : disk.isDirectory directory = true)

include h hdirectory

theorem handedIn_eq_arrivals : moves.filterMap Move.handedIn? = Coverage.arrivals disk directory := by
  rw [h.handedIn_eq, Coverage.respond, if_pos hdirectory]

theorem isTakingIn (index : Index) :
    ((Dispatcher.idle index).run moves).IsTakingIn disk.contents (Coverage.arrivals disk directory) := by
  have hwrites := areWrites_arrivals disk directory
  rw [← h.handedIn_eq_arrivals hdirectory] at hwrites ⊢
  exact (IsTakingIn.idle index disk.contents).run hwrites h.reads

/-- When no guard is held any more every source of the directory has been written, and what reading it gives is
in the index. -/
theorem exists_hasStored {index : Index} (hclear : ((Dispatcher.idle index).run moves).pending = 0)
    {kind : SourceKind} (hkind : kind ≠ .other) {file : Path} (hfile : file ∈ disk.sources kind directory) :
    ∃ dictionary, (((Dispatcher.idle index).run moves).FollowsConcepts file →
        dictionary = ((Dispatcher.idle index).run moves).index.dictionary) ∧
      ((Dispatcher.idle index).run moves).index.HasStored disk.contents dictionary file := by
  have htaking := h.isTakingIn hdirectory index
  have hdone : ((Dispatcher.idle index).run moves).tasks = [] := tasks_run_eq_nil hclear
  have harrival : Change.write file ∈ Coverage.arrivals disk directory := by
    refine List.mem_map_of_mem ?_
    cases kind with
    | concepts => exact List.mem_append_left _ hfile
    | specification => exact List.mem_append_right _ hfile
    | other => contradiction
  obtain ⟨ticket, hticket, hchange⟩ :=
    htaking.exists_finished (areWrites_arrivals disk directory) hdone harrival
  obtain ⟨dictionary, hcurrent, hstored⟩ := htaking.finished ticket hticket file hchange
  refine ⟨dictionary, fun hfollows ↦ hcurrent hfollows fun other turn hturn ↦ ?_, hstored⟩
  rw [hdone] at hturn
  exact absurd hturn List.not_mem_nil

end TakesIn

/-- Assumes: an index that can be reached, on which nothing is going on, and a directory that is taken in,
until no guard is held any more. The concepts of every file of the directory that can be parsed are known, the
dictionary is the one of all known concepts, and every specification of the directory that was begun when no
concepts were still to come is stored as it is expanded with this dictionary: at every depth the steps that
have the signature of an admitted concept are those that are expanded. -/
theorem expanded_of_takesIn {index : Index} (hreachable : index.IsReachable) {coverage : Coverage}
    {disk : Disk} {directory : Path} (hdirectory : disk.isDirectory directory = true) {moves : List Move}
    (htakes : TakesIn coverage disk directory moves)
    (hclear : ((Dispatcher.idle index).run moves).pending = 0) :
    let final := (Dispatcher.idle index).run moves
    (∀ file ∈ disk.sources .concepts directory, ∀ concepts, disk.contents.concepts file = .ok concepts →
      final.index.cache.concepts.find? file = some concepts) ∧
    final.index.dictionary = (Dictionary.build final.index.cache.allConcepts).1 ∧
    ∀ file ∈ disk.sources .specification directory, final.FollowsConcepts file →
      ∀ spec, disk.contents.expanded final.index.dictionary file = .ok spec →
        final.index.cache.specification? file = some spec ∧
          ∀ entry ∈ Step.preorderAll 0 spec.steps,
            entry.2.isConcept = final.index.dictionary.contains entry.2.value := by
  intro final
  have hstands := hreachable.stands
  have hconsistent := isConsistent_run hstands.isSound hstands.isSettled moves
  have hsettled : final.index.IsSettled := isSettled_run hstands.isSound hstands.isSettled hclear
  have hread : final.index.cache.ConceptsAreRead := by
    rw [Dispatcher.index, work_run]
    exact ConcurrentIndex.conceptsAreRead_run hreachable.conceptsAreRead _
  refine ⟨fun file hfile concepts hconcepts ↦ ?_, hsettled.dictionary_eq, ?_⟩
  · obtain ⟨dictionary, -, hstored⟩ := htakes.exists_hasStored hdirectory hclear (by decide) hfile
    exact hstored.concepts (Disk.sourceKind_of_mem_sources hfile) concepts hconcepts
  · intro file hfile hfollows spec hspec
    obtain ⟨dictionary, hcurrent, hstored⟩ := htakes.exists_hasStored hdirectory hclear (by decide) hfile
    obtain rfl := hcurrent hfollows
    refine ⟨hstored.specification (Disk.sourceKind_of_mem_sources hfile) spec hspec, ?_⟩
    rw [hsettled.dictionary_eq] at hspec ⊢
    obtain ⟨sources, htrees⟩ := Contents.exists_areExpanded
      (fun concept hconcept ↦ (hread.of_mem hconsistent.isSound.concepts.isSpelled hconcept).1) hspec
    exact htrees.isConcept_eq_contains 0

/-- A directory with a concept file and a specification that invokes the concept. -/
def loginDisk : Disk :=
  ⟨((((∅ : Std.ExtTreeMap Place DiskEntry).insert ["w"] .directory).insert ["w", "new"] .directory).insert
    ["w", "new", "login.cpt"] (.text "# Log in\n* Type\n")).insert ["w", "new", "pay.spec"]
    (.text "# Pay\n* Log in\n"), []⟩

/-- The concept file and then the specification are handed in, and the tasks at some positions take their next
steps after each. -/
def loginMoves (afterConcepts afterSpecification : List Nat) : List Move :=
  let advances (positions : List Nat) : List Move :=
    positions.map fun position ↦ .advance position loginDisk.contents
  .handIn (.write ⟨"/w/new/login.cpt"⟩) :: advances afterConcepts ++
    .handIn (.write ⟨"/w/new/pay.spec"⟩) :: advances afterSpecification

theorem loginMoves_reads (afterConcepts afterSpecification : List Nat) :
    ∀ move ∈ loginMoves afterConcepts afterSpecification, move.Reads loginDisk.contents := by
  intro move hmove
  simp only [loginMoves, List.cons_append, List.mem_cons, List.mem_append, List.mem_map] at hmove
  rcases hmove with rfl | ⟨position, -, rfl⟩ | rfl | ⟨position, -, rfl⟩
  · trivial
  · rfl
  · trivial
  · rfl

theorem exists_ok_of_map_toOption {ε α β : Type} {result : Except ε α} {view : α → β} {seen : β}
    (h : result.toOption.map view = some seen) : ∃ value, result = .ok value ∧ view value = seen := by
  obtain ⟨value, hvalue, hview⟩ := Option.map_eq_some_iff.mp h
  exact ⟨value, toOption_eq_some_iff.mp hvalue, hview⟩

/-- The change of the concept file is finished before the specification is begun. -/
theorem expanded_of_takesIn_login :
    let final := (Dispatcher.idle (.new [⟨"/w"⟩])).run
      (loginMoves (List.replicate 12 0) (1 :: List.replicate 9 0))
    final.pending = 0 ∧ final.FollowsConcepts ⟨"/w/new/pay.spec"⟩ ∧
      ∃ spec, loginDisk.contents.expanded final.index.dictionary ⟨"/w/new/pay.spec"⟩ = .ok spec ∧
        spec.steps.map Step.isConcept = [true] ∧
          final.index.cache.specification? ⟨"/w/new/pay.spec"⟩ = some spec := by
  intro final
  have hclear : final.pending = 0 := by decide +kernel
  have hfollows : final.FollowsConcepts ⟨"/w/new/pay.spec"⟩ := by decide +kernel
  have htakes : TakesIn .empty loginDisk ⟨"/w/new"⟩
      (loginMoves (List.replicate 12 0) (1 :: List.replicate 9 0)) :=
    ⟨by decide +kernel, loginMoves_reads _ _⟩
  have hmarked : (loginDisk.contents.expanded final.index.dictionary ⟨"/w/new/pay.spec"⟩).toOption.map
      (fun spec ↦ spec.steps.map Step.isConcept) = some [true] := by decide +kernel
  obtain ⟨spec, hspec, hmarks⟩ := exists_ok_of_map_toOption hmarked
  obtain ⟨-, -, hstored⟩ := expanded_of_takesIn (.start (.new [⟨"/w"⟩])) (by decide +kernel) htakes hclear
  exact ⟨hclear, hfollows, spec, hspec, hmarks,
    (hstored ⟨"/w/new/pay.spec"⟩ (by decide +kernel) hfollows spec hspec).1⟩

/-- The order of the tasks matters. Here the specification is worked off while the concept file waits, and
stays as it is expanded without the concept. -/
theorem exists_unexpanded_arrival :
    let moves := loginMoves [0] (List.replicate 8 1 ++ List.replicate 13 0)
    let final := (Dispatcher.idle (.new [⟨"/w"⟩])).run moves
    loginDisk.isDirectory ⟨"/w/new"⟩ = true ∧ TakesIn .empty loginDisk ⟨"/w/new"⟩ moves ∧
      final.pending = 0 ∧
      (∀ file ∈ loginDisk.sources .concepts ⟨"/w/new"⟩,
        ∃ concepts, loginDisk.contents.concepts file = .ok concepts) ∧
      (∀ file ∈ loginDisk.sources .specification ⟨"/w/new"⟩,
        ∃ spec, loginDisk.contents.expanded final.index.dictionary file = .ok spec) ∧
      ¬ ∀ file ∈ loginDisk.sources .specification ⟨"/w/new"⟩,
        ∀ spec, loginDisk.contents.expanded final.index.dictionary file = .ok spec →
          final.index.cache.specification? file = some spec := by
  intro moves final
  have hmarked : (loginDisk.contents.expanded final.index.dictionary ⟨"/w/new/pay.spec"⟩).toOption.map
      (fun spec ↦ spec.steps.map Step.isConcept) = some [true] := by decide +kernel
  obtain ⟨spec, hspec, hmarks⟩ := exists_ok_of_map_toOption hmarked
  have hspecs : loginDisk.sources .specification ⟨"/w/new"⟩ = [⟨"/w/new/pay.spec"⟩] := by decide +kernel
  have hconcepts : loginDisk.sources .concepts ⟨"/w/new"⟩ = [⟨"/w/new/login.cpt"⟩] := by decide +kernel
  have hstored : (final.index.cache.specification? ⟨"/w/new/pay.spec"⟩).map
      (fun spec ↦ spec.steps.map Step.isConcept) = some [false] := by decide +kernel
  refine ⟨by decide +kernel, ⟨by decide +kernel, loginMoves_reads _ _⟩, by decide +kernel, ?_, ?_, ?_⟩
  · have hparsed : (loginDisk.contents.concepts ⟨"/w/new/login.cpt"⟩).toOption.map List.length = some 1 := by
      decide +kernel
    obtain ⟨concepts, hread, -⟩ := exists_ok_of_map_toOption hparsed
    rw [hconcepts, List.forall_mem_singleton]
    exact ⟨concepts, hread⟩
  · rw [hspecs, List.forall_mem_singleton]
    exact ⟨spec, hspec⟩
  · rw [hspecs, List.forall_mem_singleton]
    intro hexpanded
    rw [hexpanded spec hspec, Option.map_some, hmarks] at hstored
    cases hstored

end Dispatcher

end LiveSpec
