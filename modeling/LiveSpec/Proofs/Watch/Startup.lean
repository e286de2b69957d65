import LiveSpec.Watch.Startup
import Mathlib.Data.List.Basic

/-!
# Reports that come in during the build

A service that is being started holds back what is reported to it until its index is built
(`Startup.holdsBack_run`). While something of the build is left, no report has been taken from the queue, no
change has been handed in, and the index is what the steps of the build so far have made of an empty one.
Reports are responded to in the order in which they came in and each once, so the changes that they ask for
are handed in in this order too. None is left behind: once the starting thread is done, the event loop needs
one step to notice and one more for each report in the queue.

The starting thread takes its guard before there is an event loop, and gives it back after the last step of
the build. Nothing else happens to the barrier before the event loop serves, so the stages of a start-up can
be listed (`Startup.IsStarting`), and every move leads from one of them to itself or to the next
(`Startup.IsStarting.move`). The event loop passes the barrier only when the guard has been given back.
-/

set_option autoImplicit false

namespace LiveSpec

/-! ### Responses -/

namespace Dispatcher

/-- An index that nothing is working on, with a guard held. -/
def guarded (index : Index) : Dispatcher := (idle index).move .takeGuard

/-- An idle index to which some changes have been handed in, one after another, while tasks took steps. -/
inductive HasTaken (first : Index) : List Change → Dispatcher → Prop
  | idle : HasTaken first [] (.idle first)
  | handIn {dispatcher : Dispatcher} {changes : List Change} (h : HasTaken first changes dispatcher)
      (change : Change) : HasTaken first (changes ++ [change]) (dispatcher.handIn change)
  | advance {dispatcher : Dispatcher} {changes : List Change} (h : HasTaken first changes dispatcher)
      (contents : Contents) (position : Nat) : HasTaken first changes (dispatcher.advance contents position)

variable {first : Index} {dispatcher : Dispatcher} {changes : List Change}

theorem HasTaken.handInEach (h : HasTaken first changes dispatcher) (more : List Change) :
    HasTaken first (changes ++ more) (more.foldl Dispatcher.handIn dispatcher) := by
  induction more generalizing dispatcher changes with
  | nil => exact (List.append_nil changes).symm ▸ h
  | cons change rest ih =>
    rw [List.append_cons]
    exact ih (h.handIn change)

theorem HasTaken.eq_idle (h : HasTaken first changes dispatcher) (hnone : changes = []) :
    dispatcher = .idle first := by
  induction h with
  | idle => rfl
  | handIn h change => exact absurd hnone (List.append_ne_nil_of_right_ne_nil _ (List.cons_ne_nil _ _))
  | advance h contents position ih =>
    rw [ih hnone]
    rfl

end Dispatcher

namespace Coverage

/-- What is watched after one more event, and the changes that have been asked for. -/
def answer (disk : Disk) (answered : Coverage × List Change) (event : FileEvent) :
    Coverage × List Change :=
  let (coverage, changes) := answered.1.respond disk event
  (coverage, answered.2 ++ changes)

/-- What is watched after the responses to some reports, each with the files as they were then, and the
changes that have been asked for. -/
def answerAll (coverage : Coverage) (responses : List (RawEvent × Disk)) : Coverage × List Change :=
  responses.foldl (fun answered (report, disk) ↦
    (FileEvent.ofRaw disk.isPresent report).foldl (answer disk) answered) (coverage, [])

end Coverage

namespace Startup

variable {first : Index} {plan : BuildPlan} {coverage : Coverage} {disks : List Disk}
  {reports : List RawEvent} {state : Startup}

/-! ### Moves -/

/-- The report that a move brings in. -/
def Move.report? : Move → Option RawEvent
  | .deliver report => some report
  | _ => none

/-- The files as they are at a move, if it is a step of the event loop. -/
def Move.disk? : Move → Option Disk
  | .serve disk => some disk
  | _ => none

/-- The files as they are at the steps of the event loop, in order. -/
def served (moves : List Move) : List Disk := moves.filterMap Move.disk?

theorem delivered_cons (next : Move) (rest : List Move) :
    delivered (next :: rest) = next.report?.toList ++ delivered rest := by
  cases next <;> rfl

theorem served_cons (next : Move) (rest : List Move) :
    served (next :: rest) = next.disk?.toList ++ served rest := by
  cases next <;> rfl

/-- The response to events concerns the watches, the index and the work on it. -/
theorem exists_foldl_respond (disk : Disk) (events : List FileEvent) (state : Startup) :
    ∃ coverage dispatcher, events.foldl (respond disk) state = { state with coverage, dispatcher } := by
  induction events generalizing state with
  | nil => exact ⟨state.coverage, state.dispatcher, rfl⟩
  | cons event rest ih =>
    obtain ⟨coverage, dispatcher, hrest⟩ := ih (respond disk state event)
    exact ⟨coverage, dispatcher, hrest⟩

/-- The watches are those of an answer, and its changes have been handed in. -/
def Reflects (state : Startup) (built : Index) (answered : Coverage × List Change) : Prop :=
  state.coverage = answered.1 ∧ state.dispatcher.HasTaken built answered.2

theorem Reflects.foldl_respond {built : Index} {answered : Coverage × List Change}
    (h : state.Reflects built answered) (disk : Disk) (events : List FileEvent) :
    (events.foldl (respond disk) state).Reflects built (events.foldl (Coverage.answer disk) answered) := by
  induction events generalizing state answered with
  | nil => exact h
  | cons event rest ih =>
    obtain ⟨hcoverage, htaken⟩ := h
    refine ih ⟨?_, ?_⟩
    · exact congrArg (fun coverage ↦ (coverage.respond disk event).1) hcoverage
    · show (List.foldl Dispatcher.handIn _ (state.coverage.respond disk event).2).HasTaken built _
      rw [hcoverage]
      exact htaken.handInEach _

/-- The event loop has responded to the reports that it has taken, each with the files as they were at one of
its steps: the watches and the changes that have been handed in are what this comes to. -/
def IsAnswered (built : Index) (coverage : Coverage) (disks : List Disk) (state : Startup) : Prop :=
  ∃ used, used.Sublist disks ∧ used.length = state.handled.length ∧
    state.Reflects built (coverage.answerAll (state.handled.zip used))

namespace IsAnswered

variable {built : Index}

theorem later (h : state.IsAnswered built coverage disks) (more : List Disk) :
    state.IsAnswered built coverage (disks ++ more) := by
  obtain ⟨used, hused, hreflects⟩ := h
  exact ⟨used, hused.trans (List.sublist_append_left disks more), hreflects⟩

/-- A report is taken from the queue of a service that serves. -/
theorem exists_serve {dispatcher : Dispatcher} {watches : Coverage} {report : RawEvent}
    {queue handled : List RawEvent}
    (h : IsAnswered built coverage disks ⟨dispatcher, watches, [], .serving, report :: queue, handled⟩)
    (disk : Disk) :
    ∃ dispatcher' watches',
      serve ⟨dispatcher, watches, [], .serving, report :: queue, handled⟩ disk =
          ⟨dispatcher', watches', [], .serving, queue, handled ++ [report]⟩ ∧
        IsAnswered built coverage (disks ++ [disk])
          ⟨dispatcher', watches', [], .serving, queue, handled ++ [report]⟩ := by
  obtain ⟨used, hused, hlength, hreflects⟩ := h
  have htaken : Reflects ⟨dispatcher, watches, [], .serving, queue, handled ++ [report]⟩ built
      (coverage.answerAll (handled.zip used)) := hreflects
  have hanswered := htaken.foldl_respond disk (FileEvent.ofRaw disk.isPresent report)
  obtain ⟨watches', dispatcher', hevents⟩ := exists_foldl_respond disk
    (FileEvent.ofRaw disk.isPresent report) ⟨dispatcher, watches, [], .serving, queue, handled ++ [report]⟩
  rw [hevents] at hanswered
  refine ⟨dispatcher', watches', hevents, used ++ [disk], hused.append_right [disk], ?_, ?_⟩
  · simpa using hlength
  · show Reflects _ built (coverage.answerAll ((handled ++ [report]).zip (used ++ [disk])))
    rw [List.zip_append hlength.symm, Coverage.answerAll, List.foldl_append]
    exact hanswered

end IsAnswered

/-! ### Stages -/

/-- How far a start-up is, when some reports have come in and the files were as on some disks at the steps of
the event loop. -/
inductive IsStarting (first : Index) (plan : BuildPlan) (coverage : Coverage) (disks : List Disk)
    (reports : List RawEvent) : Startup → Prop
  | begun : IsStarting first plan coverage disks reports
    ⟨.idle first, coverage, plan.startSteps, .absent, reports, []⟩
  | guarded : IsStarting first plan coverage disks reports
    ⟨.guarded first, coverage, .startLoop :: (plan.steps.map .perform ++ [.giveGuardBack]), .absent,
      reports, []⟩
  | building {done rest : List BuildStep} (hsteps : plan.steps = done ++ rest) :
    IsStarting first plan coverage disks reports
      ⟨.guarded (done.foldl Index.perform first), coverage, rest.map .perform ++ [.giveGuardBack], .waiting,
        reports, []⟩
  | built : IsStarting first plan coverage disks reports
    ⟨.idle (plan.steps.foldl Index.perform first), coverage, [], .waiting, reports, []⟩
  | serving {dispatcher : Dispatcher} {watches : Coverage} {queue handled : List RawEvent}
    (h : IsAnswered (plan.steps.foldl Index.perform first) coverage disks
      ⟨dispatcher, watches, [], .serving, queue, handled⟩)
    (hreports : reports = handled ++ queue) :
    IsStarting first plan coverage disks reports ⟨dispatcher, watches, [], .serving, queue, handled⟩

theorem isStarting_new (directories : List Path) (coverage : Coverage) (plan : BuildPlan) :
    IsStarting (.new directories) plan coverage [] [] (new directories coverage plan) := .begun

/-- No report has been responded to and no change has been handed in yet. -/
structure IsUntouched (state : Startup) (index : Index) : Prop where
  handled_eq : state.handled = []
  tasks_eq : state.dispatcher.tasks = []
  journal_eq : state.dispatcher.journal = []
  index_eq : state.dispatcher.index = index

namespace IsStarting

/-- A step of the starting thread. -/
theorem proceed (h : state.IsStarting first plan coverage disks reports) :
    (state.move .proceed).IsStarting first plan coverage disks reports := by
  cases h with
  | begun => exact .guarded
  | guarded => exact .building (List.nil_append plan.steps).symm
  | @building done rest hsteps =>
    cases rest with
    | nil =>
      rw [List.append_nil] at hsteps
      exact hsteps ▸ IsStarting.built
    | cons step rest =>
      rw [List.append_cons] at hsteps
      have hnext : IsStarting first plan coverage disks reports
          ⟨.guarded ((done ++ [step]).foldl Index.perform first), coverage,
            rest.map .perform ++ [.giveGuardBack], .waiting, reports, []⟩ := .building hsteps
      rwa [List.foldl_append] at hnext
  | built => exact .built
  | serving h hreports => exact .serving h hreports

/-- A report comes in. -/
theorem deliver (h : state.IsStarting first plan coverage disks reports) (report : RawEvent) :
    (state.move (.deliver report)).IsStarting first plan coverage disks (reports ++ [report]) := by
  cases h with
  | begun => exact .begun
  | guarded => exact .guarded
  | building hsteps => exact .building hsteps
  | built => exact .built
  | serving h hreports => exact .serving h (hreports ▸ List.append_assoc _ _ _)

/-- A step of the event loop. It passes the barrier after the build only. -/
theorem serve (h : state.IsStarting first plan coverage disks reports) (disk : Disk) :
    (state.serve disk).IsStarting first plan coverage (disks ++ [disk]) reports := by
  cases h with
  | begun => exact .begun
  | guarded => exact .guarded
  | building hsteps => exact .building hsteps
  | built => exact .serving ⟨[], List.nil_sublist _, rfl, rfl, .idle⟩ rfl
  | @serving dispatcher watches queue handled h hreports =>
    cases queue with
    | nil => exact .serving (h.later [disk]) hreports
    | cons report later =>
      obtain ⟨dispatcher', watches', hserve, hanswered⟩ := h.exists_serve disk
      rw [hserve]
      exact .serving hanswered (hreports.trans (List.append_cons ..))

/-- A step of a task. There is no task until the event loop has responded to a report. -/
theorem advance (h : state.IsStarting first plan coverage disks reports) (position : Nat)
    (contents : Contents) :
    (state.move (.advance position contents)).IsStarting first plan coverage disks reports := by
  cases h with
  | begun => exact .begun
  | guarded => exact .guarded
  | building hsteps => exact .building hsteps
  | built => exact .built
  | serving h hreports =>
    obtain ⟨used, hused, hlength, hcoverage, htaken⟩ := h
    exact .serving ⟨used, hused, hlength, hcoverage, htaken.advance contents position⟩ hreports

/-- Whatever the environment does, a start-up stays at its stage or comes to the next one. -/
theorem move (h : state.IsStarting first plan coverage disks reports) (next : Move) :
    (state.move next).IsStarting first plan coverage (disks ++ next.disk?.toList)
      (reports ++ next.report?.toList) := by
  cases next with
  | proceed => simpa [Move.disk?, Move.report?] using h.proceed
  | deliver report => simpa [Move.disk?, Move.report?] using h.deliver report
  | serve disk => simpa [Move.disk?, Move.report?, Startup.move] using h.serve disk
  | advance position contents => simpa [Move.disk?, Move.report?] using h.advance position contents

theorem run (h : state.IsStarting first plan coverage disks reports) (moves : List Move) :
    (state.run moves).IsStarting first plan coverage (disks ++ served moves)
      (reports ++ delivered moves) := by
  induction moves generalizing state disks reports with
  | nil => rwa [served, delivered, List.filterMap_nil, List.filterMap_nil, List.append_nil, List.append_nil]
  | cons next rest ih =>
    rw [served_cons, delivered_cons, ← List.append_assoc, ← List.append_assoc]
    exact ih (h.move next)

/-- While something of the build is left only the build works on the index. -/
theorem quiet (h : state.IsStarting first plan coverage disks reports) (hbuilding : state.IsBuilding) :
    ∃ done rest, plan.steps = done ++ rest ∧
      (∀ step, StartStep.perform step ∈ state.remaining ↔ step ∈ rest) ∧
      state.IsUntouched (done.foldl Index.perform first) := by
  obtain ⟨step, hstep⟩ := hbuilding
  cases h with
  | begun => exact ⟨[], plan.steps, rfl, by simp [BuildPlan.startSteps], rfl, rfl, rfl, rfl⟩
  | guarded => exact ⟨[], plan.steps, rfl, by simp, rfl, rfl, rfl, rfl⟩
  | building hsteps => exact ⟨_, _, hsteps, by simp, rfl, rfl, rfl, rfl⟩
  | built => simp at hstep
  | serving h hreports => simp at hstep

/-- Between the build and the first response the index is the one that the build has made. -/
theorem untouched (h : state.IsStarting first plan coverage disks reports)
    (hbuilding : ¬ state.IsBuilding) (hhandled : state.handled = []) :
    state.IsUntouched (plan.steps.foldl Index.perform first) := by
  have hclear : BuildStep.forgetAll ∈ plan.steps := by simp [BuildPlan.steps]
  cases h with
  | begun => exact absurd ⟨.forgetAll, by simpa [BuildPlan.startSteps] using hclear⟩ hbuilding
  | guarded => exact absurd ⟨.forgetAll, by simpa using hclear⟩ hbuilding
  | @building done rest hsteps =>
    cases rest with
    | nil =>
      rw [List.append_nil] at hsteps
      exact ⟨rfl, rfl, rfl, hsteps ▸ rfl⟩
    | cons step rest => exact absurd ⟨step, by simp⟩ hbuilding
  | built => exact ⟨rfl, rfl, rfl, rfl⟩
  | serving h hreports =>
    obtain ⟨used, -, -, -, htaken⟩ := h
    obtain rfl := htaken.eq_idle (by rw [hhandled]; rfl)
    exact ⟨hhandled, rfl, rfl, rfl⟩

/-- Reports are conserved. -/
theorem reports_eq (h : state.IsStarting first plan coverage disks reports) :
    reports = state.handled ++ state.queue := by
  cases h with
  | serving h hreports => exact hreports
  | _ => rfl

/-- What has been responded to is reflected by the watches and by the changes that have been handed in. -/
theorem isAnswered (h : state.IsStarting first plan coverage disks reports)
    (hremaining : state.remaining = []) :
    state.IsAnswered (plan.steps.foldl Index.perform first) coverage disks := by
  cases h with
  | begun => exact absurd hremaining (List.cons_ne_nil _ _)
  | guarded => exact absurd hremaining (List.cons_ne_nil _ _)
  | building hsteps => simp at hremaining
  | built => exact ⟨[], List.nil_sublist _, rfl, rfl, .idle⟩
  | serving h hreports => exact h

end IsStarting

/-! ### Progress of the event loop -/

/-- How many steps the event loop needs until it has responded to a number of reports. -/
def owed (target : Nat) (state : Startup) : Nat :=
  (if state.loop = .serving then 0 else 1) + (target - state.handled.length)

namespace IsStarting

/-- Once the starting thread is done it stays so, and every step of the event loop settles one that is
owed. -/
theorem owed_serve (h : state.IsStarting first plan coverage disks reports)
    (hremaining : state.remaining = []) {target : Nat} (htarget : target ≤ reports.length) (disk : Disk) :
    (state.serve disk).remaining = [] ∧ owed target (state.serve disk) = owed target state - 1 := by
  cases h with
  | begun => exact absurd hremaining (List.cons_ne_nil _ _)
  | guarded => exact absurd hremaining (List.cons_ne_nil _ _)
  | building hsteps => simp at hremaining
  | built =>
    refine ⟨rfl, ?_⟩
    show 0 + target = 1 + target - 1
    omega
  | @serving dispatcher watches queue handled h hreports =>
    cases queue with
    | nil => simp_all [owed, Startup.serve]
    | cons report later =>
      obtain ⟨dispatcher', watches', hserve, -⟩ := h.exists_serve disk
      rw [hserve]
      simp [owed, Nat.sub_sub]

/-- No other move adds to what is owed. -/
theorem owed_move (h : state.IsStarting first plan coverage disks reports)
    (hremaining : state.remaining = []) {target : Nat} (htarget : target ≤ reports.length) (next : Move) :
    (state.move next).remaining = [] ∧
      owed target (state.move next) = owed target state - next.disk?.toList.length := by
  cases next with
  | proceed => simp [Startup.move, hremaining, Move.disk?]
  | deliver report => exact ⟨hremaining, rfl⟩
  | serve disk => exact h.owed_serve hremaining htarget disk
  | advance position contents => exact ⟨hremaining, rfl⟩

theorem owed_run (h : state.IsStarting first plan coverage disks reports)
    (hremaining : state.remaining = []) {target : Nat} (htarget : target ≤ reports.length)
    (later : List Move) : owed target (state.run later) = owed target state - (served later).length := by
  induction later generalizing state disks reports with
  | nil => rfl
  | cons next rest ih =>
    obtain ⟨hstays, howed⟩ := h.owed_move hremaining htarget next
    have hreports : target ≤ (reports ++ next.report?.toList).length := by
      rw [List.length_append]
      omega
    have hrest := ih (h.move next) hstays hreports
    rwa [howed, Nat.sub_sub, ← List.length_append, ← served_cons] at hrest

/-- Everything that has come in is responded to once the event loop has taken enough steps, whatever happens
besides. -/
theorem isPrefix_handled_run (h : state.IsStarting first plan coverage disks reports)
    (hremaining : state.remaining = []) (later : List Move)
    (hserved : state.queue.length < (served later).length) : reports <+: (state.run later).handled := by
  have hlength : reports.length = state.handled.length + state.queue.length := by
    rw [h.reports_eq, List.length_append]
  have howed := h.owed_run hremaining (Nat.le_refl reports.length) later
  have hnone : owed reports.length (state.run later) = 0 := by
    have : owed reports.length state ≤ 1 + state.queue.length := by
      unfold owed
      split_ifs <;> omega
    omega
  refine List.prefix_of_prefix_length_le (List.prefix_append reports (delivered later)) ?_ ?_
  · exact (h.run later).reports_eq ▸ List.prefix_append _ _
  · exact Nat.sub_eq_zero_iff_le.mp (Nat.add_eq_zero_iff.mp hnone).2

end IsStarting

/-! ### The whole of it -/

/-- A start-up holds back what is reported to it until the index is built. -/
structure HoldsBack (first : Index) (plan : BuildPlan) (coverage : Coverage) (moves : List Move)
    (state : Startup) : Prop where
  /-- During the build no report is taken and no change is handed in: only the build works on the index. -/
  quiet : state.IsBuilding → ∃ done rest, plan.steps = done ++ rest ∧
    (∀ step, StartStep.perform step ∈ state.remaining ↔ step ∈ rest) ∧
    state.IsUntouched (done.foldl Index.perform first)
  /-- The first response finds the index as the build has left it. -/
  untouched : ¬ state.IsBuilding → state.handled = [] →
    state.IsUntouched (plan.steps.foldl Index.perform first)
  /-- What has been responded to is what came in first, in order and each report once. -/
  in_order : delivered moves = state.handled ++ state.queue
  /-- The watches and the changes that are handed in after the build are what these responses come to. -/
  answered : state.remaining = [] →
    state.IsAnswered (plan.steps.foldl Index.perform first) coverage (served moves)
  /-- What has come in is responded to, whatever happens besides. -/
  handled_later : state.remaining = [] → ∀ later : List Move,
    state.queue.length < (served later).length → delivered moves <+: (state.run later).handled

/-- However the steps of the starting thread, of the event loop and of the tasks fall among one another and
whenever reports come in, a start-up holds the reports back until the index is built. -/
theorem holdsBack_run (directories : List Path) (coverage : Coverage) (plan : BuildPlan)
    (moves : List Move) :
    HoldsBack (.new directories) plan coverage moves ((new directories coverage plan).run moves) := by
  have h := (isStarting_new directories coverage plan).run moves
  exact ⟨h.quiet, h.untouched, h.reports_eq, h.isAnswered, h.isPrefix_handled_run⟩

end Startup

end LiveSpec
