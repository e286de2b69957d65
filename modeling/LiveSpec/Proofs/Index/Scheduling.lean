import LiveSpec.Index.Dispatch
import LiveSpec.Proofs.Index.Turns

/-!
# What a dispatcher does to the index

A dispatcher decides which changes come in and whose turn it is. All that it does to the index are moves of a
`ConcurrentIndex`: a change comes in when a task begins it, and the steps of a task that is working off a change
are those of its activity. So the work of a dispatcher is a run of the index (`Dispatcher.work_run`), by moves
that can be read off (`Dispatcher.workMoves`), and the changes that come in with them are those that were begun
(`Dispatcher.arrived_workMoves`). Whatever holds after every run of an index holds of the work of a dispatcher
too, such as `ConcurrentIndex.IsConsistent` (`Dispatcher.isConsistent_run`).

In the other direction an activity that has not finished is that of some task (`Dispatcher.IsCarried`), so no
change is in progress when no task is left (`Dispatcher.IsCarried.isQuiet`). The change that a task works off is
the one that has come in with its activity (`Dispatcher.worksOff_run`).

What a step of a task can do is said once (`Dispatcher.StepsTo`), and so is what a move can do
(`Dispatcher.MovesTo`). The invariants of a dispatcher are case analyses of these two.
-/

set_option autoImplicit false

namespace LiveSpec

/-! ### What happened to the tickets -/

namespace DispatchEvent

/-- The ticket that was entered, if that is what happened. -/
def entered? : DispatchEvent → Option Ticket
  | entered ticket => some ticket
  | _ => none

/-- The ticket that was begun, if that is what happened. -/
def begun? : DispatchEvent → Option Ticket
  | begun ticket => some ticket
  | _ => none

/-- The ticket that was finished, if that is what happened. -/
def finished? : DispatchEvent → Option Ticket
  | finished ticket => some ticket
  | _ => none

end DispatchEvent

namespace Task

/-- The ticket that a task has in hand. -/
def ticket? : Task → Option Ticket
  | queued ticket => some ticket
  | started ticket _ => some ticket
  | applied ticket => some ticket
  | _ => none

/-- The change that a task will enter, if it has not entered it yet. -/
def arriving? : Task → Option Change
  | arriving change => some change
  | _ => none

/-- The position of the activity that is working off the change of a task. -/
def activity? : Task → Option Nat
  | started _ activity => some activity
  | direct activity => some activity
  | _ => none

end Task

namespace Dispatcher

variable {dispatcher after : Dispatcher} {contents : Contents} {position activity : Nat}

/-- The tickets in the order in which they were entered. -/
def entered (dispatcher : Dispatcher) : List Ticket :=
  dispatcher.journal.filterMap DispatchEvent.entered?

/-- The tickets in the order in which they were begun. -/
def begun (dispatcher : Dispatcher) : List Ticket :=
  dispatcher.journal.filterMap DispatchEvent.begun?

/-- The tickets in the order in which they were finished. -/
def finished (dispatcher : Dispatcher) : List Ticket :=
  dispatcher.journal.filterMap DispatchEvent.finished?

theorem entered_record (event : DispatchEvent) :
    (dispatcher.record event).entered = dispatcher.entered ++ event.entered?.toList := by
  unfold entered record
  rw [List.filterMap_append]
  cases event <;> rfl

theorem begun_record (event : DispatchEvent) :
    (dispatcher.record event).begun = dispatcher.begun ++ event.begun?.toList := by
  unfold begun record
  rw [List.filterMap_append]
  cases event <;> rfl

theorem finished_record (event : DispatchEvent) :
    (dispatcher.record event).finished = dispatcher.finished ++ event.finished?.toList := by
  unfold finished record
  rw [List.filterMap_append]
  cases event <;> rfl

/-! ### What steps and moves can do -/

/-- Enters a change, with what is then parked at its path and the next step of its task. -/
def enterAs (dispatcher : Dispatcher) (position : Nat) (change : Change) (parked : Option Ticket)
    (task : Task) : Dispatcher :=
  ({ dispatcher with
    inFlight := dispatcher.inFlight.set change.path parked
    tickets := dispatcher.tickets + 1 }.setTask position task).record
      (.entered ⟨dispatcher.tickets, change⟩)

/-- What a step of the task at a position does. -/
inductive StepsTo (dispatcher : Dispatcher) (contents : Contents) (position : Nat) : Dispatcher → Prop
  /-- There is no such task. -/
  | missing (hnone : dispatcher.tasks[position]? = none) : StepsTo dispatcher contents position dispatcher
  /-- A change is parked at its path, which is in flight. -/
  | parked {change : Change} (hold : dispatcher.tasks[position]? = some (.arriving change))
    (hinFlight : dispatcher.inFlight.contains change.path = true) :
    StepsTo dispatcher contents position
      (dispatcher.enterAs position change (some ⟨dispatcher.tickets, change⟩) .leaving)
  /-- The path of a change is in flight from now on. -/
  | entered {change : Change} (hold : dispatcher.tasks[position]? = some (.arriving change))
    (hfree : dispatcher.inFlight.contains change.path = false) :
    StepsTo dispatcher contents position
      (dispatcher.enterAs position change none (.queued ⟨dispatcher.tickets, change⟩))
  | begun {ticket : Ticket} (hold : dispatcher.tasks[position]? = some (.queued ticket)) :
    StepsTo dispatcher contents position (dispatcher.start position ticket)
  /-- The activity of the task takes a step. -/
  | worked {task : Task} {activity : Nat} (hold : dispatcher.tasks[position]? = some task)
    (hactivity : task.activity? = some activity) (hopen : dispatcher.hasFinished activity = false) :
    StepsTo dispatcher contents position (dispatcher.workOn contents activity)
  | finished {ticket : Ticket} {activity : Nat}
    (hold : dispatcher.tasks[position]? = some (.started ticket activity))
    (hdone : dispatcher.hasFinished activity = true) :
    StepsTo dispatcher contents position (dispatcher.finish position ticket)
  /-- The task goes on with a change that was parked. -/
  | resumed {ticket next : Ticket} (hold : dispatcher.tasks[position]? = some (.applied ticket))
    (hparked : dispatcher.inFlight.find? ticket.change.path = some (some next)) :
    StepsTo dispatcher contents position
      ({ dispatcher with inFlight := dispatcher.inFlight.set ticket.change.path none }.setTask position
        (.queued next))
  /-- Nothing is parked, and the path is no longer in flight. -/
  | left {ticket : Ticket} (hold : dispatcher.tasks[position]? = some (.applied ticket))
    (hnone : ∀ next, dispatcher.inFlight.find? ticket.change.path ≠ some (some next)) :
    StepsTo dispatcher contents position
      ({ dispatcher with inFlight := dispatcher.inFlight.erase ticket.change.path }.setTask position
        .leaving)
  | ended (hold : dispatcher.tasks[position]? = some .leaving) :
    StepsTo dispatcher contents position (dispatcher.endTask position)
  | endedDirectly {activity : Nat} (hold : dispatcher.tasks[position]? = some (.direct activity))
    (hdone : dispatcher.hasFinished activity = true) :
    StepsTo dispatcher contents position (dispatcher.endTask position)

theorem stepsTo_advance (dispatcher : Dispatcher) (contents : Contents) (position : Nat) :
    dispatcher.StepsTo contents position (dispatcher.advance contents position) := by
  unfold advance
  cases hold : dispatcher.tasks[position]? with
  | none => exact .missing hold
  | some task =>
    cases task with
    | arriving change =>
      cases hinFlight : dispatcher.inFlight.contains change.path with
      | true =>
        simp only [enter, hinFlight, if_true]
        exact .parked hold hinFlight
      | false =>
        simp only [enter, hinFlight, Bool.false_eq_true, if_false]
        exact .entered hold hinFlight
    | queued ticket => exact .begun hold
    | started ticket activity =>
      cases hfinished : dispatcher.hasFinished activity with
      | true =>
        simp only [hfinished, if_true]
        exact .finished hold hfinished
      | false =>
        simp only [hfinished, Bool.false_eq_true, if_false]
        exact .worked hold rfl hfinished
    | applied ticket =>
      simp only [proceed]
      split
      · rename_i next hparked
        exact .resumed hold hparked
      · rename_i hnone
        exact .left hold fun next hparked ↦ hnone next hparked
    | leaving => exact .ended hold
    | direct activity =>
      cases hfinished : dispatcher.hasFinished activity with
      | true =>
        simp only [hfinished, if_true]
        exact .endedDirectly hold hfinished
      | false =>
        simp only [hfinished, Bool.false_eq_true, if_false]
        exact .worked hold rfl hfinished

/-- What a move does. -/
inductive MovesTo (dispatcher : Dispatcher) : Move → Dispatcher → Prop
  | handedIn (change : Change) : MovesTo dispatcher (.handIn change) (dispatcher.addTask (.arriving change))
  | advanced {position : Nat} {contents : Contents} {after : Dispatcher}
    (hstep : dispatcher.StepsTo contents position after) :
    MovesTo dispatcher (.advance position contents) after
  | startedDirectly (change : Change) :
    MovesTo dispatcher (.applyDirectly change) (dispatcher.startDirectly change)
  | tookGuard : MovesTo dispatcher .takeGuard
    { dispatcher with
      barrier := dispatcher.barrier.take
      foreignGuards := dispatcher.foreignGuards + 1 }
  /-- There is no guard to give back. -/
  | hadNoGuard (hnone : dispatcher.foreignGuards = 0) : MovesTo dispatcher .giveGuardBack dispatcher
  | gaveGuardBack (hsome : dispatcher.foreignGuards ≠ 0) : MovesTo dispatcher .giveGuardBack
    { dispatcher with
      barrier := dispatcher.barrier.giveBack
      foreignGuards := dispatcher.foreignGuards - 1 }

theorem movesTo_move (dispatcher : Dispatcher) (next : Move) :
    dispatcher.MovesTo next (dispatcher.move next) := by
  cases next with
  | handIn change => exact .handedIn change
  | advance position contents => exact .advanced (dispatcher.stepsTo_advance contents position)
  | applyDirectly change => exact .startedDirectly change
  | takeGuard => exact .tookGuard
  | giveGuardBack =>
    by_cases hnone : dispatcher.foreignGuards = 0
    · simp only [move, hnone, if_true]
      exact .hadNoGuard hnone
    · simp only [move, hnone, if_false]
      exact .gaveGuardBack hnone

/-- What every move keeps holds after any moves. -/
theorem run_induction (holds : Dispatcher → Prop) (h : holds dispatcher)
    (hmove : ∀ {before after : Dispatcher} {next : Move}, holds before → before.MovesTo next after →
      holds after)
    (moves : List Move) : holds (dispatcher.run moves) := by
  induction moves generalizing dispatcher with
  | nil => exact h
  | cons next moves ih => exact ih (hmove h (dispatcher.movesTo_move next))

/-- The tasks before and after one of them. -/
theorem exists_around {old : Task} (h : dispatcher.tasks[position]? = some old) :
    ∃ front back, dispatcher.tasks = front ++ old :: back ∧
      (∀ new, dispatcher.tasks.set position new = front ++ new :: back) ∧
        dispatcher.tasks.eraseIdx position = front ++ back := by
  obtain ⟨hlength, rfl⟩ := List.getElem?_eq_some_iff.mp h
  refine ⟨dispatcher.tasks.take position, dispatcher.tasks.drop (position + 1), ?_, ?_, ?_⟩
  · rw [List.getElem_cons_drop, List.take_append_drop]
  · intro new
    rw [List.set_eq_take_append_cons_drop, if_pos hlength]
  · exact List.eraseIdx_eq_take_drop_succ dispatcher.tasks position

/-! ### The moves of the index -/

/-- The change that a move starts outside of the order of its path, if it starts one. -/
def Move.startedDirectly? : Move → Option Change
  | applyDirectly change => some change
  | _ => none

/-- What a step of a task does to the index, if it concerns the index. -/
def workStep? (dispatcher : Dispatcher) (contents : Contents) (task : Task) : Option ConcurrentIndex.Move :=
  match task with
  | .queued ticket => some (.arrive ticket.change)
  | .started _ activity | .direct activity =>
    if dispatcher.hasFinished activity then none else some (.advance activity contents)
  | _ => none

/-- What a move does to the index, if it concerns the index. -/
def workMove? (dispatcher : Dispatcher) : Move → Option ConcurrentIndex.Move
  | .advance position contents => dispatcher.tasks[position]?.bind (dispatcher.workStep? contents)
  | .applyDirectly change => some (.arrive change)
  | _ => none

/-- What some moves do to the index, in order. -/
def workMoves (dispatcher : Dispatcher) : List Move → List ConcurrentIndex.Move
  | [] => []
  | next :: moves => (dispatcher.workMove? next).toList ++ (dispatcher.move next).workMoves moves

/-- A step of a task does to the index what can be read off the task, and the change that comes in with it is
the one that is begun. -/
theorem StepsTo.work (h : dispatcher.StepsTo contents position after) :
    let steps := (dispatcher.workMove? (.advance position contents)).toList
    after.work = dispatcher.work.run steps ∧
      after.begun.map Ticket.change =
        dispatcher.begun.map Ticket.change ++ steps.filterMap ConcurrentIndex.Move.arrived? := by
  have hbegun : dispatcher.begun.map Ticket.change = dispatcher.begun.map Ticket.change ++ [] :=
    (List.append_nil _).symm
  cases h with
  | missing hnone =>
    simp only [workMove?, hnone, Option.bind_none]
    exact ⟨rfl, hbegun⟩
  | parked hold | entered hold =>
    simp only [workMove?, hold, Option.bind_some, workStep?]
    refine ⟨rfl, ?_⟩
    rw [enterAs, begun_record]
    exact congrArg (List.map Ticket.change) (List.append_nil _) |>.trans hbegun
  | begun hold =>
    simp only [workMove?, hold, Option.bind_some, workStep?]
    refine ⟨rfl, ?_⟩
    rw [start, begun_record]
    exact List.map_append
  | @worked task activity hold hactivity hopen =>
    have hstep : dispatcher.workStep? contents task = some (.advance activity contents) := by
      cases task <;> cases hactivity <;> simp only [workStep?, hopen, Bool.false_eq_true, if_false]
    simp only [workMove?, hold, Option.bind_some, hstep]
    exact ⟨rfl, hbegun⟩
  | finished hold hdone =>
    simp only [workMove?, hold, Option.bind_some, workStep?, hdone, if_true]
    refine ⟨rfl, ?_⟩
    rw [finish, begun_record]
    exact congrArg (List.map Ticket.change) (List.append_nil _) |>.trans hbegun
  | resumed hold | left hold | ended hold =>
    simp only [workMove?, hold, Option.bind_some, workStep?]
    exact ⟨rfl, hbegun⟩
  | endedDirectly hold hdone =>
    simp only [workMove?, hold, Option.bind_some, workStep?, hdone, if_true]
    exact ⟨rfl, hbegun⟩

/-- A move does to the index what can be read off, and the changes that come in with moves are those that are
begun and those that are started directly. -/
theorem MovesTo.work {next : Move} (h : dispatcher.MovesTo next after) :
    let steps := (dispatcher.workMove? next).toList
    after.work = dispatcher.work.run steps ∧
      after.begun.map Ticket.change ++ next.startedDirectly?.toList =
        dispatcher.begun.map Ticket.change ++ steps.filterMap ConcurrentIndex.Move.arrived? := by
  cases h with
  | advanced hstep =>
    obtain ⟨hwork, hbegun⟩ := hstep.work
    exact ⟨hwork, (List.append_nil _).trans hbegun⟩
  | _ => exact ⟨rfl, rfl⟩

/-- The work of a dispatcher is a run of the index. -/
theorem work_run (dispatcher : Dispatcher) (moves : List Move) :
    (dispatcher.run moves).work = dispatcher.work.run (dispatcher.workMoves moves) := by
  induction moves generalizing dispatcher with
  | nil => rfl
  | cons next moves ih =>
    rw [workMoves, ConcurrentIndex.run, List.foldl_append, ← ConcurrentIndex.run, ← ConcurrentIndex.run,
      ← (dispatcher.movesTo_move next).work.1]
    exact ih (dispatcher.move next)

/-- The changes that come in are those that are begun and those that are started directly. -/
theorem arrived_workMoves (dispatcher : Dispatcher) (moves : List Move) :
    ((dispatcher.run moves).begun.map Ticket.change ++ moves.filterMap Move.startedDirectly?).Perm
      (dispatcher.begun.map Ticket.change ++
        (dispatcher.workMoves moves).filterMap ConcurrentIndex.Move.arrived?) := by
  induction moves generalizing dispatcher with
  | nil => exact List.Perm.refl _
  | cons next moves ih =>
    have hrest := ih (dispatcher.move next)
    have hnow := (dispatcher.movesTo_move next).work.2
    have hdirect : (next :: moves).filterMap Move.startedDirectly? =
        next.startedDirectly?.toList ++ moves.filterMap Move.startedDirectly? := by cases next <;> rfl
    rw [workMoves, List.filterMap_append, ← List.append_assoc, ← hnow, hdirect]
    show (((dispatcher.move next).run moves).begun.map _ ++ _).Perm _
    simp only [List.perm_iff_count, List.count_append] at hrest ⊢
    intro change
    have := hrest change
    omega

/-- Assumes: a sound and settled index. The work of a dispatcher is consistent at every moment. -/
theorem isConsistent_run {index : Index} (hsound : index.cache.IsSound) (hsettled : index.IsSettled)
    (moves : List Move) : ((idle index).run moves).work.IsConsistent := by
  rw [work_run]
  exact (ConcurrentIndex.isConsistent_quiet hsound hsettled).run _

/-! ### Activities of tasks -/

/-- Every activity that has not finished is that of a task. -/
def IsCarried (dispatcher : Dispatcher) : Prop :=
  ∀ activity < dispatcher.work.activities.length, dispatcher.hasFinished activity = false →
    ∃ task ∈ dispatcher.tasks, task.activity? = some activity

/-- A task keeps its place, unless its step replaces it. -/
theorem mem_set_of_ne {old new task : Task} (hold : dispatcher.tasks[position]? = some old)
    (hmem : task ∈ dispatcher.tasks) (hother : task ≠ old) : task ∈ dispatcher.tasks.set position new := by
  obtain ⟨front, back, htasks, hset, -⟩ := exists_around hold
  rw [htasks, List.mem_append, List.mem_cons] at hmem
  rw [hset, List.mem_append, List.mem_cons]
  rcases hmem with hfront | hsame | hback
  · exact .inl hfront
  · exact absurd hsame hother
  · exact .inr (.inr hback)

/-- A task stays when another one ends. -/
theorem mem_eraseIdx_of_ne {old task : Task} (hold : dispatcher.tasks[position]? = some old)
    (hmem : task ∈ dispatcher.tasks) (hother : task ≠ old) : task ∈ dispatcher.tasks.eraseIdx position := by
  obtain ⟨front, back, htasks, -, herase⟩ := exists_around hold
  rw [htasks, List.mem_append, List.mem_cons] at hmem
  rw [herase, List.mem_append]
  rcases hmem with hfront | hsame | hback
  · exact .inl hfront
  · exact absurd hsame hother
  · exact .inr hback

theorem isCarried_idle (index : Index) : (idle index).IsCarried :=
  fun activity hlength ↦ absurd hlength (Nat.not_lt_zero activity)

namespace IsCarried

/-- Assumes: a step that leaves the index alone. The tasks that are working off something have to stay. -/
theorem of_same (h : dispatcher.IsCarried) (hwork : after.work = dispatcher.work)
    (hkept : ∀ task ∈ dispatcher.tasks, ∀ activity, task.activity? = some activity →
      dispatcher.hasFinished activity = false → task ∈ after.tasks) : after.IsCarried := by
  intro activity hlength hopen
  have hbefore : dispatcher.hasFinished activity = false := by rwa [hasFinished, ← hwork]
  rw [hwork] at hlength
  obtain ⟨task, hmem, hactivity⟩ := h activity hlength hbefore
  exact ⟨task, hkept task hmem activity hactivity hbefore, hactivity⟩

/-- Assumes: a change that comes in, with a task for its activity. -/
theorem of_arrived (h : dispatcher.IsCarried) {change : Change}
    (hwork : after.work = dispatcher.work.move (.arrive change))
    (hnew : ∃ task ∈ after.tasks, task.activity? = some dispatcher.work.activities.length)
    (hkept : ∀ task ∈ dispatcher.tasks, ∀ activity, task.activity? = some activity → task ∈ after.tasks) :
    after.IsCarried := by
  intro activity hlength hopen
  rw [hwork] at hlength
  by_cases hbefore : activity < dispatcher.work.activities.length
  · have hstill : dispatcher.hasFinished activity = false := by
      rw [hasFinished, hwork] at hopen
      rwa [hasFinished, ← List.getElem?_append_left hbefore]
    obtain ⟨task, hmem, hactivity⟩ := h activity hbefore hstill
    exact ⟨task, hkept task hmem activity hactivity, hactivity⟩
  · have hlast : activity = dispatcher.work.activities.length := by
      have hlength' : activity < (dispatcher.work.activities ++ [Activity.ready change]).length := hlength
      rw [List.length_append, List.length_singleton] at hlength'
      omega
    rw [hlast]
    exact hnew

/-- The activity of a task takes a step. -/
theorem workOn (h : dispatcher.IsCarried) {task : Task} (hmem : task ∈ dispatcher.tasks)
    (hactivity : task.activity? = some activity) : (dispatcher.workOn contents activity).IsCarried := by
  intro other hlength hopen
  have hbefore : other < dispatcher.work.activities.length :=
    ConcurrentIndex.length_activities_advance ▸ hlength
  by_cases hsame : activity = other
  · exact ⟨task, hmem, hsame ▸ hactivity⟩
  · have hstill : dispatcher.hasFinished other = false := by
      rwa [hasFinished, ← ConcurrentIndex.getElem?_activities_advance hsame]
    exact h other hbefore hstill

theorem step (h : dispatcher.IsCarried) (hstep : dispatcher.StepsTo contents position after) :
    after.IsCarried := by
  -- A task that leaves its place was working off nothing, or what has finished.
  have hset : ∀ {old new : Task}, dispatcher.tasks[position]? = some old →
      (∀ activity, old.activity? = some activity → dispatcher.hasFinished activity = true) →
        ∀ task ∈ dispatcher.tasks, ∀ activity, task.activity? = some activity →
          dispatcher.hasFinished activity = false → task ∈ dispatcher.tasks.set position new := by
    rintro old new hold hdone task hmem activity hactivity hopen
    refine mem_set_of_ne hold hmem ?_
    rintro rfl
    exact Bool.false_ne_true (hopen.symm.trans (hdone activity hactivity))
  cases hstep with
  | missing => exact h
  | parked hold | entered hold | resumed hold | left hold =>
    exact h.of_same rfl (hset hold fun activity hactivity ↦ nomatch hactivity)
  | begun hold =>
    refine h.of_arrived rfl ⟨_, List.mem_set (List.getElem?_eq_some_iff.mp hold).1 _, rfl⟩ ?_
    intro task hmem activity hactivity
    refine mem_set_of_ne hold hmem ?_
    rintro rfl
    cases hactivity
  | worked hold hactivity => exact h.workOn (List.mem_of_getElem? hold) hactivity
  | finished hold hdone =>
    exact h.of_same rfl (hset hold fun activity hactivity ↦ Option.some.inj hactivity ▸ hdone)
  | ended hold =>
    refine h.of_same rfl fun task hmem activity hactivity _ ↦ mem_eraseIdx_of_ne hold hmem ?_
    rintro rfl
    cases hactivity
  | endedDirectly hold hdone =>
    refine h.of_same rfl fun task hmem activity hactivity hopen ↦ mem_eraseIdx_of_ne hold hmem ?_
    rintro rfl
    obtain rfl := Option.some.inj hactivity
    exact Bool.false_ne_true (hopen.symm.trans hdone)

theorem move {next : Move} (h : dispatcher.IsCarried) (hmove : dispatcher.MovesTo next after) :
    after.IsCarried := by
  cases hmove with
  | advanced hstep => exact h.step hstep
  | handedIn change =>
    exact h.of_same rfl fun task hmem activity hactivity hopen ↦ List.mem_append_left _ hmem
  | startedDirectly change =>
    refine h.of_arrived rfl ⟨_, List.mem_append_right _ (List.mem_singleton_self _), rfl⟩ ?_
    exact fun task hmem activity hactivity ↦ List.mem_append_left _ hmem
  | _ => exact h.of_same rfl fun task hmem activity hactivity hopen ↦ hmem

/-- When no task is left no change is in progress. -/
theorem isQuiet (h : dispatcher.IsCarried) (hdone : dispatcher.tasks = []) : dispatcher.work.IsQuiet := by
  rw [ConcurrentIndex.isQuiet_iff, List.all_eq_true]
  intro activity hmem
  obtain ⟨position, hposition⟩ := List.getElem?_of_mem hmem
  cases hopen : dispatcher.hasFinished position with
  | false =>
    obtain ⟨task, htask, -⟩ := h position (List.getElem?_eq_some_iff.mp hposition).1 hopen
    rw [hdone] at htask
    exact absurd htask List.not_mem_nil
  | true => rwa [hasFinished, hposition, Option.any_some] at hopen

end IsCarried

theorem isCarried_run (index : Index) (moves : List Move) : ((idle index).run moves).IsCarried :=
  run_induction IsCarried (isCarried_idle index) IsCarried.move moves

/-! ### Which change a task works off -/

/-- A task that is working off a change after a step did so before, or it has begun now with the last activity. -/
theorem StepsTo.started (h : dispatcher.StepsTo contents position after) {ticket : Ticket} {turn : Nat}
    (hturn : Task.started ticket turn ∈ after.tasks) : Task.started ticket turn ∈ dispatcher.tasks ∨
      dispatcher.tasks[position]? = some (.queued ticket) ∧ turn = dispatcher.work.activities.length := by
  have hset : ∀ {new : Task}, Task.started ticket turn ≠ new →
      Task.started ticket turn ∈ dispatcher.tasks.set position new →
        Task.started ticket turn ∈ dispatcher.tasks :=
    fun hnew hmem ↦ (List.mem_or_eq_of_mem_set hmem).resolve_right hnew
  cases h with
  | missing | worked => exact .inl hturn
  | parked | entered | finished | resumed | left => exact .inl (hset Task.noConfusion hturn)
  | begun hold =>
    refine (List.mem_or_eq_of_mem_set hturn).imp_right fun hnew ↦ ?_
    obtain ⟨rfl, rfl⟩ := Task.started.inj hnew
    exact ⟨hold, rfl⟩
  | ended | endedDirectly => exact .inl (List.mem_of_mem_eraseIdx hturn)

theorem MovesTo.started {next : Move} (h : dispatcher.MovesTo next after) {ticket : Ticket} {turn : Nat}
    (hturn : Task.started ticket turn ∈ after.tasks) : Task.started ticket turn ∈ dispatcher.tasks ∨
      dispatcher.workMove? next = some (.arrive ticket.change) ∧
        turn = dispatcher.work.activities.length := by
  have hadd : ∀ {new : Task}, Task.started ticket turn ≠ new →
      Task.started ticket turn ∈ dispatcher.tasks ++ [new] → Task.started ticket turn ∈ dispatcher.tasks :=
    fun hnew hmem ↦ (List.mem_append.mp hmem).resolve_right fun hlast ↦ hnew (List.mem_singleton.mp hlast)
  cases h with
  | advanced hstep =>
    refine (hstep.started hturn).imp_right fun hbegun ↦ ⟨?_, hbegun.2⟩
    simp only [workMove?, hbegun.1, Option.bind_some, workStep?]
  | handedIn | startedDirectly => exact .inl (hadd Task.noConfusion hturn)
  | _ => exact .inl hturn

/-- Some changes have come in, and a task that is working off its change does so where it has come in. -/
structure WorksOff (dispatcher : Dispatcher) (arrived : List Change) : Prop where
  length_eq : dispatcher.work.activities.length = arrived.length
  started : ∀ ticket turn, Task.started ticket turn ∈ dispatcher.tasks → arrived[turn]? = some ticket.change

theorem WorksOff.move {arrived : List Change} {next : Move} (h : dispatcher.WorksOff arrived)
    (hmove : dispatcher.MovesTo next after) : after.WorksOff (arrived ++
      (dispatcher.workMove? next).toList.filterMap ConcurrentIndex.Move.arrived?) := by
  refine ⟨?_, fun ticket turn hturn ↦ ?_⟩
  · rw [hmove.work.1, ConcurrentIndex.length_activities_run, List.length_append, h.length_eq]
  · rcases hmove.started hturn with hbefore | ⟨harrive, rfl⟩
    · have harrived := h.started ticket turn hbefore
      exact (List.getElem?_append_left (List.getElem?_eq_some_iff.mp harrived).1).trans harrived
    · rw [harrive, h.length_eq]
      exact List.getElem?_concat_length

theorem WorksOff.run {arrived : List Change} (h : dispatcher.WorksOff arrived) (moves : List Move) :
    (dispatcher.run moves).WorksOff (arrived ++
      (dispatcher.workMoves moves).filterMap ConcurrentIndex.Move.arrived?) := by
  induction moves generalizing dispatcher arrived with
  | nil => rwa [workMoves, List.filterMap_nil, List.append_nil]
  | cons next moves ih =>
    rw [workMoves, List.filterMap_append, ← List.append_assoc]
    exact ih (h.move (dispatcher.movesTo_move next))

theorem worksOff_idle (index : Index) : (idle index).WorksOff [] :=
  ⟨rfl, fun _ _ hturn ↦ absurd hturn List.not_mem_nil⟩

theorem worksOff_run (index : Index) (moves : List Move) : ((idle index).run moves).WorksOff
    (((idle index).workMoves moves).filterMap ConcurrentIndex.Move.arrived?) :=
  (worksOff_idle index).run moves

end Dispatcher

end LiveSpec
