import LiveSpec.Index.Activity
import LiveSpec.Index.Barrier

/-!
# Dispatching changes

Changes of different paths are worked off side by side, and those of one path one after another. A
`Dispatcher` holds the work on an index, the tasks that are running, and the paths that are in flight,
each with the change that is parked there, if one is. A change that is handed in takes a guard of the
barrier and a ticket. If its path is in flight it is parked, in the place of the change that was
parked before, and its task ends; otherwise the path is in flight from then on. When a task has worked
off its change it goes on with the one that is parked at its path; if there is none, the path is no
longer in flight and the task ends.

When a task begins to work off a change it takes a second guard, and the change comes in as a new
activity. From then on the steps of the task are those of this activity (`ConcurrentIndex.advance`),
until it is finished, because the change has been worked off or has failed. Then the second guard is
given back.

Which task takes its next step, and what reading gives at that moment, is up to the environment
(`Dispatcher.Move`, `Dispatcher.run`). The environment can also let changes be worked off outside of
this order (`Dispatcher.Move.applyDirectly`) and hold guards of its own. A journal records what
happened to every ticket.
-/

set_option autoImplicit false

namespace LiveSpec

/-- A change with its number in the order in which changes are entered. -/
structure Ticket where
  number : Nat
  change : Change
  deriving DecidableEq, Repr, Inhabited

/-- A task, by the step that it takes next. -/
inductive Task where
  /-- The change has been handed in and will be entered. -/
  | arriving (change : Change)
  /-- The change will be started. -/
  | queued (ticket : Ticket)
  /-- The change is being worked off by the activity at a position. -/
  | started (ticket : Ticket) (activity : Nat)
  /-- The change is finished; the task will look for a parked one. -/
  | applied (ticket : Ticket)
  /-- Nothing is left to do but to give the guard back. -/
  | leaving
  /-- A change outside of the order of its path is being worked off by the activity at a position. -/
  | direct (activity : Nat)
  deriving DecidableEq, Repr, Inhabited

/-- What happens to a ticket. -/
inductive DispatchEvent where
  | entered (ticket : Ticket)
  | begun (ticket : Ticket)
  | finished (ticket : Ticket)
  deriving DecidableEq, Repr, Inhabited

/-- The index and the work on it. -/
structure Dispatcher where
  /-- The index, with the changes that are being worked off. -/
  work : ConcurrentIndex
  barrier : Barrier
  /-- The paths with a running task, and the change that is parked there. -/
  inFlight : PathMap (Option Ticket)
  tasks : List Task
  /-- How many guards are held by others than tasks. -/
  foreignGuards : Nat
  /-- How many tickets have been given out. -/
  tickets : Nat
  /-- What has happened to the tickets, in order. -/
  journal : List DispatchEvent

namespace Dispatcher

/-- An index that nothing is working on. -/
def idle (index : Index) : Dispatcher := ⟨.quiet index, .clear, ∅, [], 0, 0, []⟩

/-- The index as it is now. -/
def index (dispatcher : Dispatcher) : Index := dispatcher.work.index

/-- How many guards are held. -/
def pending (dispatcher : Dispatcher) : Nat := dispatcher.barrier.pending

/-- The activity at a position has taken all its steps. -/
def hasFinished (dispatcher : Dispatcher) (activity : Nat) : Bool :=
  dispatcher.work.activities[activity]?.any Activity.isFinished

/-! ### Steps of tasks -/

/-- Puts a task at its next step. -/
def setTask (dispatcher : Dispatcher) (position : Nat) (task : Task) : Dispatcher :=
  { dispatcher with tasks := dispatcher.tasks.set position task }

/-- Ends a task, which gives its guard back. -/
def endTask (dispatcher : Dispatcher) (position : Nat) : Dispatcher :=
  { dispatcher with
    barrier := dispatcher.barrier.giveBack
    tasks := dispatcher.tasks.eraseIdx position }

/-- Records an event. -/
def record (dispatcher : Dispatcher) (event : DispatchEvent) : Dispatcher :=
  { dispatcher with journal := dispatcher.journal ++ [event] }

/-- Enters a change: it is parked at its path, or the path is in flight from now on. -/
def enter (dispatcher : Dispatcher) (position : Nat) (change : Change) : Dispatcher :=
  let ticket : Ticket := ⟨dispatcher.tickets, change⟩
  let (parked, task) : Option Ticket × Task :=
    if dispatcher.inFlight.contains change.path then (some ticket, .leaving)
    else (none, .queued ticket)
  { dispatcher with
    inFlight := dispatcher.inFlight.set change.path parked
    tickets := dispatcher.tickets + 1 }.setTask position task |>.record (.entered ticket)

/-- Starts a change: it takes a guard and comes in as an activity. -/
def start (dispatcher : Dispatcher) (position : Nat) (ticket : Ticket) : Dispatcher :=
  { dispatcher with
    work := dispatcher.work.move (.arrive ticket.change)
    barrier := dispatcher.barrier.take }.setTask position
    (.started ticket dispatcher.work.activities.length) |>.record (.begun ticket)

/-- The activity at a position takes its next step. -/
def workOn (dispatcher : Dispatcher) (contents : Contents) (activity : Nat) : Dispatcher :=
  { dispatcher with work := dispatcher.work.move (.advance activity contents) }

/-- Finishes a change, which gives its guard back. -/
def finish (dispatcher : Dispatcher) (position : Nat) (ticket : Ticket) : Dispatcher :=
  { dispatcher with barrier := dispatcher.barrier.giveBack }.setTask position (.applied ticket)
    |>.record (.finished ticket)

/-- Goes on with the change that is parked, if there is one. -/
def proceed (dispatcher : Dispatcher) (position : Nat) (ticket : Ticket) : Dispatcher :=
  let path := ticket.change.path
  match dispatcher.inFlight.find? path with
  | some (some next) =>
    { dispatcher with inFlight := dispatcher.inFlight.set path none }.setTask position
      (.queued next)
  | _ => { dispatcher with inFlight := dispatcher.inFlight.erase path }.setTask position .leaving

/-- The next step of the task at a position. -/
def advance (dispatcher : Dispatcher) (contents : Contents) (position : Nat) : Dispatcher :=
  match dispatcher.tasks[position]? with
  | none => dispatcher
  | some (.arriving change) => dispatcher.enter position change
  | some (.queued ticket) => dispatcher.start position ticket
  | some (.started ticket activity) =>
    if dispatcher.hasFinished activity then dispatcher.finish position ticket
    else dispatcher.workOn contents activity
  | some (.applied ticket) => dispatcher.proceed position ticket
  | some .leaving => dispatcher.endTask position
  | some (.direct activity) =>
    if dispatcher.hasFinished activity then dispatcher.endTask position
    else dispatcher.workOn contents activity

/-! ### Moves of the environment -/

/-- What the environment does next. -/
inductive Move where
  /-- Hands in a change. -/
  | handIn (change : Change)
  /-- Lets a task take its next step, while reading gives certain contents. -/
  | advance (position : Nat) (contents : Contents)
  /-- Starts a change outside of the order of its path. -/
  | applyDirectly (change : Change)
  /-- Takes a guard. -/
  | takeGuard
  /-- Gives a guard back that it has taken. -/
  | giveGuardBack

/-- A new task, which holds a guard. -/
def addTask (dispatcher : Dispatcher) (task : Task) : Dispatcher :=
  { dispatcher with
    barrier := dispatcher.barrier.take
    tasks := dispatcher.tasks ++ [task] }

/-- Hands in a change. -/
def handIn (dispatcher : Dispatcher) (change : Change) : Dispatcher :=
  dispatcher.addTask (.arriving change)

/-- Starts a change outside of the order of its path. -/
def startDirectly (dispatcher : Dispatcher) (change : Change) : Dispatcher :=
  { dispatcher with work := dispatcher.work.move (.arrive change) }.addTask
    (.direct dispatcher.work.activities.length)

/-- The dispatcher after a move. -/
def move (dispatcher : Dispatcher) : Move → Dispatcher
  | .handIn change => dispatcher.handIn change
  | .advance position contents => dispatcher.advance contents position
  | .applyDirectly change => dispatcher.startDirectly change
  | .takeGuard =>
    { dispatcher with
      barrier := dispatcher.barrier.take
      foreignGuards := dispatcher.foreignGuards + 1 }
  | .giveGuardBack =>
    if dispatcher.foreignGuards = 0 then dispatcher
    else
      { dispatcher with
        barrier := dispatcher.barrier.giveBack
        foreignGuards := dispatcher.foreignGuards - 1 }

/-- The dispatcher after some moves. -/
def run (dispatcher : Dispatcher) (moves : List Move) : Dispatcher := moves.foldl move dispatcher

end Dispatcher

end LiveSpec
