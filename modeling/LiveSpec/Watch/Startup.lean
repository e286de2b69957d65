import LiveSpec.Index.Dispatch
import LiveSpec.Watch.Service

/-!
# Starting a service

A service is started by one thread while another one, the event loop, already exists. The starting
thread takes a guard of the barrier, starts the event loop, builds the index step by step, and gives
the guard back. Reports that come in meanwhile are queued. The event loop waits once until no guard
is held, and from then on takes one report after another from the queue and responds to it.

`Startup` is the state of both threads and of the tasks that the event loop has handed in, and
`Startup.run` follows an interleaving that the environment chooses.
-/

set_option autoImplicit false

namespace LiveSpec

/-- A step of the starting thread. -/
inductive StartStep where
  | takeGuard
  | startLoop
  | perform (step : BuildStep)
  | giveGuardBack

/-- The steps of the starting thread, given what reading the sources gives. -/
def BuildPlan.startSteps (plan : BuildPlan) : List StartStep :=
  .takeGuard :: .startLoop :: plan.steps.map .perform ++ [.giveGuardBack]

/-- How far the event loop is. -/
inductive EventLoop where
  | absent
  /-- It waits until no guard is held. -/
  | waiting
  | serving
  deriving DecidableEq, Repr, Inhabited

/-- A service that is being started. -/
structure Startup where
  dispatcher : Dispatcher
  coverage : Coverage
  /-- What the starting thread has still to do. -/
  remaining : List StartStep
  loop : EventLoop
  /-- The reports that have come in and have not been taken, in order. -/
  queue : List RawEvent
  /-- The reports that the event loop has responded to, in order. -/
  handled : List RawEvent

namespace Startup

/-- A service before its first step. -/
def new (directories : List Path) (coverage : Coverage) (plan : BuildPlan) : Startup :=
  ⟨.idle (.new directories), coverage, plan.startSteps, .absent, [], []⟩

/-- A step of the build. -/
def build (state : Startup) (step : BuildStep) : Startup :=
  let work := state.dispatcher.work
  let work := { work with index := work.index.perform step }
  { state with dispatcher := { state.dispatcher with work } }

/-- A step of the starting thread. -/
def perform (state : Startup) : StartStep → Startup
  | .takeGuard => { state with dispatcher := state.dispatcher.move .takeGuard }
  | .startLoop => { state with loop := .waiting }
  | .perform step => state.build step
  | .giveGuardBack => { state with dispatcher := state.dispatcher.move .giveGuardBack }

/-- Responds to an event: the changes that it asks for are handed in. -/
def respond (disk : Disk) (state : Startup) (event : FileEvent) : Startup :=
  let (coverage, changes) := state.coverage.respond disk event
  { state with coverage, dispatcher := changes.foldl Dispatcher.handIn state.dispatcher }

/-- A step of the event loop. -/
def serve (state : Startup) (disk : Disk) : Startup :=
  match state.loop, state.queue with
  | .absent, _ => state
  | .waiting, _ => if state.dispatcher.barrier.isClear then { state with loop := .serving } else state
  | .serving, [] => state
  | .serving, report :: later =>
    (FileEvent.ofRaw disk.isPresent report).foldl (respond disk)
      { state with queue := later, handled := state.handled ++ [report] }

/-- What the environment does next. -/
inductive Move where
  /-- The starting thread takes its next step. -/
  | proceed
  /-- A report comes in. -/
  | deliver (report : RawEvent)
  /-- The event loop takes a step, while the files are as on a disk. -/
  | serve (disk : Disk)
  /-- A task takes a step, while reading gives certain contents. -/
  | advance (position : Nat) (contents : Contents)

/-- The state after a move. -/
def move (state : Startup) : Move → Startup
  | .proceed =>
    match state.remaining with
    | [] => state
    | step :: rest => { state with remaining := rest }.perform step
  | .deliver report => { state with queue := state.queue ++ [report] }
  | .serve disk => state.serve disk
  | .advance position contents =>
    { state with dispatcher := state.dispatcher.advance contents position }

/-- The state after some moves. -/
def run (state : Startup) (moves : List Move) : Startup := moves.foldl move state

/-- The reports among some moves, in order. -/
def delivered (moves : List Move) : List RawEvent :=
  moves.filterMap fun move ↦
    match move with
    | .deliver report => some report
    | _ => none

/-- Whether some of the build is still to be done. -/
def IsBuilding (state : Startup) : Prop :=
  ∃ step, StartStep.perform step ∈ state.remaining

end Startup

end LiveSpec
