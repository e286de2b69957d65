import LiveSpec.Proofs.Index.Dispatch
import Mathlib.Algebra.GroupWithZero.Nat

/-!
# What the barrier covers

The barrier counts exactly the guards that are held (`Dispatcher.pending_run`): one by every task, a second
one by a task that is working off its change, and those of others. A guard is given back only when there is
one to give back (`Dispatcher.pending_move`).

So no task is left while the count is zero, and with the tasks everything else is gone: a path is in flight
only while a task has a change of it in hand, what is parked there is left to this task, and no change is in
progress without a task (`Dispatcher.isCarried_run`). Every change that was handed in has been entered by then
(`Dispatcher.IsAccountedFor`), and it has been finished, or a later one of the same path has. To be finished
means that all steps of its activity have been taken: they are among the moves that have made the index what it
is, and whatever a query finds after it has passed the barrier goes on from there (`Dispatcher.work_run`). All
of this together is `Dispatcher.covers_run`. What there is to find at that moment is settled and coherent
(`Dispatcher.isSettled_run`, `Dispatcher.isCoherent_run`).
-/

set_option autoImplicit false

namespace LiveSpec

/-! ### Guards -/

/-- How many guards a task holds: one of its own, and one more while it is working off its change. -/
def Task.guards : Task → Nat
  | started _ _ => 2
  | _ => 1

namespace Dispatcher

variable {dispatcher after : Dispatcher} {contents : Contents} {position : Nat} {old : Task}

/-- The next step of a task gives a guard back: its change has been worked off, or it leaves. -/
def givesBack (dispatcher : Dispatcher) : Task → Bool
  | .started _ activity => dispatcher.hasFinished activity
  | .leaving => true
  | .direct activity => dispatcher.hasFinished activity
  | _ => false

/-- The guards that are held by tasks and by others. -/
def guardsHeld (dispatcher : Dispatcher) : Nat :=
  (dispatcher.tasks.map Task.guards).sum + dispatcher.foreignGuards

/-- A move gives a guard back. -/
def GivesBack (dispatcher : Dispatcher) : Move → Prop
  | .advance position _ => ∃ task, dispatcher.tasks[position]? = some task ∧ dispatcher.givesBack task = true
  | .giveGuardBack => dispatcher.foreignGuards ≠ 0
  | _ => False

/-- A task that takes a step holds other guards than before. -/
theorem sum_guards_set (h : dispatcher.tasks[position]? = some old) (new : Task) :
    ((dispatcher.tasks.set position new).map Task.guards).sum + old.guards =
      (dispatcher.tasks.map Task.guards).sum + new.guards := by
  obtain ⟨front, back, htasks, hset, -⟩ := exists_around h
  rw [hset, htasks]
  simp only [List.map_append, List.map_cons, List.sum_append, List.sum_cons]
  omega

/-- A task that ends holds its guards no longer. -/
theorem sum_guards_eraseIdx (h : dispatcher.tasks[position]? = some old) :
    ((dispatcher.tasks.eraseIdx position).map Task.guards).sum + old.guards =
      (dispatcher.tasks.map Task.guards).sum := by
  obtain ⟨front, back, htasks, -, herase⟩ := exists_around h
  rw [herase, htasks]
  simp only [List.map_append, List.map_cons, List.sum_append, List.sum_cons]
  omega

/-- What a step does to the barrier it does to the guards that are held. -/
inductive IsBalanced (before after : Dispatcher) (givesBack : Prop) : Prop
  | gaveBack (hgives : givesBack) (hbarrier : after.barrier = before.barrier.giveBack)
    (hguards : after.guardsHeld + 1 = before.guardsHeld)
  | took (hkeeps : ¬ givesBack) (hbarrier : after.barrier = before.barrier.take)
    (hguards : after.guardsHeld = before.guardsHeld + 1)
  | kept (hkeeps : ¬ givesBack) (hbarrier : after.barrier = before.barrier)
    (hguards : after.guardsHeld = before.guardsHeld)

/-- A new task takes the guard that it holds. -/
theorem guardsHeld_addTask {task : Task} (h : task.guards = 1) :
    (dispatcher.addTask task).guardsHeld = dispatcher.guardsHeld + 1 := by
  show ((dispatcher.tasks ++ [task]).map Task.guards).sum + dispatcher.foreignGuards = _
  simp only [List.map_append, List.sum_append, List.map_cons, List.map_nil, List.sum_cons,
    List.sum_nil, h, guardsHeld]
  omega

/-- A task that goes on with as many guards as before changes nothing. -/
theorem guardsHeld_of_set (h : dispatcher.tasks[position]? = some old) {new : Task}
    (htasks : after.tasks = dispatcher.tasks.set position new)
    (hforeign : after.foreignGuards = dispatcher.foreignGuards) (hsame : new.guards = old.guards) :
    after.guardsHeld = dispatcher.guardsHeld := by
  have hset := sum_guards_set h new
  rw [hsame] at hset
  rw [guardsHeld, guardsHeld, htasks, hforeign, Nat.add_right_cancel hset]

/-- A step gives a guard back exactly when the task at this position does. -/
theorem givesBack_iff (h : dispatcher.tasks[position]? = some old) :
    dispatcher.GivesBack (.advance position contents) ↔ dispatcher.givesBack old = true := by
  simp [GivesBack, h]

theorem StepsTo.isBalanced (h : dispatcher.StepsTo contents position after) :
    IsBalanced dispatcher after (dispatcher.GivesBack (.advance position contents)) := by
  cases h with
  | missing hnone =>
    refine .kept ?_ rfl rfl
    rintro ⟨task, htask, -⟩
    rw [hnone] at htask
    cases htask
  | parked hold | entered hold | resumed hold | left hold =>
    refine .kept ?_ rfl (guardsHeld_of_set hold rfl rfl rfl)
    rw [givesBack_iff hold]
    exact Bool.false_ne_true
  | @begun ticket hold =>
    refine .took ?_ rfl ?_
    · rw [givesBack_iff hold]
      exact Bool.false_ne_true
    · have hset := sum_guards_set hold (.started ticket dispatcher.work.activities.length)
      simp only [Task.guards] at hset
      simp only [guardsHeld, start, setTask, record]
      omega
  | @worked task activity hold hactivity hopen =>
    refine .kept ?_ rfl rfl
    rw [givesBack_iff hold]
    cases task <;> cases hactivity <;> simp [givesBack, hopen]
  | @finished ticket activity hold hdone =>
    refine .gaveBack ((givesBack_iff hold).mpr hdone) rfl ?_
    have hset := sum_guards_set hold (.applied ticket)
    simp only [Task.guards] at hset
    simp only [guardsHeld, finish, setTask, record]
    omega
  | ended hold =>
    refine .gaveBack ((givesBack_iff hold).mpr rfl) rfl ?_
    have herase := sum_guards_eraseIdx hold
    simp only [Task.guards] at herase
    simp only [guardsHeld, endTask]
    omega
  | endedDirectly hold hdone =>
    refine .gaveBack ((givesBack_iff hold).mpr hdone) rfl ?_
    have herase := sum_guards_eraseIdx hold
    simp only [Task.guards] at herase
    simp only [guardsHeld, endTask]
    omega

theorem MovesTo.isBalanced {next : Move} (h : dispatcher.MovesTo next after) :
    IsBalanced dispatcher after (dispatcher.GivesBack next) := by
  cases h with
  | advanced hstep => exact hstep.isBalanced
  | handedIn change => exact .took id rfl (guardsHeld_addTask rfl)
  | startedDirectly change => exact .took id rfl (guardsHeld_addTask rfl)
  | tookGuard => exact .took id rfl (Nat.add_assoc _ _ _).symm
  | hadNoGuard hnone => exact .kept (fun hgives ↦ hgives hnone) rfl rfl
  | gaveGuardBack hsome =>
    refine .gaveBack hsome rfl ?_
    simp only [guardsHeld]
    omega

/-- Assumes: the barrier counts the guards that are held. It does so after a move too, and a move that gives
a guard back takes one from the count. -/
theorem pending_move (h : dispatcher.pending = dispatcher.guardsHeld) (next : Move) :
    (dispatcher.move next).pending = (dispatcher.move next).guardsHeld ∧
      (dispatcher.GivesBack next → (dispatcher.move next).pending + 1 = dispatcher.pending) := by
  unfold pending at h ⊢
  cases (dispatcher.movesTo_move next).isBalanced with
  | gaveBack hgives hbarrier hguards =>
    simp only [hbarrier, Barrier.giveBack]
    exact ⟨by omega, fun _ ↦ by omega⟩
  | took hkeeps hbarrier hguards =>
    simp only [hbarrier, Barrier.take]
    exact ⟨by omega, fun hgives ↦ absurd hgives hkeeps⟩
  | kept hkeeps hbarrier hguards =>
    rw [hbarrier]
    exact ⟨by omega, fun hgives ↦ absurd hgives hkeeps⟩

/-- The barrier counts the guards that are held. -/
theorem pending_run (index : Index) (moves : List Move) :
    ((idle index).run moves).pending = ((idle index).run moves).guardsHeld := by
  have hrun : ∀ (moves : List Move) (dispatcher : Dispatcher),
      dispatcher.pending = dispatcher.guardsHeld →
        (dispatcher.run moves).pending = (dispatcher.run moves).guardsHeld := by
    intro moves
    induction moves with
    | nil => exact fun _ h ↦ h
    | cons next moves ih => exact fun dispatcher h ↦ ih _ (pending_move h next).1
  exact hrun moves _ rfl

/-- A task holds a guard, so none is left when no guard is held. -/
theorem tasks_eq_nil_of_guardsHeld (h : dispatcher.guardsHeld = 0) : dispatcher.tasks = [] := by
  cases htasks : dispatcher.tasks with
  | nil => rfl
  | cons task tasks =>
    have hpos : 0 < task.guards := by cases task <;> exact Nat.succ_pos _
    simp only [guardsHeld, htasks, List.map_cons, List.sum_cons] at h
    omega

/-! ### When the barrier is clear -/

theorem tasks_run_eq_nil {index : Index} {moves : List Move} (hclear : ((idle index).run moves).pending = 0) :
    ((idle index).run moves).tasks = [] :=
  tasks_eq_nil_of_guardsHeld ((pending_run index moves).symm.trans hclear)

section Clear

variable {index : Index} (hsound : index.cache.IsSound) (hsettled : index.IsSettled) {moves : List Move}
  (hclear : ((idle index).run moves).pending = 0)

include hsound hsettled hclear

/-- Assumes: a sound and settled index. It is settled again whenever the barrier is clear. -/
theorem isSettled_run : ((idle index).run moves).index.IsSettled :=
  (isConsistent_run hsound hsettled moves).isSettled_of_isQuiet
    ((isCarried_run index moves).isQuiet (tasks_run_eq_nil hclear))

/-- Assumes: a sound and settled index. What a query finds once the barrier is clear is coherent. -/
theorem isCoherent_run : ((idle index).run moves).index.IsCoherent :=
  Index.isCoherent (isConsistent_run hsound hsettled moves).isSound (isSettled_run hsound hsettled hclear)

end Clear

/-- Every path in flight is a spelling of its location. -/
theorem isSpelled_inFlight_move {next : Move} (h : dispatcher.inFlight.IsSpelled)
    (hmove : dispatcher.MovesTo next after) : after.inFlight.IsSpelled := by
  cases hmove with
  | advanced hstep =>
    cases hstep with
    | parked | entered | resumed => exact PathMap.isSpelled_set h _ _
    | left => exact PathMap.isSpelled_erase h _
    | _ => exact h
  | _ => exact h

/-- Assumes: tickets in increasing order. The last of them is the given one or comes after it. -/
theorem exists_last_of_mem {tickets : List Ticket} {ticket : Ticket}
    (h : tickets.Pairwise fun earlier later ↦ earlier.number < later.number) (hmem : ticket ∈ tickets) :
    ∃ last, tickets.getLast? = some last ∧ (last = ticket ∨ ticket.number < last.number) := by
  obtain ⟨front, last, rfl⟩ := List.eq_nil_or_concat' tickets |>.resolve_left (List.ne_nil_of_mem hmem)
  refine ⟨last, List.getLast?_concat, ?_⟩
  rcases List.mem_append.mp hmem with hfront | hlast
  · exact .inr ((List.pairwise_append.mp h).2.2 ticket hfront last (List.mem_singleton_self last))
  · exact .inl (List.mem_singleton.mp hlast).symm

/-- When no task is left every change that was entered is finished, or a later one of the same path is. -/
theorem IsSerial.exists_finished (h : dispatcher.IsSerial) (hdone : dispatcher.tasks = [])
    {ticket : Ticket} (hentered : ticket ∈ dispatcher.entered) :
    ∃ last ∈ dispatcher.finished,
      last = ticket ∨ last.isAt ticket.change.path = true ∧ ticket.number < last.number := by
  have hat : ticket ∈ dispatcher.enteredAt ticket.change.path :=
    List.mem_filter.mpr ⟨hentered, Ticket.isAt_iff.mpr rfl⟩
  obtain ⟨last, hlast, hlater⟩ := exists_last_of_mem (h.increasing_enteredAt ticket.change.path) hat
  rw [← ((h.servesInOrder ticket.change.path).settled hdone).2.1] at hlast
  obtain ⟨hfinished, hsame⟩ := List.mem_filter.mp (List.mem_of_getLast? hlast)
  exact ⟨last, hfinished, hlater.imp_right fun hless ↦ ⟨hsame, hless⟩⟩

/-- When no task is left no path is in flight, so nothing is parked either. -/
theorem IsSerial.inFlight_eq_empty (h : dispatcher.IsSerial) (hspelled : dispatcher.inFlight.IsSpelled)
    (hdone : dispatcher.tasks = []) : dispatcher.inFlight = ∅ := by
  refine PathMap.ext fun location ↦ ?_
  rw [show (∅ : PathMap (Option Ticket)).entries[location]? = none from Std.ExtTreeMap.getElem?_empty]
  by_contra hsome
  obtain ⟨stored, hstored⟩ := Option.ne_none_iff_exists'.mp hsome
  have hfree := ((h.servesInOrder stored.1).settled hdone).2.2
  rw [PathMap.find?, PathMap.stored?, hspelled location stored hstored, hstored] at hfree
  cases hfree

/-- A change that has come in has an activity, which has taken all its steps when no change is in progress. -/
theorem exists_finished_of_arrived {index : Index} {steps : List ConcurrentIndex.Move}
    (hquiet : ((ConcurrentIndex.quiet index).run steps).IsQuiet) {change : Change}
    (hmem : change ∈ steps.filterMap ConcurrentIndex.Move.arrived?) :
    ∃ activity : Nat, (steps.filterMap ConcurrentIndex.Move.arrived?)[activity]? = some change ∧
      ((ConcurrentIndex.quiet index).run steps).activities[activity]? = some .finished := by
  obtain ⟨activity, hactivity⟩ := List.getElem?_of_mem hmem
  have hlength : ((ConcurrentIndex.quiet index).run steps).activities.length =
      (steps.filterMap ConcurrentIndex.Move.arrived?).length :=
    (ConcurrentIndex.length_activities_run _ steps).trans (Nat.zero_add _)
  have hless := hlength ▸ (List.getElem?_eq_some_iff.mp hactivity).1
  refine ⟨activity, hactivity, ?_⟩
  rw [List.getElem?_eq_getElem hless, hquiet _ (List.getElem_mem hless)]

/-- Whatever moves have been made, the barrier counts the guards that are held, and there is one to give back
whenever one is given back. The changes that have come in are those that were begun and those that were started
outside of the order of their paths. When the barrier counts none, no task is left, no path is in flight and no
change is in progress; the changes that were handed in are those that have been entered, and each of them, or a
later change of the same path, has come in and its activity has taken all its steps. Whatever else is moved,
the index goes on from what these steps have made of it. -/
theorem covers_run (index : Index) (moves : List Move) :
    let state := (idle index).run moves
    let steps := (idle index).workMoves moves
    state.pending = state.guardsHeld ∧
      (∀ next, state.GivesBack next → (state.move next).pending + 1 = state.pending) ∧
      (steps.filterMap ConcurrentIndex.Move.arrived?).Perm
        (state.begun.map Ticket.change ++ moves.filterMap Move.startedDirectly?) ∧
      (state.pending = 0 → state.tasks = [] ∧ state.inFlight = ∅ ∧ state.work.IsQuiet ∧
        (state.entered.map Ticket.change).Perm (moves.filterMap Move.handedIn?) ∧
        ∀ ticket ∈ state.entered, ∃ last ∈ state.finished,
          (last = ticket ∨ last.isAt ticket.change.path = true ∧ ticket.number < last.number) ∧
            ∃ activity : Nat, (steps.filterMap ConcurrentIndex.Move.arrived?)[activity]? = some last.change ∧
              state.work.activities[activity]? = some .finished) ∧
      ∀ more, (state.run more).work =
        (ConcurrentIndex.quiet index).run (steps ++ state.workMoves more) := by
  intro state steps
  have hpending : state.pending = state.guardsHeld := pending_run index moves
  have hserial : state.IsSerial := isSerial_run index moves
  have hwork : state.work = (ConcurrentIndex.quiet index).run steps := work_run (idle index) moves
  have harrived : (steps.filterMap ConcurrentIndex.Move.arrived?).Perm
      (state.begun.map Ticket.change ++ moves.filterMap Move.startedDirectly?) :=
    (arrived_workMoves (idle index) moves).symm
  refine ⟨hpending, fun next ↦ (pending_move hpending next).2, harrived, fun hclear ↦ ?_, fun more ↦ ?_⟩
  · have hdone : state.tasks = [] := tasks_run_eq_nil hclear
    have haccounted := isAccountedFor_run index moves
    have hquiet : state.work.IsQuiet := (isCarried_run index moves).isQuiet hdone
    have hspelled : state.inFlight.IsSpelled :=
      run_induction (fun dispatcher ↦ dispatcher.inFlight.IsSpelled) PathMap.isSpelled_empty
        isSpelled_inFlight_move moves
    rw [IsAccountedFor, hdone, List.filterMap_nil, List.append_nil] at haccounted
    refine ⟨hdone, hserial.inFlight_eq_empty hspelled hdone, hquiet, haccounted, fun ticket hticket ↦ ?_⟩
    obtain ⟨last, hlast, hlater⟩ := hserial.exists_finished hdone hticket
    refine ⟨last, hlast, hlater, ?_⟩
    have hbegun : last ∈ state.begun := (List.mem_filter.mp (hserial.mem_begunAt_of_finished hlast)).1
    have hcame : last.change ∈ steps.filterMap ConcurrentIndex.Move.arrived? :=
      harrived.symm.subset (List.mem_append_left _ (List.mem_map_of_mem hbegun))
    rw [hwork] at hquiet ⊢
    exact exists_finished_of_arrived hquiet hcame
  · rw [work_run state more, hwork]
    exact List.foldl_append.symm

/-- Three changes of a path, of which the second and the third come in while the first is worked off, and
a guard that somebody else holds meanwhile. -/
def threeChanges : List Move :=
  let advances (positions : List Nat) : List Move :=
    positions.map fun position ↦ .advance position fun _ ↦ .error .notFound
  [.takeGuard, .handIn (.remove ⟨"a.spec"⟩), .handIn (.write ⟨"a.spec"⟩),
      .handIn (.remove ⟨"a.spec"⟩)] ++ advances [0, 0, 1, 2, 0, 0, 0, 0, 0, 0, 0, 0, 0] ++
    [.giveGuardBack] ++ advances [0]

/-- The second change has given way to the third one when the barrier is clear. -/
theorem covers_run_threeChanges :
    let state := (idle (.new [])).run threeChanges
    state.pending = 0 ∧ ⟨1, .write ⟨"a.spec"⟩⟩ ∈ state.entered ∧ state.tasks = [] ∧
      ∃ last ∈ state.finished,
        last = ⟨1, .write ⟨"a.spec"⟩⟩ ∨ last.isAt ⟨"a.spec"⟩ = true ∧ 1 < last.number := by
  intro state
  have hclear : state.pending = 0 := by decide +kernel
  have hentered : ⟨1, .write ⟨"a.spec"⟩⟩ ∈ state.entered := by decide +kernel
  obtain ⟨hdone, -, -, -, hsettled⟩ := (covers_run (.new []) threeChanges).2.2.2.1 hclear
  obtain ⟨last, hlast, hlater, -⟩ := hsettled _ hentered
  exact ⟨hclear, hentered, hdone, last, hlast, hlater⟩

end Dispatcher

end LiveSpec
