import LiveSpec.Proofs.Index.Scheduling
import LiveSpec.Proofs.Path.Map
import Mathlib.Data.List.Nodup

/-!
# Changes of one path are worked off in order

Whatever tasks run side by side, the changes that are dispatched for one path are worked off one at a
time, in the order in which they were entered, each at most once, and the last one is never left out
(`Dispatcher.ServesInOrder`). The changes that are entered are those that are handed in
(`Dispatcher.IsAccountedFor`), and the changes that come in at the index are those that are begun. All of this
holds after any moves (`Dispatcher.servesInOrder_run`).

What carries this is that a path in flight has exactly one owner: the task that has a change of the path
in hand. The changes that were begun, the one that the owner still has to begin and the one that is
parked are what is left of the changes that were entered when some but the last are taken out
(`IsThinnedTo`). Entering a change parks it behind these in the place of the one that was parked, or makes
a new owner; both keep the last change (`Dispatcher.IsSerial`).
-/

set_option autoImplicit false

namespace LiveSpec

/-! ### What happened to the tickets of a path -/

/-- The change of a ticket is about a location. -/
def Ticket.isAt (path : Path) (ticket : Ticket) : Bool :=
  ticket.change.path.location = path.location

namespace Dispatcher

/-- The tickets of a path in the order in which they were entered. -/
def enteredAt (dispatcher : Dispatcher) (path : Path) : List Ticket :=
  dispatcher.entered.filter (Ticket.isAt path)

/-- The tickets of a path in the order in which they were begun. -/
def begunAt (dispatcher : Dispatcher) (path : Path) : List Ticket :=
  dispatcher.begun.filter (Ticket.isAt path)

/-- The tickets of a path in the order in which they were finished. -/
def finishedAt (dispatcher : Dispatcher) (path : Path) : List Ticket :=
  dispatcher.finished.filter (Ticket.isAt path)

/-- The task at a position is working off a change of a path. -/
def IsRunning (dispatcher : Dispatcher) (path : Path) (position : Nat) : Prop :=
  ∃ ticket activity, dispatcher.tasks[position]? = some (.started ticket activity) ∧
    ticket.isAt path = true

/-- A ticket will still be begun: a task has it in hand, or it is parked. -/
def IsAwaiting (dispatcher : Dispatcher) (ticket : Ticket) : Prop :=
  Task.queued ticket ∈ dispatcher.tasks ∨
    dispatcher.inFlight.find? ticket.change.path = some (some ticket)

/-- The changes of a path are worked off in order. -/
structure ServesInOrder (dispatcher : Dispatcher) (path : Path) : Prop where
  /-- One task at most is working off a change of the path. -/
  running_unique : ∀ position other, dispatcher.IsRunning path position →
    dispatcher.IsRunning path other → position = other
  /-- The tickets were given out in the order in which the changes were entered. -/
  entered_increasing : (dispatcher.enteredAt path).Pairwise fun earlier later ↦
    earlier.number < later.number
  /-- The changes that were begun are some of those that were entered, in the same order. -/
  begun_sublist : (dispatcher.begunAt path).Sublist (dispatcher.enteredAt path)
  /-- No change is begun twice. -/
  begun_nodup : (dispatcher.begunAt path).Nodup
  /-- The changes that are finished were begun in the same order. -/
  finished_sublist : (dispatcher.finishedAt path).Sublist (dispatcher.begunAt path)
  /-- A change that is neither begun nor awaited was followed by a later one. -/
  later_of_skipped : ∀ ticket ∈ dispatcher.enteredAt path, ticket ∉ dispatcher.begunAt path →
    ¬ dispatcher.IsAwaiting ticket →
      ∃ later ∈ dispatcher.enteredAt path, ticket.number < later.number
  /-- When no task is left, all that was begun is finished, the last change that was finished is the last
  one that was entered, and the path is not in flight. -/
  settled : dispatcher.tasks = [] → dispatcher.finishedAt path = dispatcher.begunAt path ∧
    (dispatcher.finishedAt path).getLast? = (dispatcher.enteredAt path).getLast? ∧
      dispatcher.inFlight.find? path = none

end Dispatcher

/-! ### Leaving out all but the last -/

/-- Some elements of a list, in order, with the last one among them. -/
structure IsThinnedTo (all left : List Ticket) : Prop where
  sublist : left.Sublist all
  getLast?_eq : left.getLast? = all.getLast?

/-- A new last element is kept, whatever was left out before. -/
theorem isThinnedTo_append {all left : List Ticket} (h : left.Sublist all) (ticket : Ticket) :
    IsThinnedTo (all ++ [ticket]) (left ++ [ticket]) := by
  refine ⟨h.append (List.Sublist.refl [ticket]), ?_⟩
  rw [List.getLast?_append, List.getLast?_append]
  rfl

/-- Assumes: tickets in increasing order. One that was left out has a later one. -/
theorem IsThinnedTo.exists_later {all left : List Ticket} (h : IsThinnedTo all left)
    (hincreasing : all.Pairwise fun earlier later ↦ earlier.number < later.number) {ticket : Ticket}
    (hmem : ticket ∈ all) (hleft : ticket ∉ left) :
    ∃ later ∈ all, ticket.number < later.number := by
  obtain ⟨front, last, rfl⟩ := List.eq_nil_or_concat' all |>.resolve_left (List.ne_nil_of_mem hmem)
  have hlast : last ∈ left := by
    refine List.mem_of_getLast? ?_
    rw [h.getLast?_eq, List.getLast?_append]
    rfl
  have hfront : ticket ∈ front := by
    rcases List.mem_append.mp hmem with hfront | hsame
    · exact hfront
    · rw [List.mem_singleton.mp hsame] at hleft
      exact absurd hlast hleft
  have hless := (List.pairwise_append.mp hincreasing).2.2 ticket hfront last (List.mem_singleton_self last)
  exact ⟨last, List.mem_append_right front (List.mem_singleton_self last), hless⟩

/-! ### The owner of a path -/

namespace Task

/-- The task has a change of a path in hand. -/
def isOwnerOf (path : Path) (task : Task) : Bool := task.ticket?.any (Ticket.isAt path)

/-- What a task still has to begin. -/
def awaited : Task → List Ticket
  | queued ticket => [ticket]
  | _ => []

/-- What a task has begun and not finished. -/
def running : Task → List Ticket
  | started ticket _ => [ticket]
  | _ => []

end Task

theorem Ticket.isAt_iff {path : Path} {ticket : Ticket} :
    ticket.isAt path = true ↔ ticket.change.path.location = path.location :=
  decide_eq_true_iff

namespace Dispatcher

variable {dispatcher after : Dispatcher} {path : Path} {position : Nat} {old : Task} {contents : Contents}

/-- The tasks that have a change of a path in hand. -/
def ownersOf (dispatcher : Dispatcher) (path : Path) : List Task :=
  dispatcher.tasks.filter (Task.isOwnerOf path)

/-- The change that is parked at a path, if there is one. -/
def parkedAt (dispatcher : Dispatcher) (path : Path) : List Ticket :=
  (dispatcher.inFlight.find? path).join.toList

/-- A path has an owner exactly while it is in flight, what was begun is finished or running, and what was
begun, what the owner will begin and what is parked are the changes that were entered, with all but the
last left out where there was no time for them. -/
structure IsSerialAt (dispatcher : Dispatcher) (path : Path) : Prop where
  length_owners : (dispatcher.ownersOf path).length =
    if dispatcher.inFlight.contains path then 1 else 0
  finished_append_running : dispatcher.finishedAt path ++
    (dispatcher.ownersOf path).flatMap Task.running = dispatcher.begunAt path
  isThinnedTo : IsThinnedTo (dispatcher.enteredAt path) (dispatcher.begunAt path ++
    (dispatcher.ownersOf path).flatMap Task.awaited ++ dispatcher.parkedAt path)

/-- Every path is served in order, and tickets are given out in increasing order. -/
structure IsSerial (dispatcher : Dispatcher) : Prop where
  serialAt : ∀ path, dispatcher.IsSerialAt path
  increasing : dispatcher.entered.Pairwise fun earlier later ↦ earlier.number < later.number
  number_lt : ∀ ticket ∈ dispatcher.entered, ticket.number < dispatcher.tickets

/-- A task that is no owner takes a step and is none after it. -/
theorem filter_set_of_not_isOwnerOf (h : dispatcher.tasks[position]? = some old) {new : Task}
    (hold : old.isOwnerOf path = false) (hnew : new.isOwnerOf path = false) :
    (dispatcher.tasks.set position new).filter (Task.isOwnerOf path) = dispatcher.ownersOf path := by
  obtain ⟨front, back, htasks, hset, -⟩ := exists_around h
  rw [hset, ownersOf, htasks, List.filter_append, List.filter_append,
    List.filter_cons_of_neg (by simp [hnew]), List.filter_cons_of_neg (by simp [hold])]

/-- A task that is no owner ends. -/
theorem filter_eraseIdx_of_not_isOwnerOf (h : dispatcher.tasks[position]? = some old)
    (hold : old.isOwnerOf path = false) :
    (dispatcher.tasks.eraseIdx position).filter (Task.isOwnerOf path) =
      dispatcher.ownersOf path := by
  obtain ⟨front, back, htasks, -, herase⟩ := exists_around h
  rw [herase, ownersOf, htasks, List.filter_append, List.filter_append,
    List.filter_cons_of_neg (by simp [hold])]

/-- A task becomes the owner of a path that had none. -/
theorem filter_set_of_ownersOf_eq_nil (h : dispatcher.tasks[position]? = some old)
    (hnone : dispatcher.ownersOf path = []) (new : Task) :
    (dispatcher.tasks.set position new).filter (Task.isOwnerOf path) =
      [new].filter (Task.isOwnerOf path) := by
  obtain ⟨front, back, htasks, hset, -⟩ := exists_around h
  rw [ownersOf, htasks, List.filter_append, List.append_eq_nil_iff] at hnone
  obtain ⟨hfront, hback⟩ := hnone
  rw [List.filter_eq_nil_iff] at hback
  have hrest : back.filter (Task.isOwnerOf path) = [] :=
    List.filter_eq_nil_iff.mpr fun task htask ↦ hback task (List.mem_cons_of_mem old htask)
  simp only [hset, List.filter_append, List.filter_cons, List.filter_nil, hfront, hrest,
    List.nil_append]

/-- The only owner of a path takes a step. -/
theorem filter_set_of_ownersOf_eq (h : dispatcher.tasks[position]? = some old)
    (hold : old.isOwnerOf path = true) (halone : (dispatcher.ownersOf path).length ≤ 1) (new : Task) :
    dispatcher.ownersOf path = [old] ∧
      (dispatcher.tasks.set position new).filter (Task.isOwnerOf path) =
        [new].filter (Task.isOwnerOf path) := by
  obtain ⟨front, back, htasks, hset, -⟩ := exists_around h
  have howners : dispatcher.ownersOf path =
      front.filter (Task.isOwnerOf path) ++ old :: back.filter (Task.isOwnerOf path) := by
    rw [ownersOf, htasks, List.filter_append, List.filter_cons_of_pos hold]
  rw [howners, List.length_append, List.length_cons] at halone
  have hfront : front.filter (Task.isOwnerOf path) = [] := List.eq_nil_of_length_eq_zero (by omega)
  have hback : back.filter (Task.isOwnerOf path) = [] := List.eq_nil_of_length_eq_zero (by omega)
  constructor
  · rw [howners, hfront, hback, List.nil_append]
  · simp only [hset, List.filter_append, List.filter_cons, List.filter_nil, hfront, hback,
      List.nil_append]

/-! ### The journal -/

theorem enteredAt_record (event : DispatchEvent) : (dispatcher.record event).enteredAt path =
    dispatcher.enteredAt path ++ event.entered?.toList.filter (Ticket.isAt path) := by
  rw [enteredAt, entered_record, List.filter_append, enteredAt]

theorem begunAt_record (event : DispatchEvent) : (dispatcher.record event).begunAt path =
    dispatcher.begunAt path ++ event.begun?.toList.filter (Ticket.isAt path) := by
  rw [begunAt, begun_record, List.filter_append, begunAt]

theorem finishedAt_record (event : DispatchEvent) : (dispatcher.record event).finishedAt path =
    dispatcher.finishedAt path ++ event.finished?.toList.filter (Ticket.isAt path) := by
  rw [finishedAt, finished_record, List.filter_append, finishedAt]

/-! ### What each step preserves -/

namespace IsSerialAt

variable {ticket : Ticket} {activity : Nat}

/-- What is seen of a path is unchanged. -/
theorem of_same (h : dispatcher.IsSerialAt path)
    (howners : after.ownersOf path = dispatcher.ownersOf path)
    (hinFlight : after.inFlight.find? path = dispatcher.inFlight.find? path)
    (hentered : after.enteredAt path = dispatcher.enteredAt path)
    (hbegun : after.begunAt path = dispatcher.begunAt path)
    (hfinished : after.finishedAt path = dispatcher.finishedAt path) : after.IsSerialAt path := by
  constructor
  · rw [howners, PathMap.contains_eq_isSome, hinFlight, ← PathMap.contains_eq_isSome]
    exact h.length_owners
  · rw [hfinished, howners, hbegun]
    exact h.finished_append_running
  · rw [hentered, hbegun, howners, parkedAt, hinFlight]
    exact h.isThinnedTo

theorem length_owners_le (h : dispatcher.IsSerialAt path) :
    (dispatcher.ownersOf path).length ≤ 1 := by
  rw [h.length_owners]
  split <;> omega

/-- A task that has a change of the path in hand is the only owner, and the path is in flight. -/
theorem owner (h : dispatcher.IsSerialAt path) (hold : dispatcher.tasks[position]? = some old)
    (howner : old.isOwnerOf path = true) :
    dispatcher.ownersOf path = [old] ∧ dispatcher.inFlight.contains path = true := by
  obtain ⟨howners, -⟩ := filter_set_of_ownersOf_eq hold howner h.length_owners_le old
  refine ⟨howners, ?_⟩
  have hlength := h.length_owners
  rw [howners, List.length_singleton] at hlength
  split at hlength
  · assumption
  · omega

/-- Assumes: a step of the owner of the path after which it is still the owner and the path is in flight.
It is enough to follow what the owner has in hand. -/
theorem of_owner (h : dispatcher.IsSerialAt path) (hold : dispatcher.tasks[position]? = some old)
    (howner : old.isOwnerOf path = true) {new : Task}
    (htasks : after.tasks = dispatcher.tasks.set position new) (hnew : new.isOwnerOf path = true)
    (hinFlight : after.inFlight.contains path = true)
    (hrunning : dispatcher.finishedAt path ++ old.running = dispatcher.begunAt path →
      after.finishedAt path ++ new.running = after.begunAt path)
    (hawaited : IsThinnedTo (dispatcher.enteredAt path)
        (dispatcher.begunAt path ++ old.awaited ++ dispatcher.parkedAt path) →
      IsThinnedTo (after.enteredAt path)
        (after.begunAt path ++ new.awaited ++ after.parkedAt path)) : after.IsSerialAt path := by
  obtain ⟨howners, hset⟩ := filter_set_of_ownersOf_eq hold howner h.length_owners_le new
  have hafter : after.ownersOf path = [new] := by
    rw [ownersOf, htasks, hset, List.filter_cons_of_pos hnew, List.filter_nil]
  have hfinished := h.finished_append_running
  have hthinned := h.isThinnedTo
  rw [howners, List.flatMap_singleton] at hfinished hthinned
  constructor
  · rw [hafter, if_pos hinFlight]
    rfl
  · rw [hafter, List.flatMap_singleton]
    exact hrunning hfinished
  · rw [hafter, List.flatMap_singleton]
    exact hawaited hthinned

/-- Assumes: a step of the owner of the path after which nobody is the owner and the path is not in flight,
while nothing is parked and nothing is left to begin or to finish. -/
theorem of_leaving (h : dispatcher.IsSerialAt path) (hold : dispatcher.tasks[position]? = some old)
    (howner : old.isOwnerOf path = true) {new : Task}
    (htasks : after.tasks = dispatcher.tasks.set position new) (hnew : new.isOwnerOf path = false)
    (hjournal : after.journal = dispatcher.journal) (hinFlight : after.inFlight.find? path = none)
    (hparked : dispatcher.parkedAt path = []) (hrunning : old.running = [])
    (hawaited : old.awaited = []) : after.IsSerialAt path := by
  obtain ⟨howners, hset⟩ := filter_set_of_ownersOf_eq hold howner h.length_owners_le new
  have hafter : after.ownersOf path = [] := by
    rw [ownersOf, htasks, hset, List.filter_cons_of_neg (by simp [hnew]), List.filter_nil]
  have hfinished := h.finished_append_running
  have hthinned := h.isThinnedTo
  rw [howners, List.flatMap_singleton] at hfinished hthinned
  rw [hrunning, List.append_nil] at hfinished
  rw [hawaited, hparked, List.append_nil, List.append_nil] at hthinned
  have hentered : after.enteredAt path = dispatcher.enteredAt path := by
    simp only [enteredAt, entered, hjournal]
  have hbegun : after.begunAt path = dispatcher.begunAt path := by simp only [begunAt, begun, hjournal]
  constructor
  · rw [hafter, PathMap.contains_eq_isSome, hinFlight]
    rfl
  · rw [hafter, List.flatMap_nil, List.append_nil, hbegun, ← hfinished]
    simp only [finishedAt, finished, hjournal]
  · rw [hafter, List.flatMap_nil, parkedAt, hinFlight, Option.join_none, Option.toList_none,
      List.append_nil, List.append_nil, hentered, hbegun]
    exact hthinned

/-- A parked change is about the path that it is parked at. -/
theorem isAt_of_parked (h : dispatcher.IsSerialAt path)
    (hparked : dispatcher.inFlight.find? path = some (some ticket)) : ticket.isAt path = true := by
  have hmem : ticket ∈ dispatcher.enteredAt path := by
    refine h.isThinnedTo.sublist.subset (List.mem_append_right _ ?_)
    rw [parkedAt, hparked]
    exact List.mem_singleton_self ticket
  exact (List.mem_filter.mp hmem).2

theorem start (h : dispatcher.IsSerialAt path)
    (hold : dispatcher.tasks[position]? = some (.queued ticket)) :
    (dispatcher.start position ticket).IsSerialAt path := by
  have hentered : (dispatcher.start position ticket).enteredAt path =
      dispatcher.enteredAt path := by
    rw [Dispatcher.start, enteredAt_record]
    exact List.append_nil _
  have hfinished : (dispatcher.start position ticket).finishedAt path =
      dispatcher.finishedAt path := by
    rw [Dispatcher.start, finishedAt_record]
    exact List.append_nil _
  have hbegun : (dispatcher.start position ticket).begunAt path =
      dispatcher.begunAt path ++ [ticket].filter (Ticket.isAt path) := by
    rw [Dispatcher.start, begunAt_record]
    rfl
  by_cases hat : ticket.isAt path = true
  · rw [List.filter_cons_of_pos hat, List.filter_nil] at hbegun
    have hnew : (Task.started ticket dispatcher.work.activities.length).isOwnerOf path = true := hat
    refine h.of_owner hold hat rfl hnew (h.owner hold hat).2 ?_ ?_
    · intro hrunning
      rw [hfinished, hbegun, ← hrunning]
      exact congrArg (· ++ [ticket]) (List.append_nil _).symm
    · intro hthinned
      rw [hentered, hbegun]
      change IsThinnedTo _ (_ ++ [] ++ dispatcher.parkedAt path)
      rw [List.append_nil]
      exact hthinned
  · have hnot : ticket.isAt path = false := Bool.eq_false_iff.mpr hat
    refine h.of_same (filter_set_of_not_isOwnerOf hold hnot hnot) rfl hentered ?_ hfinished
    rw [hbegun, List.filter_cons_of_neg hat]
    exact List.append_nil _

theorem finish (h : dispatcher.IsSerialAt path)
    (hold : dispatcher.tasks[position]? = some (.started ticket activity)) :
    (dispatcher.finish position ticket).IsSerialAt path := by
  have hentered : (dispatcher.finish position ticket).enteredAt path =
      dispatcher.enteredAt path := by
    rw [Dispatcher.finish, enteredAt_record]
    exact List.append_nil _
  have hbegun : (dispatcher.finish position ticket).begunAt path =
      dispatcher.begunAt path := by
    rw [Dispatcher.finish, begunAt_record]
    exact List.append_nil _
  have hfinished : (dispatcher.finish position ticket).finishedAt path =
      dispatcher.finishedAt path ++ [ticket].filter (Ticket.isAt path) := by
    rw [Dispatcher.finish, finishedAt_record]
    rfl
  by_cases hat : ticket.isAt path = true
  · rw [List.filter_cons_of_pos hat, List.filter_nil] at hfinished
    have hnew : (Task.applied ticket).isOwnerOf path = true := hat
    refine h.of_owner hold hat rfl hnew (h.owner hold hat).2 ?_ ?_
    · intro hrunning
      rw [hfinished, hbegun, ← hrunning]
      exact List.append_nil _
    · intro hthinned
      rw [hentered, hbegun]
      exact hthinned
  · have hnot : ticket.isAt path = false := Bool.eq_false_iff.mpr hat
    refine h.of_same (filter_set_of_not_isOwnerOf hold hnot hnot) rfl hentered hbegun ?_
    rw [hfinished, List.filter_cons_of_neg hat]
    exact List.append_nil _

/-- The owner goes on with the change that is parked at its path. -/
theorem proceed_parked (h : ∀ path, dispatcher.IsSerialAt path) {next : Ticket}
    (hold : dispatcher.tasks[position]? = some (.applied ticket))
    (hparked : dispatcher.inFlight.find? ticket.change.path = some (some next)) (path : Path) :
    ({ dispatcher with inFlight := dispatcher.inFlight.set ticket.change.path none }.setTask position
      (.queued next)).IsSerialAt path := by
  have hnext := Ticket.isAt_iff.mp ((h ticket.change.path).isAt_of_parked hparked)
  by_cases hat : ticket.isAt path = true
  · have hsame := Ticket.isAt_iff.mp hat
    have hnew : (Task.queued next).isOwnerOf path = true :=
      Ticket.isAt_iff.mpr (hnext.trans hsame)
    have hparkedAt : dispatcher.parkedAt path = [next] := by
      rw [parkedAt, ← PathMap.find?_congr hsame, hparked]
      rfl
    refine (h path).of_owner hold hat rfl hnew (PathMap.contains_set.mpr (Or.inl hsame)) id ?_
    intro hthinned
    rw [hparkedAt] at hthinned
    change IsThinnedTo _ (dispatcher.begunAt path ++ [next] ++
      ((dispatcher.inFlight.set ticket.change.path none).find? path).join.toList)
    rw [PathMap.find?_set, if_pos hsame]
    change IsThinnedTo _ (dispatcher.begunAt path ++ [next] ++ [])
    rw [List.append_nil]
    change IsThinnedTo _ (dispatcher.begunAt path ++ [] ++ [next]) at hthinned
    rw [List.append_nil] at hthinned
    exact hthinned
  · have hother : ¬ ticket.change.path.location = path.location := fun hsame ↦
      hat (Ticket.isAt_iff.mpr hsame)
    have hnot : (Task.queued next).isOwnerOf path = false :=
      decide_eq_false (hnext ▸ hother)
    refine (h path).of_same
      (filter_set_of_not_isOwnerOf hold (Bool.eq_false_iff.mpr hat) hnot) ?_ rfl rfl rfl
    exact (PathMap.find?_set _ _ _ _).trans (if_neg hother)

/-- The owner finds nothing parked, and its path is no longer in flight. -/
theorem proceed_leaving (h : dispatcher.IsSerialAt path)
    (hold : dispatcher.tasks[position]? = some (.applied ticket))
    (hnone : ∀ next, dispatcher.inFlight.find? ticket.change.path ≠ some (some next)) :
    ({ dispatcher with inFlight := dispatcher.inFlight.erase ticket.change.path }.setTask position
      .leaving).IsSerialAt path := by
  have hleaving : Task.leaving.isOwnerOf path = false := rfl
  by_cases hat : ticket.isAt path = true
  · have hsame := Ticket.isAt_iff.mp hat
    have hparkedAt : dispatcher.parkedAt path = [] := by
      rw [parkedAt, ← PathMap.find?_congr hsame]
      cases hfound : dispatcher.inFlight.find? ticket.change.path with
      | none => rfl
      | some parked =>
        cases parked with
        | none => rfl
        | some next => exact absurd hfound (hnone next)
    exact h.of_leaving hold hat rfl hleaving rfl ((PathMap.find?_erase _ _ _).trans (if_pos hsame))
      hparkedAt rfl rfl
  · have hother : ¬ ticket.change.path.location = path.location := fun hsame ↦
      hat (Ticket.isAt_iff.mpr hsame)
    refine h.of_same (filter_set_of_not_isOwnerOf hold (Bool.eq_false_iff.mpr hat) hleaving) ?_
      rfl rfl rfl
    exact (PathMap.find?_erase _ _ _).trans (if_neg hother)

/-- A change is entered for a path that is in flight: it takes the place of the one that was parked. -/
theorem enter_parked (h : dispatcher.IsSerialAt path) {change : Change}
    (hold : dispatcher.tasks[position]? = some (.arriving change))
    (hat : change.path.location = path.location)
    (hinFlight : dispatcher.inFlight.contains change.path = true) :
    (dispatcher.enterAs position change (some ⟨dispatcher.tickets, change⟩) .leaving).IsSerialAt path := by
  have hat' : (⟨dispatcher.tickets, change⟩ : Ticket).isAt path = true := Ticket.isAt_iff.mpr hat
  have howners : (dispatcher.tasks.set position .leaving).filter (Task.isOwnerOf path) =
      dispatcher.ownersOf path := filter_set_of_not_isOwnerOf hold rfl rfl
  have hlength := h.length_owners
  rw [← PathMap.contains_congr hat, if_pos hinFlight] at hlength
  constructor
  · show ((dispatcher.tasks.set position .leaving).filter _).length =
      if (dispatcher.inFlight.set _ _).contains path then 1 else 0
    rw [howners, if_pos (PathMap.contains_set.mpr (Or.inl hat))]
    exact hlength
  · rw [enterAs, finishedAt_record, begunAt_record]
    show _ ++ [] ++ ((dispatcher.tasks.set position .leaving).filter _).flatMap Task.running = _ ++ []
    rw [howners, List.append_nil, List.append_nil]
    exact h.finished_append_running
  · rw [enterAs, enteredAt_record, begunAt_record]
    show IsThinnedTo (dispatcher.enteredAt path ++ [_].filter _) (dispatcher.begunAt path ++ [] ++
      ((dispatcher.tasks.set position .leaving).filter _).flatMap Task.awaited ++
        ((dispatcher.inFlight.set change.path _).find? path).join.toList)
    rw [howners, PathMap.find?_set, if_pos hat, List.filter_cons_of_pos hat', List.append_nil]
    exact isThinnedTo_append
      ((List.sublist_append_left _ _).trans h.isThinnedTo.sublist) _

/-- A change is entered for a path that is not in flight: its task is the owner from now on. -/
theorem enter_queued (h : dispatcher.IsSerialAt path) {change : Change}
    (hold : dispatcher.tasks[position]? = some (.arriving change))
    (hat : change.path.location = path.location)
    (hinFlight : dispatcher.inFlight.contains change.path = false) :
    (dispatcher.enterAs position change none (.queued ⟨dispatcher.tickets, change⟩)).IsSerialAt path := by
  have hat' : (⟨dispatcher.tickets, change⟩ : Ticket).isAt path = true := Ticket.isAt_iff.mpr hat
  have hnew : (Task.queued ⟨dispatcher.tickets, change⟩).isOwnerOf path = true := hat'
  have hlength := h.length_owners
  rw [← PathMap.contains_congr hat, hinFlight] at hlength
  have hnone : dispatcher.ownersOf path = [] := List.eq_nil_of_length_eq_zero hlength
  have howners := filter_set_of_ownersOf_eq_nil hold hnone
    (.queued ⟨dispatcher.tickets, change⟩)
  rw [List.filter_cons_of_pos hnew, List.filter_nil] at howners
  have hfinished := h.finished_append_running
  rw [hnone, List.flatMap_nil] at hfinished
  constructor
  · show ((dispatcher.tasks.set position _).filter _).length =
      if (dispatcher.inFlight.set _ _).contains path then 1 else 0
    rw [howners, if_pos (PathMap.contains_set.mpr (Or.inl hat))]
    rfl
  · rw [enterAs, finishedAt_record, begunAt_record]
    show dispatcher.finishedAt path ++ [] ++
      ((dispatcher.tasks.set position _).filter _).flatMap Task.running =
        dispatcher.begunAt path ++ []
    rw [howners, List.append_nil, List.append_nil]
    exact hfinished
  · rw [enterAs, enteredAt_record, begunAt_record]
    show IsThinnedTo (dispatcher.enteredAt path ++ [_].filter _) (dispatcher.begunAt path ++ [] ++
      ((dispatcher.tasks.set position _).filter _).flatMap Task.awaited ++
        ((dispatcher.inFlight.set change.path _).find? path).join.toList)
    rw [howners, PathMap.find?_set, if_pos hat, List.filter_cons_of_pos hat', List.append_nil]
    change IsThinnedTo _ (dispatcher.begunAt path ++ [_] ++ [])
    rw [List.append_nil]
    refine isThinnedTo_append ?_ _
    have hsublist := h.isThinnedTo.sublist
    rw [List.append_assoc] at hsublist
    exact (List.sublist_append_left _ _).trans hsublist

/-- A change is entered for another path. -/
theorem enterAs_other (h : dispatcher.IsSerialAt path) {change : Change}
    (hold : dispatcher.tasks[position]? = some (.arriving change))
    (hother : ¬ change.path.location = path.location) (parked : Option Ticket) {new : Task}
    (hnew : new.isOwnerOf path = false) :
    (dispatcher.enterAs position change parked new).IsSerialAt path := by
  have hnot : ¬ (⟨dispatcher.tickets, change⟩ : Ticket).isAt path = true :=
    fun hat ↦ hother (Ticket.isAt_iff.mp hat)
  refine h.of_same (filter_set_of_not_isOwnerOf hold rfl hnew) ?_ ?_ ?_ ?_
  · exact (PathMap.find?_set _ _ _ _).trans (if_neg hother)
  · refine (enteredAt_record _).trans ?_
    show _ ++ [_].filter _ = _
    rw [List.filter_cons_of_neg hnot, List.filter_nil, List.append_nil]
    rfl
  · exact (begunAt_record _).trans (List.append_nil _)
  · exact (finishedAt_record _).trans (List.append_nil _)

/-- A task that has no change in hand ends. -/
theorem endTask (h : dispatcher.IsSerialAt path) (hold : dispatcher.tasks[position]? = some old)
    (hnone : old.ticket? = none) : (dispatcher.endTask position).IsSerialAt path := by
  have hnot : old.isOwnerOf path = false := by
    rw [Task.isOwnerOf, hnone]
    rfl
  exact h.of_same (filter_eraseIdx_of_not_isOwnerOf hold hnot) rfl rfl rfl rfl

/-- A task that has no change in hand joins. -/
theorem addTask (h : dispatcher.IsSerialAt path) {new : Task} (hnone : new.ticket? = none) :
    (dispatcher.addTask new).IsSerialAt path := by
  have hnot : new.isOwnerOf path = false := by
    rw [Task.isOwnerOf, hnone]
    rfl
  refine h.of_same ?_ rfl rfl rfl rfl
  show (dispatcher.tasks ++ [new]).filter (Task.isOwnerOf path) = _
  rw [List.filter_append, List.filter_cons_of_neg (by simp [hnot]), List.filter_nil, List.append_nil]
  rfl

/-- The next step of a task keeps every path in order. -/
theorem step (h : ∀ path, dispatcher.IsSerialAt path) (hstep : dispatcher.StepsTo contents position after)
    (path : Path) : after.IsSerialAt path := by
  have hpath := h path
  cases hstep with
  | missing => exact hpath
  | @parked change hold hinFlight =>
    by_cases hat : change.path.location = path.location
    · exact hpath.enter_parked hold hat hinFlight
    · exact hpath.enterAs_other hold hat _ rfl
  | @entered change hold hfree =>
    by_cases hat : change.path.location = path.location
    · exact hpath.enter_queued hold hat hfree
    · exact hpath.enterAs_other hold hat _ (decide_eq_false hat)
  | begun hold => exact hpath.start hold
  | worked => exact hpath.of_same rfl rfl rfl rfl rfl
  | finished hold => exact hpath.finish hold
  | resumed hold hparked => exact proceed_parked h hold hparked path
  | left hold hnone => exact hpath.proceed_leaving hold hnone
  | ended hold => exact hpath.endTask hold rfl
  | endedDirectly hold => exact hpath.endTask hold rfl

/-- And so does every other move. -/
theorem move {next : Move} (h : ∀ path, dispatcher.IsSerialAt path) (hmove : dispatcher.MovesTo next after)
    (path : Path) : after.IsSerialAt path := by
  cases hmove with
  | advanced hstep => exact step h hstep path
  | handedIn change => exact (h path).addTask rfl
  | startedDirectly change =>
    have hadded : (dispatcher.addTask (.direct dispatcher.work.activities.length)).IsSerialAt path :=
      (h path).addTask rfl
    exact hadded.of_same rfl rfl rfl rfl rfl
  | _ => exact (h path).of_same rfl rfl rfl rfl rfl

end IsSerialAt

/-! ### Changes that are handed in -/

/-- The change that a move hands in, if it hands one in. -/
def Move.handedIn? : Move → Option Change
  | handIn change => some change
  | _ => none

/-- Every change that was handed in has been entered or will be, and no other. -/
def IsAccountedFor (dispatcher : Dispatcher) (handedIn : List Change) : Prop :=
  (dispatcher.entered.map Ticket.change ++ dispatcher.tasks.filterMap Task.arriving?).Perm handedIn

/-- A step of a task enters a change that was on its way, or none. -/
inductive Enters (dispatcher after : Dispatcher) : Prop
  | change {change : Change} (hentered : after.entered = dispatcher.entered ++ [⟨dispatcher.tickets, change⟩])
    (htickets : after.tickets = dispatcher.tickets + 1)
    (harriving : (change :: after.tasks.filterMap Task.arriving?).Perm
      (dispatcher.tasks.filterMap Task.arriving?))
  | nothing (hentered : after.entered = dispatcher.entered) (htickets : after.tickets = dispatcher.tickets)
    (harriving : (after.tasks.filterMap Task.arriving?).Perm (dispatcher.tasks.filterMap Task.arriving?))

/-- What is on its way when a task takes a step that leaves nothing to enter. -/
theorem perm_arriving?_set {old new : Task} (hold : dispatcher.tasks[position]? = some old)
    (hnew : new.arriving? = none) :
    (old.arriving?.toList ++ (dispatcher.tasks.set position new).filterMap Task.arriving?).Perm
      (dispatcher.tasks.filterMap Task.arriving?) := by
  obtain ⟨front, back, htasks, hset, -⟩ := exists_around hold
  rw [hset, htasks, List.filterMap_append, List.filterMap_append, List.filterMap_cons_none hnew]
  cases hchange : old.arriving? with
  | none =>
    rw [List.filterMap_cons_none hchange]
    exact List.Perm.refl _
  | some change =>
    rw [List.filterMap_cons_some hchange]
    exact List.Perm.symm List.perm_middle

/-- What is on its way when a task ends that has nothing to enter. -/
theorem filterMap_arriving?_eraseIdx {old : Task} (hold : dispatcher.tasks[position]? = some old)
    (hnone : old.arriving? = none) :
    (dispatcher.tasks.eraseIdx position).filterMap Task.arriving? =
      dispatcher.tasks.filterMap Task.arriving? := by
  obtain ⟨front, back, htasks, -, herase⟩ := exists_around hold
  rw [herase, htasks]
  simp only [List.filterMap_append, List.filterMap_cons, hnone]

theorem StepsTo.enters (h : dispatcher.StepsTo contents position after) : dispatcher.Enters after := by
  cases h with
  | missing | worked => exact .nothing rfl rfl (List.Perm.refl _)
  | parked hold => exact .change (entered_record _) rfl (perm_arriving?_set hold rfl)
  | entered hold => exact .change (entered_record _) rfl (perm_arriving?_set hold rfl)
  | begun hold | finished hold =>
    exact .nothing ((entered_record _).trans (List.append_nil _)) rfl (perm_arriving?_set hold rfl)
  | resumed hold | left hold => exact .nothing rfl rfl (perm_arriving?_set hold rfl)
  | ended hold | endedDirectly hold =>
    refine .nothing rfl rfl ?_
    exact List.Perm.of_eq (filterMap_arriving?_eraseIdx hold rfl)

theorem IsAccountedFor.step {handedIn : List Change} (h : dispatcher.IsAccountedFor handedIn)
    (hstep : dispatcher.StepsTo contents position after) : after.IsAccountedFor handedIn := by
  cases hstep.enters with
  | change hentered htickets harriving =>
    rw [IsAccountedFor, hentered, List.map_append, List.append_assoc]
    exact (harriving.append_left _).trans h
  | nothing hentered htickets harriving =>
    rw [IsAccountedFor, hentered]
    exact (harriving.append_left _).trans h

theorem IsAccountedFor.move {handedIn : List Change} {next : Move} (h : dispatcher.IsAccountedFor handedIn)
    (hmove : dispatcher.MovesTo next after) : after.IsAccountedFor (handedIn ++ next.handedIn?.toList) := by
  cases hmove with
  | advanced hstep =>
    show after.IsAccountedFor (handedIn ++ [])
    rw [List.append_nil]
    exact h.step hstep
  | handedIn change =>
    have harriving : (dispatcher.tasks ++ [Task.arriving change]).filterMap Task.arriving? =
        dispatcher.tasks.filterMap Task.arriving? ++ [change] := List.filterMap_append
    show (dispatcher.entered.map _ ++ (dispatcher.tasks ++ [_]).filterMap _).Perm (handedIn ++ [change])
    rw [harriving, ← List.append_assoc]
    exact h.append_right [change]
  | startedDirectly change =>
    have harriving : (dispatcher.startDirectly change).tasks.filterMap Task.arriving? =
        dispatcher.tasks.filterMap Task.arriving? := List.filterMap_append.trans (List.append_nil _)
    show IsAccountedFor _ (handedIn ++ [])
    rw [List.append_nil, IsAccountedFor, harriving]
    exact h
  | _ =>
    show IsAccountedFor _ (handedIn ++ [])
    rw [List.append_nil]
    exact h

theorem IsAccountedFor.run {handedIn : List Change} (h : dispatcher.IsAccountedFor handedIn)
    (moves : List Move) :
    (dispatcher.run moves).IsAccountedFor (handedIn ++ moves.filterMap Move.handedIn?) := by
  induction moves generalizing dispatcher handedIn with
  | nil => rwa [List.filterMap_nil, List.append_nil]
  | cons next moves ih =>
    have hrest := ih (h.move (dispatcher.movesTo_move next))
    rw [List.append_assoc] at hrest
    cases next <;> exact hrest

theorem isAccountedFor_run (index : Index) (moves : List Move) :
    ((idle index).run moves).IsAccountedFor (moves.filterMap Move.handedIn?) := by
  have hstart : (idle index).IsAccountedFor [] := List.Perm.refl []
  exact hstart.run moves

/-! ### Order -/

namespace IsSerial

theorem step (h : dispatcher.IsSerial) (hstep : dispatcher.StepsTo contents position after) :
    after.IsSerial := by
  have hserial := IsSerialAt.step h.serialAt hstep
  cases hstep.enters with
  | nothing hentered htickets harriving =>
    refine ⟨hserial, ?_, ?_⟩
    · rw [hentered]
      exact h.increasing
    · rw [hentered, htickets]
      exact h.number_lt
  | change hentered htickets harriving =>
    refine ⟨hserial, ?_, ?_⟩
    · rw [hentered, List.pairwise_append]
      refine ⟨h.increasing, List.pairwise_singleton _ _, fun earlier hearlier later hlater ↦ ?_⟩
      rw [List.mem_singleton.mp hlater]
      exact h.number_lt earlier hearlier
    · rw [hentered, htickets]
      intro ticket hticket
      rcases List.mem_append.mp hticket with hold | hnew
      · exact Nat.lt_succ_of_lt (h.number_lt ticket hold)
      · rw [List.mem_singleton.mp hnew]
        exact Nat.lt_succ_self _

theorem move {next : Move} (h : dispatcher.IsSerial) (hmove : dispatcher.MovesTo next after) :
    after.IsSerial := by
  have hserial := IsSerialAt.move h.serialAt hmove
  cases hmove with
  | advanced hstep => exact h.step hstep
  | _ => exact ⟨hserial, h.increasing, h.number_lt⟩

end IsSerial

theorem isSerial_idle (index : Index) : (idle index).IsSerial := by
  refine ⟨fun path ↦ ⟨?_, rfl, List.Sublist.refl _, rfl⟩, List.Pairwise.nil, ?_⟩
  · show 0 = if (∅ : PathMap (Option Ticket)).contains path then 1 else 0
    rw [PathMap.contains_empty]
    rfl
  · intro ticket hticket
    exact absurd hticket List.not_mem_nil

theorem isSerial_run (index : Index) (moves : List Move) : ((idle index).run moves).IsSerial :=
  run_induction IsSerial (isSerial_idle index) IsSerial.move moves

/-! ### Service in order -/

theorem IsSerial.increasing_enteredAt (h : dispatcher.IsSerial) (path : Path) :
    (dispatcher.enteredAt path).Pairwise fun earlier later ↦ earlier.number < later.number :=
  h.increasing.sublist List.filter_sublist

/-- If two tasks were working off changes of the path, one of them would be an owner besides the
other. -/
theorem IsSerialAt.running_unique (h : dispatcher.IsSerialAt path) {other : Nat}
    (hposition : dispatcher.IsRunning path position) (hother : dispatcher.IsRunning path other) :
    position = other := by
  obtain ⟨ticket, activity, htask, hticket⟩ := hposition
  obtain ⟨ticket', activity', htask', hticket'⟩ := hother
  by_contra hdifferent
  have hrest := (filter_set_of_ownersOf_eq htask hticket h.length_owners_le .leaving).2
  have hmem : Task.started ticket' activity' ∈ dispatcher.tasks.set position .leaving := by
    refine List.mem_of_getElem? (i := other) ?_
    rw [List.getElem?_set_ne hdifferent]
    exact htask'
  have howner : Task.started ticket' activity' ∈
      (dispatcher.tasks.set position .leaving).filter (Task.isOwnerOf path) :=
    List.mem_filter.mpr ⟨hmem, hticket'⟩
  rw [hrest] at howner
  exact List.not_mem_nil howner

theorem IsSerial.servesInOrder (h : dispatcher.IsSerial) (path : Path) :
    dispatcher.ServesInOrder path := by
  have hat := h.serialAt path
  have hincreasing := h.increasing_enteredAt path
  have hbegun : (dispatcher.begunAt path).Sublist (dispatcher.enteredAt path) := by
    have hsublist := hat.isThinnedTo.sublist
    rw [List.append_assoc] at hsublist
    exact (List.sublist_append_left _ _).trans hsublist
  constructor
  · intro position other hposition hother
    exact hat.running_unique hposition hother
  · exact hincreasing
  · exact hbegun
  · refine List.Pairwise.imp ?_ (hincreasing.sublist hbegun)
    rintro earlier later hless rfl
    exact absurd hless (Nat.lt_irrefl _)
  · rw [← hat.finished_append_running]
    exact List.sublist_append_left _ _
  · intro ticket hentered hnotBegun hnotAwaiting
    refine hat.isThinnedTo.exists_later hincreasing hentered fun hmem ↦ ?_
    rcases List.mem_append.mp hmem with hmem | hparked
    · rcases List.mem_append.mp hmem with hmem | hawaited
      · exact hnotBegun hmem
      · obtain ⟨task, htask, hawaited⟩ := List.mem_flatMap.mp hawaited
        refine hnotAwaiting (Or.inl ?_)
        have hqueued : task = .queued ticket := by
          cases task with
          | queued other => rw [List.mem_singleton.mp hawaited]
          | _ => exact absurd hawaited List.not_mem_nil
        rw [← hqueued]
        exact (List.mem_filter.mp htask).1
    · refine hnotAwaiting (Or.inr ?_)
      have hlocation := Ticket.isAt_iff.mp (List.mem_filter.mp hentered).2
      rw [PathMap.find?_congr hlocation]
      rw [parkedAt, Option.mem_toList, Option.join_eq_some_iff] at hparked
      exact hparked
  · intro hidle
    have hnone : dispatcher.ownersOf path = [] := by
      rw [ownersOf, hidle]
      rfl
    have hlength := hat.length_owners
    have hrunning := hat.finished_append_running
    have hthinned := hat.isThinnedTo
    rw [hnone] at hlength hrunning hthinned
    have hfree : dispatcher.inFlight.find? path = none := by
      rw [← Option.not_isSome_iff_eq_none, ← PathMap.contains_eq_isSome]
      intro hcontains
      rw [if_pos hcontains] at hlength
      cases hlength
    rw [List.flatMap_nil, List.append_nil] at hrunning
    rw [parkedAt, hfree, List.flatMap_nil, List.append_nil, ← hrunning] at hthinned
    refine ⟨hrunning, ?_, hfree⟩
    rw [← hthinned.getLast?_eq]
    exact congrArg List.getLast? (List.append_nil _).symm

/-- What is being worked off is running. -/
theorem mem_running_of_started {ticket : Ticket} {turn : Nat}
    (htask : Task.started ticket turn ∈ dispatcher.tasks) :
    ticket ∈ (dispatcher.ownersOf ticket.change.path).flatMap Task.running := by
  have hat : ticket.isAt ticket.change.path = true := Ticket.isAt_iff.mpr rfl
  exact List.mem_flatMap.mpr ⟨_, List.mem_filter.mpr ⟨htask, hat⟩, List.mem_singleton_self ticket⟩

/-- What is being worked off has been begun. -/
theorem IsSerial.mem_begunAt_of_started (h : dispatcher.IsSerial) {ticket : Ticket} {turn : Nat}
    (htask : Task.started ticket turn ∈ dispatcher.tasks) : ticket ∈ dispatcher.begunAt ticket.change.path := by
  rw [← (h.serialAt ticket.change.path).finished_append_running]
  exact List.mem_append_right _ (mem_running_of_started htask)

/-- What is finished has been begun. -/
theorem IsSerial.mem_begunAt_of_finished (h : dispatcher.IsSerial) {ticket : Ticket}
    (hfinished : ticket ∈ dispatcher.finished) : ticket ∈ dispatcher.begunAt ticket.change.path := by
  rw [← (h.serialAt ticket.change.path).finished_append_running]
  exact List.mem_append_left _ (List.mem_filter.mpr ⟨hfinished, Ticket.isAt_iff.mpr rfl⟩)

/-- What has been begun was entered. -/
theorem IsSerial.mem_entered_of_begunAt (h : dispatcher.IsSerial) {ticket : Ticket}
    (hbegun : ticket ∈ dispatcher.begunAt path) : ticket ∈ dispatcher.entered :=
  (List.mem_filter.mp ((h.servesInOrder path).begun_sublist.subset hbegun)).1

/-- What is being worked off is not finished. -/
theorem IsSerial.not_mem_finished_of_started (h : dispatcher.IsSerial) {ticket : Ticket} {turn : Nat}
    (htask : Task.started ticket turn ∈ dispatcher.tasks) : ticket ∉ dispatcher.finished := by
  intro hfinished
  have hnodup := (h.servesInOrder ticket.change.path).begun_nodup
  rw [← (h.serialAt ticket.change.path).finished_append_running] at hnodup
  exact List.disjoint_of_nodup_append hnodup (List.mem_filter.mpr ⟨hfinished, Ticket.isAt_iff.mpr rfl⟩)
    (mem_running_of_started htask)

/-- One task at most is working off a change. -/
theorem IsSerial.turn_unique (h : dispatcher.IsSerial) {ticket : Ticket} {turn other : Nat}
    (hturn : Task.started ticket turn ∈ dispatcher.tasks)
    (hother : Task.started ticket other ∈ dispatcher.tasks) : turn = other := by
  obtain ⟨first, hfirst⟩ := List.getElem?_of_mem hturn
  obtain ⟨second, hsecond⟩ := List.getElem?_of_mem hother
  have hat : ticket.isAt ticket.change.path = true := Ticket.isAt_iff.mpr rfl
  obtain rfl := (h.serialAt ticket.change.path).running_unique ⟨ticket, turn, hfirst, hat⟩
    ⟨ticket, other, hsecond, hat⟩
  exact (Task.started.inj (Option.some.inj (hfirst.symm.trans hsecond))).2

/-- Whatever changes are handed in and in whatever order the tasks take their steps, the changes of every path are
worked off in order. The changes that have been entered or will be are those that were handed in. And what is begun
is done: the changes that have come in at the index are those that were begun and those that were started outside
of the order of their paths, a task works off the change that it has begun, and a change in progress is that of a
task. -/
theorem servesInOrder_run (index : Index) (moves : List Move) (path : Path) :
    let state := (idle index).run moves
    let steps := (idle index).workMoves moves
    let arrived := steps.filterMap ConcurrentIndex.Move.arrived?
    state.ServesInOrder path ∧ state.IsAccountedFor (moves.filterMap Move.handedIn?) ∧
      state.work = (ConcurrentIndex.quiet index).run steps ∧
      arrived.Perm (state.begun.map Ticket.change ++ moves.filterMap Move.startedDirectly?) ∧
      state.WorksOff arrived ∧ state.IsCarried :=
  ⟨(isSerial_run index moves).servesInOrder path, isAccountedFor_run index moves,
    work_run (idle index) moves, (arrived_workMoves (idle index) moves).symm, worksOff_run index moves,
    isCarried_run index moves⟩

/-- Of three changes of a path the second is left out, because the third comes while the first is being
worked off. -/
example : (((idle (.new [])).run
    ([.handIn (.remove ⟨"a.spec"⟩), .handIn (.write ⟨"a.spec"⟩), .handIn (.remove ⟨"a.spec"⟩)] ++
      [0, 0, 1, 2, 0, 0, 0, 0, 0, 0, 0].map fun position ↦
        .advance position fun _ ↦ .error .notFound)).finishedAt ⟨"a.spec"⟩).map Ticket.number =
    [0, 2] := by decide +kernel

end Dispatcher

end LiveSpec
