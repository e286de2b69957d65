/-!
# The readiness barrier

The barrier counts the tasks that may still change the index. A task holds a guard while it runs;
whoever asks the index waits until no guard is held. Guards can also be held under a name, one for
each name (`NamedGuards`): taking a guard under a name that has one takes the new guard first and
then gives the old one back.
-/

set_option autoImplicit false

namespace LiveSpec

/-- The number of guards that are held. -/
structure Barrier where
  pending : Nat
  deriving DecidableEq, Repr, Inhabited

namespace Barrier

/-- No guard is held. -/
def clear : Barrier := ⟨0⟩

/-- Takes a guard. -/
def take (barrier : Barrier) : Barrier := ⟨barrier.pending + 1⟩

/-- Gives a guard back. The count does not go below zero. -/
def giveBack (barrier : Barrier) : Barrier := ⟨barrier.pending - 1⟩

/-- Whether a question need not wait. -/
def isClear (barrier : Barrier) : Bool := barrier.pending == 0

end Barrier

/-- Guards that are held under names. -/
structure NamedGuards where
  barrier : Barrier
  held : List String
  deriving DecidableEq, Repr, Inhabited

namespace NamedGuards

/-- No guard is held. -/
def empty : NamedGuards := ⟨.clear, []⟩

/-- Gives back the guard that is held under a name, if one is. -/
def giveBack (guards : NamedGuards) (name : String) : NamedGuards :=
  if guards.held.contains name then ⟨guards.barrier.giveBack, guards.held.erase name⟩ else guards

/-- Takes a guard and holds it under a name, in place of the guard held there before. -/
def take (guards : NamedGuards) (name : String) : NamedGuards :=
  let taken : NamedGuards := { guards with barrier := guards.barrier.take }
  let alone := taken.giveBack name
  { alone with held := name :: alone.held }

/-- Gives back every guard. -/
def giveBackAll (guards : NamedGuards) : NamedGuards := guards.held.foldl giveBack guards

end NamedGuards

end LiveSpec
