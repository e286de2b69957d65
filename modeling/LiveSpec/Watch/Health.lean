import LiveSpec.Path.Basic

/-!
# Health of the watcher

What an observer can see of a running watcher: whether it is active, how many events it has handled,
which directories it watches, and the last problem that was reported to it. Becoming active forgets
the problem; stopping does not.
-/

set_option autoImplicit false

namespace LiveSpec

/-- The visible state of a watcher. -/
structure WatcherHealth where
  isActive : Bool
  events : Nat
  directories : List Path
  problem : Option String
  deriving DecidableEq, Repr, Inhabited

namespace WatcherHealth

/-- A watcher that has not been started. -/
def idle : WatcherHealth := ⟨false, 0, [], none⟩

/-- The watcher has started. -/
def start (health : WatcherHealth) : WatcherHealth :=
  { health with isActive := true, problem := none }

/-- The watcher has stopped. -/
def stop (health : WatcherHealth) : WatcherHealth := { health with isActive := false }

/-- A problem was reported. -/
def report (health : WatcherHealth) (problem : String) : WatcherHealth :=
  { health with problem := some problem }

/-- An event was handled. -/
def countEvent (health : WatcherHealth) : WatcherHealth :=
  { health with events := health.events + 1 }

/-- The watched directories have changed. -/
def publish (health : WatcherHealth) (directories : List Path) : WatcherHealth :=
  { health with directories }

/-- Whether an event was ever handled. -/
def hasSeenEvent (health : WatcherHealth) : Bool := health.events != 0

end WatcherHealth

end LiveSpec
