import LiveSpec.Index.Build
import LiveSpec.Watch.Health
import LiveSpec.Watch.Report

/-!
# The live index

A service keeps an index in step with its files. It starts by watching its directories and then
builds the index, so that no event is lost between the two; from then on it responds to every event
as it is reported. When it is stopped, its watcher is no longer active.
-/

set_option autoImplicit false

namespace LiveSpec

/-- An index that follows its files. -/
structure Service where
  index : Index
  coverage : Coverage
  health : WatcherHealth

namespace Service

/-- The service with other watches, which observers see as well. -/
def watch (service : Service) (coverage : Coverage) : Service :=
  { service with coverage, health := service.health.publish coverage.directories }

/-- Starts a service for some directories: they are watched, then the index is built. -/
def start (directories : List Path) (disk : Disk) : Service × BuildReport :=
  let coverage := directories.foldl (Coverage.registerTree disk) .empty
  let (index, report) := (Index.new directories).build disk
  let health := (WatcherHealth.idle.publish coverage.directories).start
  (⟨index, coverage, health⟩, report)

/-- Counts an event and responds to it. Every change that it asks for is worked off before the
next. -/
def handle (service : Service) (disk : Disk) (event : FileEvent) : Service :=
  let (coverage, changes) := service.coverage.respond disk event
  let index := service.index.applyAll disk.contents changes
  { service with index, health := service.health.countEvent }.watch coverage

/-- Responds to events, one after the other, when the system keeps certain watches. -/
def handleAll (service : Service) (disk : Disk) (watches : SystemWatches)
    (events : List FileEvent) : Service :=
  events.foldl (fun service event ↦ service.handle disk event)
    { service with coverage := { service.coverage with system := watches } }

/-- Responds to what an operation on files reports. -/
def follow (service : Service) (before : Disk) (operation : FileOperation) : Service :=
  let watches := service.coverage.system
  service.handleAll (before.perform operation) (watches.carry (operation.destination before))
    (operation.events before watches)

/-- Responds to everything by which a second disk differs from a first. -/
def catchUp (service : Service) (before after : Disk) : Service :=
  let watches := service.coverage.system
  service.handleAll after (watches.remaining after) (watches.eventsBetween before after)

/-- Stops the watcher. -/
def stop (service : Service) : Service := { service with health := service.health.stop }

end Service

end LiveSpec
