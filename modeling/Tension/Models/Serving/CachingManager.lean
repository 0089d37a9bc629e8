import Tension.Core.LockTable
import Tension.Models.Serving.Progress

/-!
# The caching manager

A lookup that misses loads the servable on demand. The callers of one servable share a
mutex, which lives in a map and is erased by the caller that drops the last pointer to it.
Every section under a mutex is one step; the executors of the basic manager run between
any two of them. The ids of accepted `ManageServable` calls and of `LoadServable` calls are
recorded in the order of the calls.
-/

namespace Tension.Serving

open LockTable

/-- What a caller of `GetUntypedServableHandle` does next. -/
inductive Position where
  /-- Look the servable up. -/
  | looking
  /-- Call `CreateLoader`. -/
  | creating
  /-- Take the mutex of the servable from the map. -/
  | entering (data : ServableData)
  /-- Lock the mutex. -/
  | acquiring (data : ServableData) (mutex : Nat)
  /-- Inside the load section: read the state of the servable. -/
  | checking (data : ServableData) (mutex : Nat)
  /-- Call `ManageServable`. -/
  | managing (data : ServableData) (mutex : Nat)
  /-- Call `LoadServable` of the basic manager. -/
  | requesting (id : ServableId) (mutex : Nat)
  /-- Wait for the callback of a task. -/
  | waiting (id : ServableId) (mutex : Nat) (task : Nat)
  /-- Unlock the mutex. -/
  | leaving (id : ServableId) (mutex : Nat) (status : Status)
  /-- Drop the pointer to the mutex. -/
  | released (id : ServableId) (mutex : Nat) (status : Status)
  /-- Call `MaybeEraseLoadMutexMapEntry`. -/
  | erasing (id : ServableId)
  /-- Look the servable up again. -/
  | relooking
  /-- The call has returned. -/
  | returned (status : Status)
  deriving DecidableEq, Repr

namespace Position

/-- The mutex that the caller points to, with the servable it is for. -/
def pointer : Position → Option (ServableId × Nat)
  | .acquiring data mutex | .checking data mutex | .managing data mutex => some (data.id, mutex)
  | .requesting id mutex | .waiting id mutex _ | .leaving id mutex _ | .released id mutex _ =>
    some (id, mutex)
  | .looking | .creating | .entering _ | .erasing _ | .relooking | .returned _ => none

/-- The mutex whose section the caller is in. -/
def inside : Position → Option (ServableId × Nat)
  | .checking data mutex | .managing data mutex => some (data.id, mutex)
  | .requesting id mutex | .waiting id mutex _ | .leaving id mutex _ => some (id, mutex)
  | .looking | .creating | .entering _ | .acquiring _ _ | .released _ _ _ | .erasing _
  | .relooking | .returned _ => none

end Position

/-- A call of `GetUntypedServableHandleForId`. -/
structure Call where
  id : ServableId
  position : Position
  deriving DecidableEq, Repr

/-- `CachingManager` with its callers. -/
structure CachingManager where
  /-- `basic_manager_`. -/
  manager : Manager
  /-- The statuses that the callbacks of finished tasks have got. -/
  results : Nat → Option Status
  /-- `load_mutex_map_` and the mutexes. -/
  table : Table ServableId Nat
  /-- The calls, in the order in which they came. -/
  calls : List Call
  /-- The ids of the `ManageServable` calls that have been accepted. -/
  accepted : List ServableId
  /-- The `LoadServable` calls of the basic manager with the tasks they have scheduled. -/
  issued : List (ServableId × Option Nat)

namespace CachingManager

/-- A new manager. -/
def initial (tracked : Bool) : CachingManager :=
  ⟨.initial tracked, fun _ => none, .empty, [], [], []⟩

variable (s : CachingManager)

/-- A caller goes on to another position. -/
def setPosition (i : Nat) (call : Call) (position : Position) :
    CachingManager :=
  { s with calls := s.calls.set i { call with position := position } }

/-- `GetUntypedServableHandle`: without a version, the loader factory knows the latest one. -/
def resolve (request : ServableRequest) (latest : Int) : ServableId :=
  match request.version with
  | some version => ⟨request.name, version⟩
  | none => ⟨request.name, latest⟩

/-- The status of a lookup in the basic manager. -/
def lookup (id : ServableId) : Status :=
  match s.manager.getUntypedServableHandle (.fromId id) with
  | .ok _ => .ok
  | .error status => status

/-- Some caller has a copy of the pointer to a mutex. -/
def shared (mutex : Nat) : Bool :=
  s.calls.any fun call => call.position.pointer.map Prod.snd = some mutex

/-- The next section of a call, except for the answer of the loader factory. -/
def proceed (i : Nat) (call : Call) : Option CachingManager :=
  match call.position with
  | .looking =>
    if (s.lookup call.id).code = .ok ∨ (s.lookup call.id).code ≠ .notFound then
      some (s.setPosition i call (.returned (s.lookup call.id)))
    else some (s.setPosition i call .creating)
  | .creating => none
  | .entering data =>
    some { s.setPosition i call (.acquiring data (s.table.intern data.id).1) with
      table := (s.table.intern data.id).2 }
  | .acquiring data mutex =>
    (s.table.lock mutex i).map fun table =>
      { s.setPosition i call (.checking data mutex) with table := table }
  | .checking data mutex =>
    match s.manager.findHarnessInMap data.id with
    | some r =>
      if (s.manager.harness r).state ≠ .ready then
        some (s.setPosition i call (.leaving data.id mutex (.internal (
          "Servable requested for load is already being managed, but is not loaded: " ++
            data.id.debugString))))
      else some (s.setPosition i call (.leaving data.id mutex .ok))
    | none => some (s.setPosition i call (.managing data mutex))
  | .managing data mutex =>
    let result := s.manager.manageServable data.id data.status
    if result.1.code ≠ .ok then
      some { s.setPosition i call (.leaving data.id mutex (.internal (
        "Internal error: unable to transfer servable to 'basic_manager_': " ++
          result.1.message))) with manager := result.2 }
    else
      some { s.setPosition i call (.requesting data.id mutex) with
        manager := result.2, accepted := s.accepted ++ [data.id] }
  | .requesting id mutex =>
    let result := s.manager.loadOrUnloadServable .load id
    if result.1.code ≠ .ok then
      some { s.setPosition i call (.leaving id mutex result.1) with
        manager := result.2, issued := s.issued ++ [(id, none)] }
    else
      some { s.setPosition i call (.waiting id mutex s.manager.tasks.length) with
        manager := result.2, issued := s.issued ++ [(id, some s.manager.tasks.length)] }
  | .waiting id mutex task =>
    (s.results task).map fun status => s.setPosition i call (.leaving id mutex status)
  | .leaving id mutex status =>
    some { s.setPosition i call (.released id mutex status) with table := s.table.unlock mutex }
  | .released id _ status =>
    if status.code = .ok then some (s.setPosition i call (.erasing id))
    else some (s.setPosition i call (.returned status))
  | .erasing id =>
    some { s.setPosition i call .relooking with table := s.table.erase id s.shared }
  | .relooking => some (s.setPosition i call (.returned (s.lookup call.id)))
  | .returned _ => none

/-- A step of a task; its callback gets the status once the task is finished. -/
def task (a : Manager.Action) (i : Nat) : Option CachingManager :=
  (s.manager.step a).map fun result =>
    { s with
      manager := result.2
      results := if result.2.tasks[i]? = some .finished then
        Function.update s.results i (some result.1) else s.results }

/-- What callers and executors can do next. -/
inductive Move where
  | call (request : ServableRequest) (latest : Int)
  | create (caller : Nat) (data : ServableData)
  | proceed (caller : Nat)
  | decide (task : Nat) (reservation : Reservation)
  | execute (task : Nat) (outcome : Status)
  deriving DecidableEq, Repr

/-- One move; `none` if it is not enabled. -/
def step : Move → Option CachingManager
  | .call request latest =>
    some { s with calls := s.calls ++ [⟨resolve request latest, .looking⟩] }
  | .create i data =>
    match s.calls[i]? with
    | some call =>
      if call.position = .creating then some (s.setPosition i call (.entering data)) else none
    | none => none
  | .proceed i => s.calls[i]?.bind (s.proceed i)
  | .decide i reservation => s.task (.decide i reservation) i
  | .execute i outcome => s.task (.execute i outcome) i

end CachingManager

end Tension.Serving
