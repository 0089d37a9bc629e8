import Mathlib.Data.List.Dedup
import Mathlib.Logic.Function.Basic
import Tension.Core.Run
import Tension.Models.Serving.ServingMap

/-!
# The manager as a transition system

Each section under `mu_`, and each section under a harness mutex alone, is one step.
Harnesses are objects of their own, so that a servable that is managed again after it
was dropped is a new one. A load or unload request spawns a task; the task passes its
decision phase under the decision mutex, which it keeps while it waits for resources,
and then runs the sections of its execution phase one by one. Results of loaders and
resource reservations are part of the action.
-/

namespace Tension.Serving

/-- A pointer to a harness. -/
abbrev Ref := Nat

/-- `LoadOrUnloadRequest::Kind`. -/
inductive Kind where
  | load
  | unload
  deriving DecidableEq, Repr

/-- What a task has left to do. -/
inductive Stage where
  /-- The decision phase has not started. -/
  | scheduled (kind : Kind) (id : ServableId)
  /-- `ReserveResources` waits on the condition variable. -/
  | waiting (r : Ref)
  /-- `ExecuteLoad` is about to call `Load`. -/
  | loadApproved (r : Ref)
  /-- `Loader::Load` runs. -/
  | loading (r : Ref)
  /-- `Load` succeeded; the serving map is still to be updated. -/
  | loaded
  /-- `ExecuteUnload` is about to update the serving map. -/
  | unloadApproved (r : Ref)
  /-- `ExecuteUnload` is about to call `Unload`. -/
  | quiesced (r : Ref)
  /-- `Loader::Unload` runs. -/
  | unloading (r : Ref)
  /-- The execution phase is over except for the final decrement. -/
  | finishing (status : Status)
  /-- The callback has been called. -/
  | finished
  deriving DecidableEq, Repr

/-- An approved execution that has not executed its final decrement. -/
def Stage.executing : Stage → Bool
  | .loadApproved _ | .loading _ | .loaded | .unloadApproved _ | .quiesced _ | .unloading _
  | .finishing _ => true
  | .scheduled _ _ | .waiting _ | .finished => false

/-- What one attempt to reserve resources returns. -/
inductive Reservation where
  | reserved
  | insufficient
  | failed (status : Status)
  deriving DecidableEq, Repr

/-- The state of `BasicManager` with its harnesses and the tasks of its executors. -/
structure Manager where
  /-- Whether there is a `resource_tracker_`. -/
  tracked : Bool
  /-- The harness objects. -/
  harness : Ref → LoaderHarness
  /-- The next harness to be allocated. -/
  next : Ref
  /-- `managed_map_`. -/
  managed : List Ref
  /-- `handles_map_` of the serving map. -/
  handles : List (ServableRequest × Ref)
  /-- Load and unload tasks, in the order of their requests. -/
  tasks : List Stage
  /-- The task that holds `load_unload_decision_phase_mu_` while it waits. -/
  deciding : Option Nat
  /-- `num_ongoing_load_unload_executions_`. -/
  numOngoing : Int

namespace Manager

/-- A new manager. -/
def initial (tracked : Bool) : Manager :=
  ⟨tracked, fun _ => .create ⟨"", 0⟩, 0, [], [], [], none, 0⟩

variable (m : Manager)

/-- Replace a harness object. -/
def setHarness (r : Ref) (h : LoaderHarness) : Manager :=
  { m with harness := Function.update m.harness r h }

/-- Replace the stage of a task. -/
def setTask (i : Nat) (stage : Stage) : Manager :=
  { m with tasks := m.tasks.set i stage }

/-- `FindHarnessInMap`. -/
def findHarnessInMap (id : ServableId) : Option Ref :=
  m.managed.find? fun r => (m.harness r).id = id

/-- `GetHealthyHarness`. -/
def getHealthyHarness (id : ServableId) : Except Status Ref :=
  match m.findHarnessInMap id with
  | none => .error (.notFound ("This servable is not being managed by the manager: " ++
      id.debugString))
  | some r => if (m.harness r).status.code ≠ .ok then .error (m.harness r).status else .ok r

/-- `GetUntypedServableHandle`, with the harness for the handle. -/
def getUntypedServableHandle (request : ServableRequest) : Except Status Ref :=
  match m.handles.find? fun entry => entry.1 = request with
  | none => .error (.notFound ("Servable not found for request: " ++ request.debugString))
  | some entry => .ok entry.2

/-- `GetManagedServableNames`. -/
def getManagedServableNames : List String :=
  (m.managed.map fun r => (m.harness r).id.name).dedup

/-- `UpdateServingMap`: the ready harnesses become the handles map. -/
def updateServingMap : Manager :=
  { m with
    handles := handlesOf ((m.managed.filter fun r => (m.harness r).state = .ready).map
      fun r => ((m.harness r).id, r)) }

/-- `ManageServable` with the status of the servable data. -/
def manageServable (id : ServableId) (status : Status) : Status × Manager :=
  match m.findHarnessInMap id with
  | some _ => (.failedPrecondition ("This servable is already being managed: " ++
      id.debugString), m)
  | none =>
    let h := LoaderHarness.create id
    let h := if status.code ≠ .ok then h.error status else h
    (.ok, { m.setHarness m.next h with next := m.next + 1, managed := m.managed ++ [m.next] })

/-- `StopManagingServable`. -/
def stopManagingServable (id : ServableId) : Status × Manager :=
  match m.findHarnessInMap id with
  | none => (.failedPrecondition ("This servable is not being managed: " ++ id.debugString), m)
  | some r =>
    let state := (m.harness r).state
    if state ≠ .new ∧ state ≠ .error ∧ state ≠ .disabled then
      (.failedPrecondition ("This servable is not in a new or end state and we cannot stop " ++
        "managing it: " ++ id.debugString ++ " " ++ state.debugString), m)
    else (.ok, { m with managed := m.managed.erase r })

/-- The synchronous section of `LoadOrUnloadServable`; a request that succeeds schedules a
task. -/
def loadOrUnloadServable (kind : Kind) (id : ServableId) : Status × Manager :=
  match m.getHealthyHarness id with
  | .error status => (status, m)
  | .ok r =>
    let result := match kind with
      | .load => (m.harness r).loadRequested
      | .unload => (m.harness r).unloadRequested
    if result.1.code ≠ .ok then (result.1, m.setHarness r result.2)
    else (.ok, { m.setHarness r result.2 with tasks := m.tasks ++ [.scheduled kind id] })

/-- The end of a decision phase that fails. -/
def reject (i : Nat) (status : Status) : Status × Manager :=
  (status, { m.setTask i .finished with deciding := none })

/-- The end of a decision phase that approves the request. -/
def approve (i : Nat) (stage : Stage) : Status × Manager :=
  (.ok, { m.setTask i stage with deciding := none, numOngoing := m.numOngoing + 1 })

/-- `ReserveResources` for one attempt; `none` means that the task has to wait. -/
def reserveResources (r : Ref) : Reservation → Option Status
  | .reserved => some .ok
  | .failed status => some (.internal (
      "Error while attempting to reserve resources to load servable " ++
        (m.harness r).id.debugString ++ ": " ++ status.message))
  | .insufficient =>
    if m.numOngoing = 0 then some (.resourceExhausted (
      "Insufficient resources to load servable " ++ (m.harness r).id.debugString))
    else none

/-- The transition at the end of `ApproveLoad`. -/
def approveReserved (i : Nat) (r : Ref) : Status × Manager :=
  let result := (m.harness r).loadApproved
  if result.1.code ≠ .ok then (m.setHarness r result.2).reject i result.1
  else (m.setHarness r result.2).approve i (.loadApproved r)

/-- `ApproveLoad`. -/
def approveLoad (i : Nat) (r : Ref) (reservation : Reservation) :
    Status × Manager :=
  if m.tracked then
    match m.reserveResources r reservation with
    | none => (.ok, { m.setTask i (.waiting r) with deciding := some i })
    | some status =>
      if status.code ≠ .ok then
        (m.setHarness r ((m.harness r).error status)).reject i status
      else m.approveReserved i r
  else m.approveReserved i r

/-- `ApproveUnload`. -/
def approveUnload (i : Nat) (r : Ref) : Status × Manager :=
  let result := (m.harness r).startQuiescing
  if result.1.code ≠ .ok then (m.setHarness r result.2).reject i result.1
  else (m.setHarness r result.2).approve i (.unloadApproved r)

/-- A section of the decision phase of task `i`; the decision mutex must be free or held by
the task. -/
def decide (i : Nat) (reservation : Reservation) : Option (Status × Manager) :=
  if m.deciding = none ∨ m.deciding = some i then
    match m.tasks[i]? with
    | some (.scheduled kind id) =>
      match m.getHealthyHarness id with
      | .error status => some (m.reject i status)
      | .ok r =>
        match kind with
        | .load => some (m.approveLoad i r reservation)
        | .unload => some (m.approveUnload i r)
    | some (.waiting r) => some (m.approveLoad i r reservation)
    | _ => none
  else none

/-- A section that changes one harness: the task goes on to `stage` if it succeeds and
ends otherwise. -/
def proceed (i : Nat) (r : Ref) (result : Status × LoaderHarness)
    (stage : Stage) : Status × Manager :=
  (result.1, (m.setHarness r result.2).setTask i
    (if result.1.code ≠ .ok then .finishing result.1 else stage))

/-- The next section of the execution phase of task `i`; `outcome` is what `Loader::Load`
returns. -/
def execute (i : Nat) (outcome : Status) : Option (Status × Manager) :=
  match m.tasks[i]? with
  | some (.loadApproved r) => some (m.proceed i r (m.harness r).loadBegin (.loading r))
  | some (.loading r) => some (m.proceed i r ((m.harness r).loadEnd outcome) .loaded)
  | some .loaded => some (.ok, m.updateServingMap.setTask i (.finishing .ok))
  | some (.unloadApproved r) =>
    some (m.updateServingMap.proceed i r (m.harness r).doneQuiescing (.quiesced r))
  | some (.quiesced r) => some (m.proceed i r (m.harness r).unloadBegin (.unloading r))
  | some (.unloading r) =>
    some (m.proceed i r (m.harness r).unloadEnd (.finishing .ok))
  | some (.finishing status) =>
    some (status, { m.setTask i .finished with numOngoing := m.numOngoing - 1 })
  | _ => none

/-- The steps that callers and executor threads can take. -/
inductive Action where
  | manage (id : ServableId) (status : Status)
  | stop (id : ServableId)
  | request (kind : Kind) (id : ServableId)
  | decide (task : Nat) (reservation : Reservation)
  | execute (task : Nat) (outcome : Status)
  deriving DecidableEq, Repr

/-- One step with the status it produces; `none` if the step is not enabled. -/
def step : Action → Option (Status × Manager)
  | .manage id status => some (m.manageServable id status)
  | .stop id => some (m.stopManagingServable id)
  | .request kind id => some (m.loadOrUnloadServable kind id)
  | .decide task reservation => m.decide task reservation
  | .execute task outcome => m.execute task outcome

/-- The state after one step. -/
def advance (a : Action) : Option Manager := (m.step a).map Prod.snd

/-- `Loader::Load` or `Loader::Unload` of a harness runs. -/
def Running (r : Ref) : Prop := .loading r ∈ m.tasks ∨ .unloading r ∈ m.tasks

/-- The action is the section of `LoaderHarness::Unload` that starts `Loader::Unload` of a
harness. -/
def StartsUnload (a : Action) (r : Ref) : Prop :=
  ∃ task outcome, a = .execute task outcome ∧ m.tasks[task]? = some (.quiesced r)

/-- The action removes a harness from the managed map. -/
def Removes (a : Action) (r : Ref) : Prop :=
  ∃ m', m.advance a = some m' ∧ r ∈ m.managed ∧ r ∉ m'.managed

end Manager

end Tension.Serving
