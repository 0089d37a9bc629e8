import Tension.Models.Serving.Safety

/-!
# The aspired versions manager

Sources enqueue the versions they aspire to; a single thread flushes servables that are no
longer wanted, takes over the pending requests and asks the policy for one action at a
time. The thread works through sections of the basic manager, so that loads and unloads
proceed between any two of them. A pending request is taken over in one section, because
it reads and writes nothing that an execution changes.
-/

namespace Tension.Serving

/-! ## The availability preserving policy -/

/-- `AspiredServableStateSnapshot`. -/
structure AspiredServableStateSnapshot where
  id : ServableId
  state : HarnessState
  isAspired : Bool
  deriving DecidableEq, Repr

/-- `AspiredVersionPolicy::ServableAction`; the actions are the kinds of requests. -/
structure ServableAction where
  action : Kind
  id : ServableId
  deriving DecidableEq, Repr

namespace AvailabilityPreservingPolicy

/-- The step of `std::min_element`, which keeps the first of the smallest. -/
def lower (lowest v : AspiredServableStateSnapshot) : AspiredServableStateSnapshot :=
  if v.id.version < lowest.id.version then v else lowest

/-- `GetLowestServableId`. -/
def getLowestServableId : List AspiredServableStateSnapshot → Option ServableId
  | [] => none
  | v :: versions => some (versions.foldl lower v).id

/-- The step of the loop of `GetHighestAspiredNewServableId`. -/
def higher (highest : Option ServableId) (v : AspiredServableStateSnapshot) : Option ServableId :=
  if v.isAspired ∧ v.state = .new then
    match highest with
    | none => some v.id
    | some id => if v.id.version > id.version then some v.id else some id
  else highest

variable (versions : List AspiredServableStateSnapshot)

/-- `GetHighestAspiredNewServableId`. -/
def getHighestAspiredNewServableId :
    Option ServableId :=
  versions.foldl higher none

/-- The versions that are ready although they are not aspired. -/
def unaspiredServing :
    List AspiredServableStateSnapshot :=
  versions.filter fun v => !v.isAspired && v.state == .ready

/-- The version to unload, if there is one that may go. -/
def versionToUnload : Option ServableId :=
  let hasAspired := versions.any fun v => v.isAspired
  let hasAspiredServing := versions.any fun v => v.isAspired && v.state == .ready
  if !hasAspired || hasAspiredServing || 1 < (unaspiredServing versions).length then
    getLowestServableId (unaspiredServing versions)
  else none

/-- `AvailabilityPreservingPolicy::GetNextAction`. -/
def getNextAction : Option ServableAction :=
  match versionToUnload versions with
  | some id => some ⟨.unload, id⟩
  | none =>
    match getHighestAspiredNewServableId versions with
    | some id => some ⟨.load, id⟩
    | none => none

end AvailabilityPreservingPolicy

/-! ## The manager and its thread -/

/-- `ServableData` without its loader. -/
structure ServableData where
  id : ServableId
  status : Status
  deriving DecidableEq, Repr

/-- `OrderActions`. -/
def orderActions (lhs rhs : ServableAction) : ServableAction :=
  match lhs.action with
  | .unload => lhs
  | .load => if rhs.action = .unload then rhs else lhs

/-- `CompareActions`. -/
def compareActions : Option ServableAction → Option ServableAction → Bool
  | none, _ => false
  | some _, none => true
  | some lhs, some rhs => (orderActions lhs rhs).action ≠ rhs.action

/-- The front of the actions after `std::sort`: one of those that no other action precedes,
which one of them `pick` says. -/
def firstAction (pick : Nat) (actions : List (Option ServableAction)) : Option ServableAction :=
  let candidates := actions.filter fun x => actions.all fun y => !compareActions y x
  candidates[pick % candidates.length]?.join

/-- Where the thread of the manager stands. -/
inductive Thread where
  | idle
  /-- `FlushServables` has servables to stop managing and names to go through. -/
  | flushing (names : List String) (ids : List ServableId)
  /-- `GetNextAction` has collected actions and has names to go through. -/
  | choosing (names : List String) (actions : List (Option ServableAction))
  /-- `PerformAction` is about to be called. -/
  | performing (action : ServableAction)
  deriving DecidableEq, Repr

/-- `AspiredVersionsManager` with the availability preserving policy. -/
structure AspiredVersionsManager where
  /-- `basic_manager_`. -/
  manager : Manager
  /-- The additional state of the harnesses. -/
  isAspired : Ref → Bool
  /-- `pending_aspired_versions_requests_`, in the order of arrival. -/
  pending : List (String × List ServableData)
  /-- The position of the thread. -/
  thread : Thread

namespace AspiredVersionsManager

/-- A new manager. -/
def initial (tracked : Bool) : AspiredVersionsManager :=
  ⟨.initial tracked, fun _ => false, [], .idle⟩

variable (s : AspiredVersionsManager)

/-- `GetManagedServableStateSnapshots` together with the aspired marks. -/
def snapshots (name : String) : List AspiredServableStateSnapshot :=
  (s.manager.managed.filter fun r => (s.manager.harness r).id.name = name).map fun r =>
    ⟨(s.manager.harness r).id, (s.manager.harness r).state, s.isAspired r⟩

/-- Assignment to a key of the map of pending requests. -/
def assign (name : String) (versions : List ServableData) :
    List (String × List ServableData) → List (String × List ServableData)
  | [] => [(name, versions)]
  | p :: ps => if p.1 = name then (name, versions) :: ps else p :: assign name versions ps

/-- `EnqueueAspiredVersionsRequest`, which drops requests that `ValidateAspiredVersions`
refuses. -/
def enqueueAspiredVersionsRequest (name : String)
    (versions : List ServableData) : AspiredVersionsManager :=
  if ∀ v ∈ versions, v.id.name = name then { s with pending := assign name versions s.pending }
  else s

/-- `GetVersionNumbers`. -/
def getVersionNumbers (versions : List ServableData) : List Int :=
  versions.map fun v => v.id.version

/-- Clear the aspired mark of a managed servable. -/
def unaspire (id : ServableId) : AspiredVersionsManager :=
  match s.manager.findHarnessInMap id with
  | none => s
  | some r => { s with isAspired := Function.update s.isAspired r false }

/-- `ManageServableWithAdditionalState` with a mark that is set. -/
def manageAspired (v : ServableData) : AspiredVersionsManager :=
  let result := s.manager.manageServable v.id v.status
  { s with
    manager := result.2
    isAspired := if result.1.code ≠ .ok then s.isAspired
      else Function.update s.isAspired s.manager.next true }

/-- The first loop of `ProcessAspiredVersionsRequest`. -/
def unaspireOthers (next : List Int)
    (versions : List AspiredServableStateSnapshot) : AspiredVersionsManager :=
  versions.foldl (fun s v => if v.id.version ∈ next then s else s.unaspire v.id) s

/-- The last loop of `ProcessAspiredVersionsRequest`. -/
def manageAdditions (additions : List Int)
    (versions : List ServableData) : AspiredVersionsManager :=
  versions.foldl (fun s v => if v.id.version ∈ additions then s.manageAspired v else s) s

/-- `ProcessAspiredVersionsRequest`. -/
def processAspiredVersionsRequest (name : String)
    (versions : List ServableData) : AspiredVersionsManager :=
  let next := getVersionNumbers versions
  let current := ((s.snapshots name).filter fun v => v.isAspired).map fun v => v.id.version
  (s.unaspireOthers next (s.snapshots name)).manageAdditions
    (next.filter fun version => version ∉ current) versions

/-- `ContainsAnyReaspiredVersions`. -/
def containsAnyReaspiredVersions (name : String)
    (versions : List ServableData) : Bool :=
  (s.snapshots name).any fun v => !v.isAspired && v.id.version ∈ getVersionNumbers versions

/-- The loop of `HandlePendingAspiredVersionsRequests`; `pending` collects what is left for
later. -/
def handleRequests (s : AspiredVersionsManager) :
    List (String × List ServableData) → AspiredVersionsManager
  | [] => s
  | p :: ps =>
    if s.containsAnyReaspiredVersions p.1 p.2 then
      handleRequests { s with pending := s.pending ++ [p] } ps
    else handleRequests (s.processAspiredVersionsRequest p.1 p.2) ps

/-- `HandlePendingAspiredVersionsRequests`. -/
def handlePendingAspiredVersionsRequests : AspiredVersionsManager :=
  handleRequests { s with pending := [] } s.pending

/-- The servables of a name that `FlushServables` stops managing. -/
def flushable (name : String) : List ServableId :=
  ((s.snapshots name).filter fun v =>
    (v.state = .new ∨ v.state = .disabled ∨ v.state = .error) ∧ v.isAspired = false).map
      fun v => v.id

/-- One call of `StopManagingServable` by `FlushServables`. -/
def stop (id : ServableId) : AspiredVersionsManager :=
  { s with manager := (s.manager.stopManagingServable id).2 }

/-- `PerformAction`. -/
def performAction (a : ServableAction) : AspiredVersionsManager :=
  { s with manager := (s.manager.loadOrUnloadServable a.action a.id).2 }

/-- The action of the policy for a name. -/
def policyAction (name : String) : Option ServableAction :=
  AvailabilityPreservingPolicy.getNextAction (s.snapshots name)

/-- The next section of `FlushServables`. -/
def flush (s : AspiredVersionsManager) : Option AspiredVersionsManager :=
  match s.thread with
  | .idle => some { s with thread := .flushing s.manager.getManagedServableNames [] }
  | .flushing names (id :: ids) => some { s.stop id with thread := .flushing names ids }
  | .flushing (name :: names) [] => some { s with thread := .flushing names (s.flushable name) }
  | .flushing [] [] => some { s with thread := .idle }
  | .choosing _ _ | .performing _ => none

/-- The next section of `InvokePolicyAndExecuteAction`. -/
def invoke (pick : Nat) : Option AspiredVersionsManager :=
  match s.thread with
  | .idle => some { s with thread := .choosing s.manager.getManagedServableNames [] }
  | .choosing (name :: names) actions =>
    some { s with thread := .choosing names (actions ++ [s.policyAction name]) }
  | .choosing [] actions =>
    match firstAction pick actions with
    | none => some { s with thread := .idle }
    | some a => some { s with thread := .performing a }
  | .performing a => some { s.performAction a with thread := .idle }
  | .flushing _ _ => none

/-- What sources, the thread of the manager and the executors can do next. -/
inductive Move where
  | enqueue (name : String) (versions : List ServableData)
  | flush
  | handle
  | invoke (pick : Nat)
  | decide (task : Nat) (reservation : Reservation)
  | execute (task : Nat) (outcome : Status)
  deriving DecidableEq, Repr

/-- One move; `none` if it is not enabled. -/
def step : Move → Option AspiredVersionsManager
  | .enqueue name versions => some (s.enqueueAspiredVersionsRequest name versions)
  | .flush => s.flush
  | .handle => if s.thread = .idle then some s.handlePendingAspiredVersionsRequests else none
  | .invoke pick => s.invoke pick
  | .decide task reservation =>
    (s.manager.advance (.decide task reservation)).map fun m => { s with manager := m }
  | .execute task outcome =>
    (s.manager.advance (.execute task outcome)).map fun m => { s with manager := m }

/-! ## A cycle without interruption -/

/-- `FlushServables` as a whole. -/
def flushServables : AspiredVersionsManager :=
  s.manager.getManagedServableNames.foldl (fun s name => (s.flushable name).foldl stop s) s

/-- `InvokePolicyAndExecuteAction` as a whole. -/
def invokePolicyAndExecuteAction (pick : Nat) :
    AspiredVersionsManager :=
  match firstAction pick (s.manager.getManagedServableNames.map s.policyAction) with
  | none => s
  | some a => s.performAction a

/-- A complete cycle of the thread. -/
def cycle (pick : Nat) : AspiredVersionsManager :=
  s.flushServables.handlePendingAspiredVersionsRequests.invokePolicyAndExecuteAction pick

end AspiredVersionsManager

end Tension.Serving
