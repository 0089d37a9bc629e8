import Tension.Models.Status

/-!
# Loader harnesses

A harness tracks the state of one servable. Every method is one section under the
harness mutex, except `Load` and `Unload`, which release it while the loader runs and
are split there. Transitions from an unexpected state put the harness in its error
state; `faulted` records that this has happened.
-/

namespace Tension.Serving

/-- `ServableId`. -/
structure ServableId where
  /-- The name of the servable stream. -/
  name : String
  /-- The version within the stream. -/
  version : Int
  deriving DecidableEq, Repr

/-- `ServableId::DebugString`. -/
def ServableId.debugString (id : ServableId) : String :=
  "\x7bname: " ++ id.name ++ " version: " ++ toString id.version ++ "\x7d"

/-- `LoaderHarness::State`. -/
inductive HarnessState where
  | new
  | loadRequested
  | loadApproved
  | loading
  | ready
  | unloadRequested
  | quiescing
  | quiesced
  | unloading
  | disabled
  | error
  deriving DecidableEq, Repr

/-- `LoaderHarness::StateDebugString`. -/
def HarnessState.debugString : HarnessState → String
  | .new => "new"
  | .loadRequested => "load-requested"
  | .loadApproved => "load-approved"
  | .loading => "loading"
  | .ready => "ready"
  | .unloadRequested => "unload-requested"
  | .quiescing => "quiescing"
  | .quiesced => "quiesced"
  | .unloading => "unloading"
  | .disabled => "disabled"
  | .error => "error"

/-- `LoaderHarness`. -/
structure LoaderHarness where
  id : ServableId
  state : HarnessState
  status : Status
  /-- Whether `TransitionState` has taken its error branch. -/
  faulted : Bool
  deriving DecidableEq, Repr

namespace LoaderHarness

/-- A new harness. -/
def create (id : ServableId) : LoaderHarness := ⟨id, .new, .ok, false⟩

variable (h : LoaderHarness)

/-- `ErrorInternal`. -/
def errorInternal (status : Status) : LoaderHarness :=
  { h with state := .error, status := status }

/-- `TransitionState`. -/
def transitionState (source target : HarnessState) :
    Status × LoaderHarness :=
  if h.state ≠ source then
    let error := Status.internal ("Illegal request to transition from state " ++
      h.state.debugString ++ " to " ++ target.debugString)
    (error, { h.errorInternal error with faulted := true })
  else (.ok, { h with state := target })

/-- `LoadRequested`. -/
def loadRequested : Status × LoaderHarness :=
  if h.state ≠ .new then (.failedPrecondition "Duplicate load request", h)
  else (.ok, { h with state := .loadRequested })

/-- `LoadApproved`. -/
def loadApproved : Status × LoaderHarness :=
  h.transitionState .loadRequested .loadApproved

/-- The section of `Load` before the loader runs. -/
def loadBegin : Status × LoaderHarness :=
  h.transitionState .loadApproved .loading

/-- The section of `Load` after the loader has returned `status`. -/
def loadEnd (status : Status) : Status × LoaderHarness :=
  if status.code = .ok then
    let r := h.transitionState .loading .ready
    (if r.1.code = .ok then status else r.1, r.2)
  else (status, h.errorInternal status)

/-- `UnloadRequested`. -/
def unloadRequested : Status × LoaderHarness :=
  if h.state ≠ .ready then
    (.failedPrecondition "Servable not loaded, or unload already requested/ongoing", h)
  else (.ok, { h with state := .unloadRequested })

/-- `StartQuiescing`. -/
def startQuiescing : Status × LoaderHarness :=
  h.transitionState .unloadRequested .quiescing

/-- `DoneQuiescing`. -/
def doneQuiescing : Status × LoaderHarness :=
  h.transitionState .quiescing .quiesced

/-- The section of `Unload` before the loader runs. -/
def unloadBegin : Status × LoaderHarness :=
  h.transitionState .quiesced .unloading

/-- The section of `Unload` after the loader has run. -/
def unloadEnd : Status × LoaderHarness :=
  h.transitionState .unloading .disabled

/-- `Error`. -/
def error (status : Status) : LoaderHarness := h.errorInternal status

/-- A transition from the expected state succeeds. -/
theorem transitionState_of_eq {h : LoaderHarness} {source : HarnessState} (hs : h.state = source)
    (target : HarnessState) :
      h.transitionState source target = (.ok, { h with state := target }) := by
  rw [transitionState, if_neg fun hne => hne hs]

/-- Whatever the loader returned, the end of a running load leaves the harness ready or in
its error state. -/
theorem loadEnd_of_loading {h : LoaderHarness} (hs : h.state = .loading) (status : Status) :
    h.loadEnd status = (status,
      if status.code = .ok then { h with state := .ready } else h.errorInternal status) := by
  rw [loadEnd, transitionState_of_eq hs]
  split <;> rfl

end LoaderHarness

end Tension.Serving
