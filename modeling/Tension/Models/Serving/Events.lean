import Tension.Models.Serving.Safety

/-!
# Servable state events

The manager publishes the state of a servable on an event bus. Some events are published
inside a section, by the manager or by the error callback of the harness; others are
published by a task between two of its sections, while other threads run. The log keeps
the events in the order in which they reach the bus, together with the moments at which
a servable becomes managed.
-/

namespace Tension.Serving

open List Option Function

/-- `ServableState::ManagerState`. -/
inductive ManagerState where
  | start
  | loading
  | available
  | unloading
  | ended
  deriving DecidableEq, Repr

/-- The underlying number. -/
def ManagerState.toNat : ManagerState → Nat
  | .start => 0
  | .loading => 1
  | .available => 2
  | .unloading => 3
  | .ended => 4

instance : LT ManagerState := ⟨fun a b => a.toNat < b.toNat⟩

instance : DecidableLT ManagerState := fun a b =>
  inferInstanceAs (Decidable (a.toNat < b.toNat))

/-- `ServableState`. -/
structure ServableState where
  id : ServableId
  managerState : ManagerState
  health : Status
  deriving DecidableEq, Repr

/-- What an observer of the event bus and of the managed map sees. -/
inductive LogEntry where
  /-- A servable becomes managed. -/
  | managed (id : ServableId)
  /-- An event is published. -/
  | event (state : ServableState)
  deriving DecidableEq, Repr

variable (id : ServableId)

/-- The effect of an entry on the states seen for a servable. -/
def LogEntry.observe (states : List ManagerState) :
    LogEntry → List ManagerState
  | .managed id' => if id' = id then [] else states
  | .event state => if state.id = id then states ++ [state.managerState] else states

/-- The states published for a servable since it last became managed. -/
def sinceManaged (log : List LogEntry) : List ManagerState :=
  log.foldl (LogEntry.observe id) []

theorem sinceManaged_append (log : List LogEntry) (entry : LogEntry) :
    sinceManaged id (log ++ [entry]) = entry.observe id (sinceManaged id log) := by
  rw [sinceManaged, foldl_append]
  rfl

/-- `error_callback`: the sections of a harness publish the errors that they return. -/
def errorCallback (result : Status × LoaderHarness) : List LogEntry :=
  if result.1.code ≠ .ok then [.event ⟨result.2.id, .ended, result.1⟩] else []

namespace Manager

/-- The events of `ApproveLoad`. -/
def publishedApproveLoad (m : Manager) (r : Ref) (reservation : Reservation) : List LogEntry :=
  if m.tracked then
    match m.reserveResources r reservation with
    | none => []
    | some status =>
      if status.code ≠ .ok then
        -- `Error` calls the error callback, and the manager publishes once more.
        [.event ⟨(m.harness r).id, .ended, status⟩, .event ⟨(m.harness r).id, .ended, status⟩]
      else errorCallback (m.harness r).loadApproved
  else errorCallback (m.harness r).loadApproved

/-- The entries that the section of an action adds to the log. -/
def published (m : Manager) : Action → List LogEntry
  | .manage id status =>
    match m.findHarnessInMap id with
    | some _ => []
    | none => [.managed id,
        .event (if status.code ≠ .ok then ⟨id, .ended, status⟩ else ⟨id, .start, .ok⟩)]
  | .stop _ | .request _ _ => []
  | .decide i reservation =>
    match m.tasks[i]? with
    | some (.scheduled kind id) =>
      match m.getHealthyHarness id with
      | .error _ => []
      | .ok r =>
        match kind with
        | .load => m.publishedApproveLoad r reservation
        | .unload => errorCallback (m.harness r).startQuiescing
    | some (.waiting r) => m.publishedApproveLoad r reservation
    | _ => []
  | .execute i outcome =>
    match m.tasks[i]? with
    | some (.loadApproved r) => errorCallback (m.harness r).loadBegin
    | some (.loading r) => errorCallback ((m.harness r).loadEnd outcome)
    | some (.unloadApproved r) =>
      .event ⟨(m.harness r).id, .unloading, (m.harness r).status⟩ ::
        errorCallback (m.harness r).doneQuiescing
    | some (.quiesced r) => errorCallback (m.harness r).unloadBegin
    | some (.unloading r) => errorCallback (m.harness r).unloadEnd
    | _ => []

/-- The event that task `i` has to publish when it goes from one stage to another in the step
from `m` to `m'`: `kLoading` when `ExecuteLoad` starts, `kAvailable` when `Load` has succeeded
and the serving map is updated, `kEnd` when `Unload` has succeeded. -/
def deferredBetween (m m' : Manager) (i : Nat) : Stage → Stage → List (Nat × Ref × ServableState)
  | .loading r, .loaded => [(i, r, ⟨(m.harness r).id, .available, .ok⟩)]
  | .unloading r, .finishing status =>
    if status.code = .ok then [(i, r, ⟨(m.harness r).id, .ended, .ok⟩)] else []
  | _, .loadApproved r => [(i, r, ⟨(m'.harness r).id, .loading, (m'.harness r).status⟩)]
  | _, _ => []

/-- The event that task `i` has to publish after the step from `m` to `m'`. -/
def deferred (m m' : Manager) (i : Nat) : List (Nat × Ref × ServableState) :=
  match m.tasks[i]?, m'.tasks[i]? with
  | some stage, some stage' => m.deferredBetween m' i stage stage'
  | _, _ => []

end Manager

/-- The manager with its event bus. -/
structure Announcer where
  /-- The manager. -/
  manager : Manager
  /-- The events that tasks have still to publish, each with its task and harness. -/
  owed : List (Nat × Ref × ServableState)
  /-- What has been observed so far. -/
  log : List LogEntry

namespace Announcer

/-- A new manager. -/
def initial (tracked : Bool) : Announcer := ⟨.initial tracked, [], []⟩

/-- A section of the manager, or a publication by a task between two sections. -/
inductive Move where
  | act (a : Manager.Action)
  | publish (task : Nat)
  deriving DecidableEq, Repr

/-- The task that takes an action. -/
def taskOf : Manager.Action → Option Nat
  | .decide i _ | .execute i _ => some i
  | .manage _ _ | .stop _ | .request _ _ => none

variable (s : Announcer)

/-- Task `i` has nothing to publish before its next section. -/
def Ready (i : Nat) : Prop :=
  s.manager.tasks[i]? = some .loaded ∨ ∀ x ∈ s.owed, x.1 ≠ i

instance (s : Announcer) (i : Nat) : Decidable (s.Ready i) :=
  inferInstanceAs (Decidable (_ ∨ _))

/-- One step; a task publishes what it owes before its next section, and an available
servable only after the serving map has been updated. -/
def step : Move → Option Announcer
  | .act a =>
    if ∀ i ∈ taskOf a, s.Ready i then
      (s.manager.advance a).map fun m' =>
        { manager := m'
          owed := s.owed ++ (match taskOf a with
            | some i => s.manager.deferred m' i
            | none => [])
          log := s.log ++ s.manager.published a }
    else none
  | .publish i =>
    if s.manager.tasks[i]? = some .loaded then none
    else
      match s.owed.find? fun x => x.1 = i with
      | none => none
      | some x => some { s with
          owed := s.owed.filter fun y => y.1 ≠ i, log := s.log ++ [.event x.2.2] }

/-- The states published for a managed servable since it became managed are strictly
increasing. -/
def Increasing : Prop :=
  ∀ r ∈ s.manager.managed, (sinceManaged (s.manager.harness r).id s.log).Pairwise (· < ·)

instance (s : Announcer) : Decidable s.Increasing :=
  inferInstanceAs (Decidable (∀ r ∈ s.manager.managed, _))

/-- No event of a servable is still to be published. -/
def Quiet (id : ServableId) : Prop := ∀ x ∈ s.owed, x.2.2.id ≠ id

instance (s : Announcer) (id : ServableId) : Decidable (s.Quiet id) :=
  inferInstanceAs (Decidable (∀ x ∈ s.owed, _))

/-- The next section of a task in this stage decides on a load. -/
def decidesLoad : Stage → Bool
  | .scheduled .load _ | .waiting _ => true
  | _ => false

/-- If task `i` decides on a load and resources are tracked, then the resources are reserved, or
they are insufficient while another load or unload is being executed. -/
def Reservable (m : Manager) (i : Nat) (reservation : Reservation) : Prop :=
  m.tracked = true → ∀ stage ∈ m.tasks[i]?, decidesLoad stage = true →
    reservation = .reserved ∨ reservation = .insufficient ∧ m.numOngoing ≠ 0

instance (m : Manager) (i : Nat) (reservation : Reservation) :
    Decidable (Reservable m i reservation) :=
  inferInstanceAs (Decidable (_ → ∀ stage ∈ m.tasks[i]?, _))

/-- No reservation fails, and a servable is managed or unloaded only while none of its events
is still to be published. -/
def Prompt : Move → Prop
  | .act (.manage id _) | .act (.request .unload id) => s.Quiet id
  | .act (.decide i reservation) => Reservable s.manager i reservation
  | .act (.stop _) | .act (.request .load _) | .act (.execute _ _)
  | .publish _ => True

instance (s : Announcer) : DecidablePred s.Prompt
  | .act (.manage id _) | .act (.request .unload id) =>
    inferInstanceAs (Decidable (s.Quiet id))
  | .act (.decide i reservation) =>
    inferInstanceAs (Decidable (Reservable s.manager i reservation))
  | .act (.stop _) | .act (.request .load _) | .act (.execute _ _)
  | .publish _ => .isTrue trivial

end Announcer

/-! ## The order of the events -/

/-- The largest state that has been published for a harness in this state when none of its
events is still to be published. -/
def HarnessState.level : HarnessState → Nat
  | .new | .loadRequested => 0
  | .loadApproved | .loading => 1
  | .ready | .unloadRequested | .quiescing => 2
  | .quiesced | .unloading => 3
  | .disabled | .error => 4

namespace Manager

/-- Task `i` is at the point where it publishes `event` for harness `r`. -/
inductive Due (m : Manager) (i : Nat) (r : Ref) (event : ManagerState) : Prop
  | loading (he : event = .loading) (hi : m.tasks[i]? = some (.loadApproved r))
      (hs : (m.harness r).state = .loadApproved)
  | available (he : event = .available)
      (hi : m.tasks[i]? = some .loaded ∨ m.tasks[i]? = some (.finishing .ok))
      (hs : (m.harness r).state = .ready)
  | ended (he : event = .ended) (hi : m.tasks[i]? = some (.finishing .ok))
      (hs : (m.harness r).state = .disabled)

variable {m m' : Manager} {owed : List (Nat × Ref × ServableState)} {log : List LogEntry}

variable {i : Nat} {r : Ref} {event : ManagerState} {stage : Stage} {x : LoaderHarness}
  {e : ServableState} {stage' : Stage} {reservation : Reservation} {state : HarnessState}

section

variable (h : m.Due i r event)
include h

theorem Due.toNat_eq : event.toNat = (m.harness r).state.level := by
  cases h with
  | loading he _ hs | available he _ hs | ended he _ hs => rw [he, hs]; rfl

theorem Due.congr (htask : m'.tasks[i]? = m.tasks[i]?)
    (hstate : (m'.harness r).state = (m.harness r).state) : m'.Due i r event := by
  cases h with
  | loading he hi hs => exact .loading he (htask.trans hi) (hstate.trans hs)
  | available he hi hs => exact .available he (by rwa [htask]) (hstate.trans hs)
  | ended he hi hs => exact .ended he (htask.trans hi) (hstate.trans hs)

theorem Due.task_lt : i < m.tasks.length := by
  cases h with
  | loading _ hi _ | ended _ hi _ => exact (List.getElem?_eq_some_iff.mp hi).1
  | available _ hi _ =>
    rcases hi with hi | hi <;> exact (List.getElem?_eq_some_iff.mp hi).1

end

/-- How the log, the events still to be published and the harnesses fit together. -/
structure Announced (m : Manager) (owed : List (Nat × Ref × ServableState))
    (log : List LogEntry) : Prop where
  invariant : m.Invariant
  settled : m.Settled
  increasing : ∀ r ∈ m.managed, (sinceManaged (m.harness r).id log).Pairwise (· < ·)
  level : ∀ r ∈ m.managed, ∀ e ∈ sinceManaged (m.harness r).id log,
    e.toNat ≤ (m.harness r).state.level
  fresh : ∀ x ∈ owed, x.2.1 < m.next
  due : ∀ x ∈ owed, x.2.2.id = (m.harness x.2.1).id ∧ m.Due x.1 x.2.1 x.2.2.managerState
  distinct : owed.Pairwise fun x y => x.1 ≠ y.1 ∧ x.2.1 ≠ y.2.1
  behind : ∀ x ∈ owed, x.2.1 ∈ m.managed →
    ∀ e ∈ sinceManaged (m.harness x.2.1).id log, e < x.2.2.managerState
  alone : ∀ x ∈ owed, ∀ r ∈ m.managed, (m.harness r).id = (m.harness x.2.1).id → r = x.2.1

theorem announced_initial (tracked : Bool) : Announced (initial tracked) [] [] where
  invariant := invariant_initial tracked
  settled := settled_initial tracked
  increasing := by simp [initial]
  level := by simp [initial]
  fresh := by simp
  due := by simp
  distinct := .nil
  behind := by simp
  alone := by simp

section

variable (h : Announced m owed log)
include h

/-- A step that publishes nothing and lowers no level. -/
theorem Announced.move (hinv : m'.Invariant) (hset : m'.Settled) (hnext : m'.next = m.next)
    (hmanaged : ∀ r ∈ m'.managed, r ∈ m.managed) (hid : ∀ r, (m'.harness r).id = (m.harness r).id)
    (hlevel : ∀ r, (m.harness r).state.level ≤ (m'.harness r).state.level)
    (hdue : ∀ x ∈ owed, m'.Due x.1 x.2.1 x.2.2.managerState) : Announced m' owed log where
  invariant := hinv
  settled := hset
  increasing := fun r hr => by
    rw [hid]
    exact h.increasing r (hmanaged r hr)
  level := fun r hr e he => by
    rw [hid] at he
    exact (h.level r (hmanaged r hr) e he).trans (hlevel r)
  fresh := fun x hx => hnext ▸ h.fresh x hx
  due := fun x hx => ⟨by rw [hid]; exact (h.due x hx).1, hdue x hx⟩
  distinct := h.distinct
  behind := fun x hx hr e he => by
    rw [hid] at he
    exact h.behind x hx (hmanaged _ hr) e he
  alone := fun x hx r hr he => by
    rw [hid, hid] at he
    exact h.alone x hx r (hmanaged r hr) he

/-- An event is published for a managed harness for which nothing is owed. -/
theorem Announced.announce (hr : r ∈ m.managed) (hid : e.id = (m.harness r).id)
    (hfree : ∀ x ∈ owed, x.2.1 ≠ r)
    (hnew : ∀ e' ∈ sinceManaged (m.harness r).id log, e' < e.managerState)
    (hlevel : e.managerState.toNat ≤ (m.harness r).state.level) :
    Announced m owed (log ++ [.event e]) := by
  have hsame : ∀ y ∈ m.managed, y ≠ r → sinceManaged (m.harness y).id (log ++ [.event e]) =
      sinceManaged (m.harness y).id log := by
    intro y hy hyr
    rw [sinceManaged_append, LogEntry.observe, if_neg]
    intro he
    exact hyr (h.invariant.unique y hy r hr (he.symm.trans hid))
  have hself : sinceManaged (m.harness r).id (log ++ [.event e]) =
      sinceManaged (m.harness r).id log ++ [e.managerState] := by
    rw [sinceManaged_append, LogEntry.observe, if_pos hid]
  refine { h with
    increasing := fun y hy => ?_, level := fun y hy e' he' => ?_,
    behind := fun x hx hmem e' he' => ?_ }
  · by_cases hyr : y = r
    · rw [hyr, hself, pairwise_append]
      exact ⟨h.increasing r hr, pairwise_singleton _ _, by simpa using hnew⟩
    · rw [hsame y hy hyr]
      exact h.increasing y hy
  · by_cases hyr : y = r
    · rw [hyr, hself, mem_append, mem_singleton] at he'
      rw [hyr]
      rcases he' with he' | rfl
      · exact h.level r hr e' he'
      · exact hlevel
    · rw [hsame y hy hyr] at he'
      exact h.level y hy e' he'
  · rw [hsame _ hmem (hfree x hx)] at he'
    exact h.behind x hx hmem e' he'

/-- A task comes to owe an event of the managed harness it works on. -/
theorem Announced.defer (hr : r ∈ m.managed) (hid : e.id = (m.harness r).id)
    (hfree : ∀ x ∈ owed, x.1 ≠ i ∧ x.2.1 ≠ r) (hdue : m.Due i r e.managerState)
    (hnew : ∀ e' ∈ sinceManaged (m.harness r).id log, e' < e.managerState) :
    Announced m (owed ++ [(i, r, e)]) log := by
  have hmem : ∀ x, x ∈ owed ++ [(i, r, e)] → x ∈ owed ∨ x = (i, r, e) := by
    intro x hx
    rwa [mem_append, mem_singleton] at hx
  refine { h with
    fresh := fun x hx => ?_, due := fun x hx => ?_, distinct := ?_, behind := fun x hx => ?_
    alone := fun x hx => ?_ }
  · rcases hmem x hx with hx | rfl
    · exact h.fresh x hx
    · exact h.invariant.fresh r hr
  · rcases hmem x hx with hx | rfl
    · exact h.due x hx
    · exact ⟨hid, hdue⟩
  · rw [pairwise_append]
    exact ⟨h.distinct, pairwise_singleton _ _, by simpa using hfree⟩
  · rcases hmem x hx with hx | rfl
    · exact h.behind x hx
    · exact fun _ => hnew
  · rcases hmem x hx with hx | rfl
    · exact h.alone x hx
    · exact fun y hy he => h.invariant.unique y hy r hr he

/-- A task publishes what it owes. -/
theorem Announced.publish {x : Nat × Ref × ServableState} (hx : x ∈ owed) :
    Announced m (owed.filter fun y => y.1 ≠ x.1) (log ++ [.event x.2.2]) := by
  have hpair : owed.Pairwise fun y z => y ≠ z → y.1 ≠ z.1 ∧ y.2.1 ≠ z.2.1 :=
    h.distinct.imp fun {_ _} hyz => fun _ => hyz
  have hflip : owed.Pairwise fun y z => z ≠ y → z.1 ≠ y.1 ∧ z.2.1 ≠ y.2.1 :=
    h.distinct.imp fun {_ _} hyz => fun _ => ⟨hyz.1.symm, hyz.2.symm⟩
  have hdistinct : ∀ y ∈ owed, y ≠ x → y.1 ≠ x.1 ∧ y.2.1 ≠ x.2.1 := fun y hy hyx =>
    hpair.forall_of_forall_of_flip (fun _ _ hne => absurd rfl hne) hflip hy hx hyx
  have hsub : ∀ y ∈ owed.filter fun y => y.1 ≠ x.1, y ∈ owed ∧ y.2.1 ≠ x.2.1 := by
    intro y hy
    obtain ⟨hy, hyx⟩ := mem_filter.mp hy
    refine ⟨hy, (hdistinct y hy ?_).2⟩
    rintro rfl
    simp at hyx
  have hrest : Announced m (owed.filter fun y => y.1 ≠ x.1) log :=
    ⟨h.invariant, h.settled, h.increasing, h.level, fun y hy => h.fresh y (hsub y hy).1,
      fun y hy => h.due y (hsub y hy).1, h.distinct.filter _, fun y hy => h.behind y (hsub y hy).1,
      fun y hy => h.alone y (hsub y hy).1⟩
  obtain ⟨hid, hdue⟩ := h.due x hx
  by_cases hr : x.2.1 ∈ m.managed
  · exact hrest.announce hr hid (fun y hy => (hsub y hy).2) (h.behind x hx hr) hdue.toNat_eq.le
  -- The servable has been dropped, and no managed servable has its id.
  · have hsame : ∀ y ∈ m.managed, sinceManaged (m.harness y).id (log ++ [.event x.2.2]) =
        sinceManaged (m.harness y).id log := by
      intro y hy
      rw [sinceManaged_append, LogEntry.observe, if_neg]
      intro he
      exact hr (h.alone x hx y hy (he.symm.trans hid) ▸ hy)
    exact { hrest with
      increasing := fun y hy => by rw [hsame y hy]; exact hrest.increasing y hy
      level := fun y hy => by rw [hsame y hy]; exact hrest.level y hy
      behind := fun y hy hmem => by rw [hsame _ hmem]; exact hrest.behind y hy hmem }

/-- Nothing is owed for a harness that is not at a point of publication. -/
theorem Announced.free_of_state
    (hstate : (m.harness r).state ≠ .loadApproved ∧ (m.harness r).state ≠ .ready ∧
      (m.harness r).state ≠ .disabled) : ∀ x ∈ owed, x.2.1 ≠ r := by
  rintro x hx rfl
  cases (h.due x hx).2 with
  | loading _ _ hs => exact hstate.1 hs
  | available _ _ hs => exact hstate.2.1 hs
  | ended _ _ hs => exact hstate.2.2 hs

/-- What has been published for the harness of a task is below an event of a higher level. -/
theorem Announced.lt_of_level (hr : r ∈ m.managed)
    (hlevel : (m.harness r).state.level < event.toNat) :
    ∀ e ∈ sinceManaged (m.harness r).id log, e < event := fun e he =>
  (h.level r hr e he).trans_lt hlevel

end

/-! ## The steps -/

theorem errorCallback_of_eq {source : HarnessState} (hs : x.state = source)
    (target : HarnessState) : errorCallback (x.transitionState source target) = [] := by
  rw [LoaderHarness.transitionState_of_eq hs]
  rfl

/-- The stage of a task after it has been replaced. -/
theorem getElem?_set_task (hi : m.tasks[i]? = some stage)
    (stage' : Stage) : (m.tasks.set i stage')[i]? = some stage' :=
  List.getElem?_set_self (List.getElem?_eq_some_iff.mp hi).1

theorem deferred_eq (hi : m.tasks[i]? = some stage) (htasks : m'.tasks = m.tasks.set i stage') :
    m.deferred m' i = m.deferredBetween m' i stage stage' := by
  simp [deferred, hi, htasks, getElem?_set_task hi]

/-- A decision on a load publishes the events of `ApproveLoad`. -/
theorem published_decide (h : m.Invariant) (hs : m.Settled)
    (hw : m.Works i stage r .loadRequested) (reservation : Reservation) :
    m.published (.decide i reservation) = m.publishedApproveLoad r reservation := by
  have hi := hw.task
  rcases h.loadRequested_cases hs hw with ⟨id, rfl, hr⟩ | rfl
  · simp [published, hi, hr]
  · simp [published, hi]

/-- A positive decision on a load publishes nothing. -/
theorem publishedApproveLoad_reserved (hstate : (m.harness r).state = .loadRequested)
    (hreserve : m.tracked = true → reservation = .reserved) :
    m.publishedApproveLoad r reservation = [] := by
  have hcallback : errorCallback (m.harness r).loadApproved = [] :=
    errorCallback_of_eq hstate .loadApproved
  rw [publishedApproveLoad]
  split
  · next ht =>
    rw [hreserve ht, hcallback]
    rfl
  · exact hcallback

/-- The reservation for a load that is decided on does not fail. -/
theorem code_eq_ok_of_reservable {status : Status} (h : m.Invariant) (hs : m.Settled)
    (hw : m.Works i stage r .loadRequested) (htracked : m.tracked = true)
    (hreservable : Announcer.Reservable m i reservation)
    (hreserve : m.reserveResources r reservation = some status) : status.code = .ok := by
  have hload : Announcer.decidesLoad stage = true := by
    rcases h.loadRequested_cases hs hw with ⟨id, rfl, -⟩ | rfl <;> rfl
  rcases hreservable htracked stage hw.task hload with rfl | ⟨rfl, hbusy⟩
  · cases hreserve
    rfl
  · rw [reserveResources, if_neg hbusy] at hreserve
    cases hreserve

/-- A servable that becomes managed starts a new sequence of events. -/
theorem Announced.manage (h : Announced m owed log) {id : ServableId} {status : Status}
    (hnone : m.findHarnessInMap id = none) (hquiet : ∀ x ∈ owed, x.2.2.id ≠ id)
    (hinv : m'.Invariant) (hset : m'.Settled)
    (hm' : m' = { m.setHarness m.next (if status.code ≠ .ok then
        (LoaderHarness.create id).error status else .create id) with
      next := m.next + 1, managed := m.managed ++ [m.next] }) :
    Announced m' owed (log ++ [.managed id,
      .event (if status.code ≠ .ok then ⟨id, .ended, status⟩ else ⟨id, .start, .ok⟩)]) := by
  have hnew : ∀ r ∈ m.managed, (m.harness r).id ≠ id := by
    intro r hr he
    have hfind := find?_eq_none.mp hnone r hr
    simp [he] at hfind
  have hold : ∀ r, r < m.next → m'.harness r = m.harness r := by
    intro r hr
    rw [hm']
    exact update_of_ne (ne_of_lt hr) _ _
  have hself : m'.harness m.next = if status.code ≠ .ok then
      (LoaderHarness.create id).error status else .create id := by
    rw [hm']
    exact update_self ..
  have hmem : ∀ r ∈ m'.managed, (r ∈ m.managed ∧ m'.harness r = m.harness r) ∨ r = m.next := by
    intro r hr
    rw [hm', mem_append, mem_singleton] at hr
    rcases hr with hr | hr
    · exact .inl ⟨hr, hold r (h.invariant.fresh r hr)⟩
    · exact .inr hr
  have hid : (m'.harness m.next).id = id := by
    rw [hself]
    split <;> rfl
  set e : ServableState :=
    if status.code ≠ .ok then ⟨id, .ended, status⟩ else ⟨id, .start, .ok⟩ with he
  have heid : e.id = id := by
    rw [he]
    split <;> rfl
  have hsame : ∀ y, y ≠ id → sinceManaged y (log ++ [.managed id, .event e]) =
      sinceManaged y log := by
    intro y hy
    rw [append_cons, sinceManaged_append, sinceManaged_append]
    simp [LogEntry.observe, heid, if_neg hy.symm]
  have hfirst : sinceManaged id (log ++ [.managed id, .event e]) = [e.managerState] := by
    rw [append_cons, sinceManaged_append, sinceManaged_append]
    simp [LogEntry.observe, heid]
  refine ⟨hinv, hset, fun r hr => ?_, fun r hr e' he' => ?_, fun x hx => ?_, fun x hx => ?_,
    h.distinct, fun x hx hr => ?_, fun x hx r hr hrx => ?_⟩
  · rcases hmem r hr with ⟨hr, hsome⟩ | rfl
    · rw [hsome, hsame _ (hnew r hr)]
      exact h.increasing r hr
    · rw [hid, hfirst]
      exact pairwise_singleton _ _
  · rcases hmem r hr with ⟨hr, hsome⟩ | rfl
    · rw [hsome, hsame _ (hnew r hr)] at he'
      rw [hsome]
      exact h.level r hr e' he'
    · rw [hid, hfirst, mem_singleton] at he'
      rw [he', hself, he]
      split <;> exact le_refl _
  · rw [hm']
    exact Nat.lt_succ_of_lt (h.fresh x hx)
  · obtain ⟨hxid, hdue⟩ := h.due x hx
    have hx' := hold x.2.1 (h.fresh x hx)
    refine ⟨by rw [hx', hxid], hdue.congr ?_ (by rw [hx'])⟩
    rw [hm']
    rfl
  · have hx' := hold x.2.1 (h.fresh x hx)
    rcases hmem x.2.1 hr with ⟨hr, -⟩ | heq
    · rw [hx', hsame _ (hnew _ hr)]
      exact h.behind x hx hr
    · exact absurd heq (ne_of_lt (h.fresh x hx))
  · rw [hold x.2.1 (h.fresh x hx)] at hrx
    rcases hmem r hr with ⟨hr, hsome⟩ | rfl
    · rw [hsome] at hrx
      exact h.alone x hx r hr hrx
    · rw [hid] at hrx
      exact absurd ((h.due x hx).1.trans hrx.symm) (hquiet x hx)

section

variable (h : Announced m owed log) (hinv : m'.Invariant) (hset : m'.Settled)
  (hw : m.Works i stage r state) (hfree : ∀ y ∈ owed, y.1 ≠ i ∧ y.2.1 ≠ r)
  (hsets : m.Sets m' i stage' r x)
include h hinv hset hw hfree hsets

/-- A task that owes nothing works on a harness for which nothing is owed: it moves the harness
to a state of the same or a higher level. -/
theorem Announced.work (hlevel : state.level ≤ x.state.level) : Announced m' owed log := by
  refine h.move hinv hset hsets.next (fun y hy => hsets.managed ▸ hy) hsets.harness_id
    (fun y => ?_) (fun y hy => ?_)
  · by_cases hy : y = r
    · rw [hy, hsets.harness_self, hw.state]
      exact hlevel
    · rw [hsets.harness_of_ne hy]
  · obtain ⟨hyi, hyr⟩ := hfree y hy
    refine (h.due y hy).2.congr ?_ ?_
    · rw [hsets.tasks, getElem?_set_ne hyi.symm]
    · rw [hsets.harness_of_ne hyr]

variable (heid : e.id = (m.harness r).id) (hlow : state.level < e.managerState.toNat)
include heid hlow

/-- The task publishes an event of the new level in the same section. -/
theorem Announced.workAnnounce (hhigh : e.managerState.toNat ≤ x.state.level) :
    Announced m' owed (log ++ [.event e]) := by
  have h' := h.work hinv hset hw hfree hsets (hlow.le.trans hhigh)
  refine h'.announce (hsets.managed ▸ hw.mem) (by rw [hsets.harness_id, heid])
    (fun y hy => (hfree y hy).2) ?_ (by rwa [hsets.harness_self])
  rw [hsets.harness_id]
  exact h.lt_of_level hw.mem (by rwa [hw.state])

/-- The task owes an event of the new level after the section. -/
theorem Announced.workDefer (hdue : m'.Due i r e.managerState) :
    Announced m' (owed ++ [(i, r, e)]) log := by
  have hhigh := hdue.toNat_eq.le
  rw [hsets.harness_self] at hhigh
  have h' := h.work hinv hset hw hfree hsets (hlow.le.trans hhigh)
  refine h'.defer (hsets.managed ▸ hw.mem) (by rw [hsets.harness_id, heid]) hfree hdue ?_
  rw [hsets.harness_id]
  exact h.lt_of_level hw.mem (by rwa [hw.state])

end

section

variable (h : Announced m owed log)
include h

/-- A request moves a harness for which nothing is owed and starts a task. -/
theorem Announced.request (hinv : m'.Invariant) (hset : m'.Settled)
    (hm' : m' = { m.setState r state with tasks := m.tasks ++ [stage] })
    (hfree : ∀ x ∈ owed, x.2.1 ≠ r) (hlevel : (m.harness r).state.level ≤ state.level) :
    Announced m' owed log := by
  subst hm'
  refine h.move hinv hset rfl (fun _ hy => hy) (fun y => ?_) (fun y => ?_) (fun x hx => ?_)
  · exact update_id (x := { m.harness r with state := state }) rfl y
  · by_cases hy : y = r
    · simp only [setState, setHarness, hy, update_self]
      exact hlevel
    · simp [setState, setHarness, update_of_ne hy]
  · have hdue := (h.due x hx).2
    refine hdue.congr (getElem?_append_left hdue.task_lt) ?_
    simp [setState, setHarness, update_of_ne (hfree x hx)]

/-- The harness of a task that is about to call `Load` owes nothing once the task does not. -/
theorem Announced.free_of_loadApproved (hw : m.Works i (.loadApproved r) r .loadApproved)
    (hready : ∀ x ∈ owed, x.1 ≠ i) : ∀ x ∈ owed, x.2.1 ≠ r := by
  rintro x hx rfl
  have hstate := hw.state
  cases (h.due x hx).2 with
  | loading _ hi _ => exact hready x hx (h.invariant.exclusive _ _ _ _ _ hi hw.task rfl hw.owns)
  | available _ _ hs | ended _ _ hs => simp [hs] at hstate

/-- The serving map is updated after a load. -/
theorem Announced.served (hi : m.tasks[i]? = some .loaded)
    (hinv : (m.updateServingMap.setTask i (.finishing .ok)).Invariant)
    (hset : (m.updateServingMap.setTask i (.finishing .ok)).Settled) :
    Announced (m.updateServingMap.setTask i (.finishing .ok)) owed log := by
  refine h.move hinv hset rfl (fun _ hy => hy) (fun _ => rfl) (fun _ => le_rfl) (fun x hx => ?_)
  have hdue := (h.due x hx).2
  by_cases hxi : x.1 = i
  · cases hdue with
    | loading _ hi' _ | ended _ hi' _ =>
      rw [hxi, hi] at hi'
      cases hi'
    | available he _ hs =>
      refine .available he (.inr ?_) hs
      rw [hxi]
      exact getElem?_set_task hi _
  · exact hdue.congr (getElem?_set_ne (Ne.symm hxi)) rfl

end

/-- A task that works on a harness has published what it owes before its next section. -/
theorem Works.idle (hw : m.Works i stage r state)
    (hready : m.tasks[i]? = some .loaded ∨ ∀ x ∈ owed, x.1 ≠ i) : ∀ x ∈ owed, x.1 ≠ i := by
  refine hready.resolve_left fun hloaded => ?_
  obtain rfl := some.inj (hw.task.symm.trans hloaded)
  exact hw.owns

variable (h : Announced m owed log)
include h

/-- A task that works on a harness that is not at a point of publication. -/
theorem Announced.free (hw : m.Works i stage r state)
    (hready : m.tasks[i]? = some .loaded ∨ ∀ x ∈ owed, x.1 ≠ i)
    (hstate : state ≠ .loadApproved ∧ state ≠ .ready ∧ state ≠ .disabled) :
    ∀ x ∈ owed, x.1 ≠ i ∧ x.2.1 ≠ r := fun x hx =>
  ⟨hw.idle hready x hx, h.free_of_state (hw.state ▸ hstate) x hx⟩

/-- The calls keep the log in order. -/
theorem Announced.call {a : Action} (he : Effect m a m') (hinv : m'.Invariant)
    (hcall : Announcer.taskOf a = none) (hprompt : Announcer.Prompt ⟨m, owed, log⟩ (.act a)) :
    Announced m' owed (log ++ m.published a) := by
  have hset := he.settled h.invariant h.settled
  cases he with
  | known hr => simpa [published, hr] using h
  | managed hnone =>
    simp only [published, hnone]
    exact h.manage hnone hprompt hinv hset rfl
  | kept | ignored => simpa [published] using h
  | dropped hmem hstate =>
    simp only [published, append_nil]
    exact h.move hinv hset rfl (fun _ hy => mem_of_mem_erase hy) (fun _ => rfl)
      (fun _ => le_rfl) (fun x hx => (h.due x hx).2.congr rfl rfl)
  | loadRequested hmem hstate =>
    simp only [published, append_nil]
    refine h.request hinv hset rfl (h.free_of_state ?_) ?_ <;> rw [hstate] <;> decide
  | unloadRequested hmem hstate =>
    simp only [published, append_nil]
    refine h.request hinv hset rfl ?_ (by rw [hstate]; decide)
    rintro x hx rfl
    exact hprompt x hx (h.due x hx).1
  | _ => cases hcall

/-- A decision without a failed reservation keeps the log in order. -/
theorem Announced.decide (he : Effect m (.decide i reservation) m') (hinv : m'.Invariant)
    (hready : m.tasks[i]? = some .loaded ∨ ∀ x ∈ owed, x.1 ≠ i)
    (hprompt : Announcer.Reservable m i reservation) :
    Announced m' (owed ++ m.deferred m' i) (log ++ m.published (.decide i reservation)) := by
  have hset := he.settled h.invariant h.settled
  cases he with
  | rejected hi hstatus =>
    exact absurd hstatus (h.invariant.getHealthyHarness_ne_error h.settled hi)
  | @waiting _ stage r _ hw htracked hreserve =>
    have hpub : m.published (.decide i reservation) = [] := by
      rw [published_decide h.invariant h.settled hw, publishedApproveLoad, if_pos htracked]
      simp [hreserve]
    have hdef : m.deferred { m.setTask i (.waiting r) with deciding := some i } i = [] := by
      rw [deferred_eq hw.task rfl]
      rcases h.invariant.loadRequested_cases h.settled hw with ⟨id, rfl, -⟩ | rfl <;> rfl
    rw [hpub, hdef, append_nil, append_nil]
    exact h.work hinv hset hw (h.free hw hready (by decide))
      ⟨rfl, (update_eq_self r m.harness).symm, rfl, rfl, rfl⟩ (by rw [hw.state])
  | unreserved hw htracked hreserve hstatus =>
    exact absurd (code_eq_ok_of_reservable h.invariant h.settled hw htracked hprompt hreserve)
      hstatus
  | @loadApproved _ stage r _ hw hreserve =>
    have hself : (update m.harness r { m.harness r with state := .loadApproved }) r =
        { m.harness r with state := .loadApproved } := update_self ..
    have hpub : m.published (.decide i reservation) = [] := by
      rw [published_decide h.invariant h.settled hw,
        publishedApproveLoad_reserved hw.state hreserve]
    have hdef : m.deferred ((m.setState r .loadApproved).approve i (.loadApproved r)).2 i =
        [(i, r, ⟨(m.harness r).id, .loading, (m.harness r).status⟩)] := by
      rw [deferred_eq hw.task rfl]
      rcases h.invariant.loadRequested_cases h.settled hw with ⟨id, rfl, -⟩ | rfl <;>
        simp [deferredBetween, approve, setTask, setState, setHarness]
    rw [hpub, hdef, append_nil]
    exact h.workDefer hinv hset hw (h.free hw hready (by decide)) ⟨rfl, rfl, rfl, rfl, rfl⟩ rfl
      Nat.zero_lt_one
      (.loading rfl (getElem?_set_task hw.task _) (congrArg LoaderHarness.state hself))
  | @unloadApproved _ stage r _ hw =>
    obtain ⟨id, rfl, hr⟩ := h.invariant.unloadRequested_cases h.settled hw
    have hpub : m.published (.decide i reservation) = [] := by
      simp only [published, hw.task, hr]
      exact errorCallback_of_eq hw.state .quiescing
    have hdef : m.deferred ((m.setState r .quiescing).approve i (.unloadApproved r)).2 i = [] := by
      rw [deferred_eq hw.task rfl]
      rfl
    rw [hpub, hdef, append_nil, append_nil]
    exact h.work hinv hset hw (h.free hw hready (by decide)) ⟨rfl, rfl, rfl, rfl, rfl⟩ le_rfl

/-- The sections of the execution phase keep the log in order. -/
theorem Announced.execute {outcome : Status} (he : Effect m (.execute i outcome) m')
    (hinv : m'.Invariant) (hready : m.tasks[i]? = some .loaded ∨ ∀ x ∈ owed, x.1 ≠ i) :
    Announced m' (owed ++ m.deferred m' i) (log ++ m.published (.execute i outcome)) := by
  have hset := he.settled h.invariant h.settled
  have hself : ∀ (r : Ref) (state : HarnessState),
      (update m.harness r { m.harness r with state := state } r).state = state := by
    intro r state
    rw [update_self]
  cases he with
  | @loading _ r _ hw =>
    have hidle := hw.idle hready
    have hpub : m.published (.execute i outcome) = [] := by
      simp only [published, hw.task]
      exact errorCallback_of_eq hw.state .loading
    rw [hpub, deferred_eq hw.task rfl, deferredBetween, append_nil, append_nil]
    · exact h.work hinv hset hw (fun x hx => ⟨hidle x hx, h.free_of_loadApproved hw hidle x hx⟩)
        ⟨rfl, rfl, rfl, rfl, rfl⟩ le_rfl
    all_goals simp
  | @loaded _ r _ hw houtcome =>
    have hpub : m.published (.execute i outcome) = [] := by
      simp [published, hw.task, LoaderHarness.loadEnd_of_loading hw.state, errorCallback,
        if_neg (not_not.mpr houtcome)]
    rw [hpub, deferred_eq hw.task rfl, append_nil]
    exact h.workDefer hinv hset hw (h.free hw hready (by decide)) ⟨rfl, rfl, rfl, rfl, rfl⟩ rfl
      (Nat.lt_succ_self 1)
      (.available rfl (.inl (getElem?_set_task hw.task _)) (hself r .ready))
  | @loadFailed _ r _ hw houtcome =>
    have hpub : m.published (.execute i outcome) =
        [.event ⟨(m.harness r).id, .ended, outcome⟩] := by
      simp only [published, hw.task, LoaderHarness.loadEnd_of_loading hw.state, errorCallback,
        if_pos houtcome, if_neg houtcome]
      rfl
    rw [hpub, deferred_eq hw.task rfl, deferredBetween, append_nil]
    · exact h.workAnnounce hinv hset hw (h.free hw hready (by decide)) ⟨rfl, rfl, rfl, rfl, rfl⟩ rfl
        (show 1 < 4 by decide) le_rfl
    all_goals simp
  | served hi =>
    have hpub : m.published (.execute i outcome) = [] := by simp [published, hi]
    rw [hpub, deferred_eq hi rfl, deferredBetween, append_nil, append_nil]
    · exact h.served hi hinv hset
    all_goals simp
  | @quiesced _ r _ hw =>
    have hpub : m.published (.execute i outcome) =
        [.event ⟨(m.harness r).id, .unloading, (m.harness r).status⟩] := by
      simp [published, hw.task, LoaderHarness.doneQuiescing, errorCallback_of_eq hw.state]
    rw [hpub, deferred_eq hw.task rfl, deferredBetween, append_nil]
    · exact h.workAnnounce hinv hset hw (h.free hw hready (by decide)) ⟨rfl, rfl, rfl, rfl, rfl⟩ rfl
        (Nat.lt_succ_self 2) le_rfl
    all_goals simp
  | @unloading _ r _ hw =>
    have hpub : m.published (.execute i outcome) = [] := by
      simp only [published, hw.task]
      exact errorCallback_of_eq hw.state .unloading
    rw [hpub, deferred_eq hw.task rfl, deferredBetween, append_nil, append_nil]
    · exact h.work hinv hset hw (h.free hw hready (by decide)) ⟨rfl, rfl, rfl, rfl, rfl⟩ le_rfl
    all_goals simp
  | @unloaded _ r _ hw =>
    have hpub : m.published (.execute i outcome) = [] := by
      simp only [published, hw.task]
      exact errorCallback_of_eq hw.state .disabled
    rw [hpub, deferred_eq hw.task rfl, append_nil]
    exact h.workDefer hinv hset hw (h.free hw hready (by decide)) ⟨rfl, rfl, rfl, rfl, rfl⟩ rfl
      (Nat.lt_succ_self 3)
      (.ended rfl (getElem?_set_task hw.task _) (hself r .disabled))
  | finished hi =>
    have hidle := hready.resolve_left fun hloaded => by rw [hi] at hloaded; cases hloaded
    have hpub : m.published (.execute i outcome) = [] := by simp [published, hi]
    rw [hpub, deferred_eq hi rfl, deferredBetween, append_nil, append_nil]
    · refine h.move hinv hset rfl (fun _ hy => hy) (fun _ => rfl) (fun _ => le_rfl) (fun x hx => ?_)
      exact (h.due x hx).2.congr (getElem?_set_ne (hidle x hx).symm) rfl
    all_goals simp

end Manager

namespace Announcer

/-- Every step of a prompt run keeps the log in order. -/
theorem announced_step {s s' : Announcer} {x : Move} (h : s.manager.Announced s.owed s.log)
    (hprompt : s.Prompt x) (hs : s.step x = some s') : s'.manager.Announced s'.owed s'.log := by
  cases x with
  | act a =>
    rw [step] at hs
    split at hs
    · next hready =>
      obtain ⟨m', ha, rfl⟩ := map_eq_some_iff.mp hs
      have hinv := h.invariant.step ha
      have he := h.invariant.effect ha
      cases a with
      | manage id status =>
        simpa [taskOf] using h.call he hinv rfl hprompt
      | stop id => simpa [taskOf] using h.call he hinv rfl hprompt
      | request kind id => simpa [taskOf] using h.call he hinv rfl hprompt
      | decide i reservation => exact h.decide he hinv (hready i rfl) hprompt
      | execute i outcome => exact h.execute he hinv (hready i rfl)
    · cases hs
  | publish i =>
    rw [step] at hs
    split at hs
    · cases hs
    · split at hs
      · cases hs
      · next x hx =>
        cases hs
        obtain rfl : x.1 = i := by simpa using find?_some hx
        exact h.publish (mem_of_find?_eq_some hx)

/-- In every run in which no reservation fails and a servable is managed or unloaded only while
none of its events is still to be published, the events of each managed servable are strictly
increasing. -/
theorem events_increasing_of_prompt_run (tracked : Bool) (moves : List Move) (s : Announcer)
    (hprompt : Run.Admissible step Prompt (initial tracked) moves)
    (hrun : Run.run step (initial tracked) moves = some s) : s.Increasing := by
  have h : s.manager.Announced s.owed s.log :=
    Run.run_invariant (fun _ _ _ h hp hs => announced_step h hp hs)
      (Manager.announced_initial tracked) hprompt hrun
  exact h.increasing

/-- A servable is loaded and unloaded. -/
def lifecycle : List Move :=
  [.act (.manage ⟨"model", 1⟩ .ok), .act (.request .load ⟨"model", 1⟩), .act (.decide 0 .reserved),
    .publish 0, .act (.execute 0 .ok), .act (.execute 0 .ok), .act (.execute 0 .ok), .publish 0,
    .act (.request .unload ⟨"model", 1⟩), .act (.decide 1 .reserved), .act (.execute 1 .ok),
    .act (.execute 1 .ok), .act (.execute 1 .ok), .publish 1]

/-- The events of a servable that is loaded and unloaded. -/
theorem events_increasing_lifecycle : ∃ s, Run.run step (initial true) lifecycle = some s ∧
      sinceManaged ⟨"model", 1⟩ s.log = [.start, .loading, .available, .unloading, .ended] ∧
      s.Increasing := by
  refine ⟨_, rfl, by decide, ?_⟩
  exact events_increasing_of_prompt_run true lifecycle _ (by decide) rfl

/-- The reservation for a load fails for lack of resources. -/
def exhaustedLoad : List Move :=
  [.act (.manage ⟨"model", 1⟩ .ok), .act (.request .load ⟨"model", 1⟩),
    .act (.decide 0 .insufficient)]

/-- A servable that is ready but not announced as available yet is unloaded. -/
def overtakingUnload : List Move :=
  [.act (.manage ⟨"model", 1⟩ .ok), .act (.request .load ⟨"model", 1⟩), .act (.decide 0 .reserved),
    .publish 0, .act (.execute 0 .ok), .act (.execute 0 .ok),
    .act (.request .unload ⟨"model", 1⟩), .act (.decide 1 .reserved), .act (.execute 1 .ok),
    .act (.execute 0 .ok), .publish 0]

/-- After a failed reservation the end of the servable is published twice, and an unload can
overtake the publication that ends the load. -/
theorem events_not_increasing : (∃ s, Run.run step (initial true) exhaustedLoad = some s ∧
      sinceManaged ⟨"model", 1⟩ s.log = [.start, .ended, .ended] ∧ ¬ s.Increasing) ∧
    ∃ s, Run.run step (initial false) overtakingUnload = some s ∧
      sinceManaged ⟨"model", 1⟩ s.log = [.start, .loading, .unloading, .available] ∧
      ¬ s.Increasing :=
  ⟨⟨_, rfl, by decide, by decide⟩, ⟨_, rfl, by decide, by decide⟩⟩

end Announcer

end Tension.Serving
