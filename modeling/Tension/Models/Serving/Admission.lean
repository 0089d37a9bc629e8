import Tension.Models.Resources.Commitment
import Tension.Models.Serving.Retrier
import Tension.Models.Serving.Safety

/-!
# Admission of loads

With a resource tracker the decision on a load recomputes the usage from the loaders in
use and then tries to reserve what the new loader asks for. Every loader has one
allocation, but each call that asks for it may fail; the error of a failed
recomputation is ignored.
-/

namespace Tension.Serving

open Resources List Option Function

/-- The states that `GetLoadersCurrentlyUsingResources` classifies as using resources. -/
def HarnessState.usesResources : HarnessState → Bool
  | .new => false
  | .loadRequested => false
  | .loadApproved => true
  | .loading => true
  | .ready => true
  | .quiescing => true
  | .quiesced => true
  | .unloadRequested => true
  | .unloading => true
  | .disabled => false
  | .error => false

/-- `GetLoadersCurrentlyUsingResources`. -/
def Manager.loadersUsingResources (m : Manager) : List Ref :=
  m.managed.filter fun r => (m.harness r).state.usesResources

/-- What `EstimateResources` returns for loaders with these allocations when the listed calls
fail. -/
def reports : List ResourceAllocation → List (Option Status) →
    List (Except Status ResourceAllocation)
  | [], _ => []
  | a :: as, [] => .ok a :: reports as []
  | a :: as, none :: failures => .ok a :: reports as failures
  | _ :: as, some status :: failures => .error status :: reports as failures

/-- One try of `Retry`: how `EstimateResources` fails, if it does, and whether the retries are
cancelled afterwards. -/
structure Try where
  failure : Option Status
  cancelled : Bool
  deriving DecidableEq, Repr

variable (allocation : ResourceAllocation)

/-- One call of `ResourceTracker::ReserveResources`. -/
def reserveOnce (now : Try) (tracker : ResourceTracker) :
    Except Status Bool × ResourceTracker :=
  tracker.reserveResources (match now.failure with
    | some status => .error status
    | none => .ok allocation)

/-- The tracker after so many calls of `ResourceTracker::ReserveResources`. -/
def trackerAfter (allocation : ResourceAllocation) (tries : List Try) (tracker : ResourceTracker) :
    Nat → ResourceTracker
  | 0 => tracker
  | n + 1 => (reserveOnce allocation (tries.getD n ⟨none, false⟩)
      (trackerAfter allocation tries tracker n)).2

/-- A call of `ResourceTracker::ReserveResources`, counted from one. -/
def reserveCall (tries : List Try) (tracker : ResourceTracker)
    (n : Nat) : Except Status Bool × ResourceTracker :=
  reserveOnce allocation (tries.getD (n - 1) ⟨none, false⟩)
    (trackerAfter allocation tries tracker (n - 1))

/-- What `Retry` sees of the calls. -/
def reserveAnswers (tries : List Try)
    (tracker : ResourceTracker) : Retrier.Answers where
  retriedFn n := match (reserveCall allocation tries tracker n).1 with
    | .error status => status
    | .ok _ => .ok
  isCancelled n := (tries.getD (n - 1) ⟨none, false⟩).cancelled

/-- `Retry` around `ResourceTracker::ReserveResources`: what its last call returns. -/
def reserveWithRetries (maxNumRetries : UInt32)
    (tries : List Try) (tracker : ResourceTracker) :
    Option (Except Status Bool × ResourceTracker) :=
  (Retrier.retry maxNumRetries (reserveAnswers allocation tries tracker)).map fun r =>
    reserveCall allocation tries tracker r.1

/-- The manager with its resource tracker. -/
structure TrackedManager where
  manager : Manager
  /-- `resource_tracker_`. -/
  tracker : ResourceTracker
  maxNumLoadRetries : UInt32
  /-- What the loader of a harness reports. -/
  allocation : Ref → ResourceAllocation

namespace TrackedManager

/-- A manager without servables. -/
def initial (tracker : ResourceTracker) (maxNumLoadRetries : UInt32) : TrackedManager :=
  ⟨.initial true, tracker, maxNumLoadRetries, fun _ => []⟩

variable (s : TrackedManager)

/-- The allocations of the loaders that use resources. -/
def inUse : List ResourceAllocation :=
  s.manager.loadersUsingResources.map s.allocation

/-- One iteration of the loop of `BasicManager::ReserveResources`. -/
def reserveResources (r : Ref) (failures : List (Option Status))
    (tries : List Try) : Option (Reservation × ResourceTracker) :=
  -- The status of the recomputation is ignored.
  let tracker := (s.tracker.recomputeUsedResources (reports s.inUse failures)).2
  (reserveWithRetries (s.allocation r) s.maxNumLoadRetries tries tracker).map fun
    | (.error status, tracker) => (.failed status, tracker)
    | (.ok true, tracker) => (.reserved, tracker)
    | (.ok false, tracker) => (.insufficient, tracker)

/-- The harness for which a decision step reserves resources. -/
def reserving (m : Manager) (i : Nat) : Option Ref :=
  if m.deciding = none ∨ m.deciding = some i then
    match m.tasks[i]? with
    | some (.scheduled .load id) => (m.getHealthyHarness id).toOption
    | some (.waiting r) => some r
    | _ => none
  else none

/-- The steps of the manager; a decision lists the calls of `EstimateResources` that fail. -/
inductive Move where
  | manage (id : ServableId) (status : Status) (allocation : ResourceAllocation)
  | stop (id : ServableId)
  | request (kind : Kind) (id : ServableId)
  | decide (task : Nat) (failures : List (Option Status)) (tries : List Try)
  | execute (task : Nat) (outcome : Status)

/-- One step; `none` also if the counter of `Retry` overflows. -/
def step : Move → Option TrackedManager
  | .manage id status allocation => (s.manager.advance (.manage id status)).map fun m => { s with
      manager := m, allocation := Function.update s.allocation s.manager.next allocation }
  | .stop id => (s.manager.advance (.stop id)).map fun m => { s with manager := m }
  | .request kind id => (s.manager.advance (.request kind id)).map fun m => { s with manager := m }
  | .decide i failures tries =>
    match reserving s.manager i with
    | none => (s.manager.advance (.decide i .reserved)).map fun m => { s with manager := m }
    | some r =>
      (s.reserveResources r failures tries).bind fun result =>
        (s.manager.advance (.decide i result.1)).map fun m => { s with
          manager := m, tracker := result.2 }
  | .execute i outcome => (s.manager.advance (.execute i outcome)).map fun m => { s with
      manager := m }

/-- The allocations of all loaders that use resources fit into the total together. -/
def Admitted : Prop :=
  s.tracker.util.Fits s.tracker.totalResources s.inUse

/-- Every loader reports a valid allocation. -/
def Valid (s : TrackedManager) : Move → Prop
  | .manage _ _ allocation => (s.tracker.util.verifyValidity allocation).code = .ok
  | .stop _ | .request _ _ | .decide _ _ _ | .execute _ _ => True

instance (s : TrackedManager) : DecidablePred s.Valid
  | .manage _ _ _ => inferInstanceAs (Decidable (_ = _))
  | .stop _ | .request _ _ | .decide _ _ _ | .execute _ _ => .isTrue trivial

/-- Every loader reports a valid allocation, no recomputation of the usage fails, and no sum of
quantities overflows. -/
def Undisturbed : Move → Prop
  | .manage _ _ allocation => (s.tracker.util.verifyValidity allocation).code = .ok
  | .decide i failures _ => (∀ failure ∈ failures, failure = none) ∧
      ∀ r ∈ reserving s.manager i,
        s.tracker.util.Representable (s.inUse ++ [s.allocation r]).flatten
  | .stop _ | .request _ _ | .execute _ _ => True

end TrackedManager

/-! ## Loaders in use -/

namespace Manager

variable {m m' : Manager}

theorem mem_loadersUsingResources {r : Ref} :
    r ∈ m.loadersUsingResources ↔ r ∈ m.managed ∧ (m.harness r).state.usesResources = true :=
  mem_filter

/-- Harnesses that do not start to use resources. -/
theorem loadersUsingResources_sublist (hmanaged : m'.managed.Sublist m.managed)
    (huse : ∀ r ∈ m'.managed, (m'.harness r).state.usesResources = true →
      (m.harness r).state.usesResources = true) :
    m'.loadersUsingResources.Sublist m.loadersUsingResources := by
  have heq : m'.loadersUsingResources = (m'.managed.filter fun r =>
      (m.harness r).state.usesResources).filter fun r => (m'.harness r).state.usesResources := by
    rw [List.filter_filter]
    refine filter_congr fun r hr => ?_
    cases hu : (m'.harness r).state.usesResources with
    | false => rw [Bool.false_and]
    | true => rw [huse r hr hu, Bool.true_and]
  rw [heq]
  exact filter_sublist.trans (hmanaged.filter _)

/-- A harness moves to a state that uses resources only if its old state does. -/
theorem loadersUsingResources_move {r : Ref} {x : LoaderHarness}
    (hharness : m'.harness = Function.update m.harness r x) (hmanaged : m'.managed = m.managed)
    (huse : x.state.usesResources = true → (m.harness r).state.usesResources = true) :
    m'.loadersUsingResources.Sublist m.loadersUsingResources := by
  refine loadersUsingResources_sublist (hmanaged ▸ .refl _) fun y _ hy => ?_
  rw [hharness] at hy
  by_cases hyr : y = r
  · rw [hyr, update_self] at hy
    rw [hyr]
    exact huse hy
  · rwa [update_of_ne hyr] at hy

/-- A harness that did not use resources starts to use them. -/
theorem loadersUsingResources_perm (hs : m.Settled) {r : Ref} (hmem : r ∈ m.managed)
    {x : LoaderHarness} (hharness : m'.harness = Function.update m.harness r x)
    (hmanaged : m'.managed = m.managed) (hold : (m.harness r).state.usesResources = false)
    (hnew : x.state.usesResources = true) :
    m'.loadersUsingResources.Perm (m.loadersUsingResources ++ [r]) := by
  have hnot : r ∉ m.loadersUsingResources := fun hr => by
    rw [mem_loadersUsingResources, hold] at hr
    cases hr.2
  refine (perm_ext_iff_of_nodup ?_ ?_).mpr fun y => ?_
  · exact (hmanaged ▸ hs.nodup).filter _
  · refine nodup_append.mpr ⟨hs.nodup.filter _, nodup_singleton _, fun y hy z hz => ?_⟩
    rw [mem_singleton.mp hz]
    rintro rfl
    exact hnot hy
  · rw [mem_loadersUsingResources, mem_append, mem_loadersUsingResources, hmanaged, hharness]
    by_cases hyr : y = r
    · rw [hyr]
      simp [hmem, hnew]
    · simp [hyr]

/-- The decision on a load reserves resources for the harness of its task. -/
theorem reserving_of_works (h : m.Invariant) (hs : m.Settled) {i : Nat} {stage : Stage} {r : Ref}
    (hw : m.Works i stage r .loadRequested) {reservation : Reservation}
    (ha : m.advance (.decide i reservation) = some m') : TrackedManager.reserving m i = some r := by
  obtain ⟨p, hp, -⟩ := map_eq_some_iff.mp ha
  have hi := hw.task
  have hfree : m.deciding = none ∨ m.deciding = some i := by
    by_contra hne
    rw [step, Manager.decide, if_neg hne] at hp
    cases hp
  rw [TrackedManager.reserving, if_pos hfree]
  rcases h.loadRequested_cases hs hw with ⟨id, rfl, hr⟩ | rfl
  · simp only [hi, hr]
    rfl
  · simp [hi]

/-- Loaders stop using resources, except that an approved load starts to use those that have
been reserved for it. -/
theorem Effect.loadersUsingResources {a : Action} (he : Effect m a m') (hs : m.Settled)
    (hinv : m.Invariant) : m'.loadersUsingResources.Sublist m.loadersUsingResources ∨
      ∃ i stage r reservation, a = .decide i reservation ∧ m.Works i stage r .loadRequested ∧
        (m.tracked = true → reservation = .reserved) ∧
        m'.loadersUsingResources.Perm (m.loadersUsingResources ++ [r]) := by
  cases he with
  | known _ | kept | ignored => exact .inl (.refl _)
  | @managed id status hnone =>
    have hnew : (if status.code ≠ .ok then (LoaderHarness.create id).error status
        else .create id).state.usesResources = false := by
      split <;> rfl
    simp only [Manager.loadersUsingResources, setHarness, filter_append,
      filter_singleton, update_self, hnew]
    rw [filter_congr fun r hr => by
      rw [update_of_ne (ne_of_lt (hinv.fresh r hr))]]
    simp
  | dropped _ _ => exact .inl (loadersUsingResources_sublist erase_sublist fun _ _ h => h)
  | loadRequested _ _ => exact .inl (loadersUsingResources_move rfl rfl fun h => by cases h)
  | unloadRequested _ hstate =>
    exact .inl (loadersUsingResources_move rfl rfl fun _ => by rw [hstate]; rfl)
  | rejected _ _ | waiting _ _ _ | served _ | finished _ => exact .inl (.refl _)
  | unreserved _ _ _ _ | loadFailed _ _ | unloaded _ =>
    exact .inl (loadersUsingResources_move rfl rfl fun h => by cases h)
  | @loadApproved i stage r reservation hw hreserve =>
    refine .inr ⟨i, stage, r, reservation, rfl, hw, hreserve, ?_⟩
    exact loadersUsingResources_perm hs hw.mem rfl rfl (by rw [hw.state]; rfl) rfl
  | unloadApproved hw | loading hw | loaded hw _ | unloading hw | quiesced hw =>
    exact .inl (loadersUsingResources_move rfl rfl fun _ => by rw [hw.state]; rfl)

end Manager

/-! ## Reservations -/

/-- Two states of one tracker. -/
def SameTotal (t t' : ResourceTracker) : Prop :=
  t'.util = t.util ∧ t'.totalResources = t.totalResources

/-- The tracker admits an allocation on top of its usage. -/
def Admits (t : ResourceTracker) (a : ResourceAllocation) : Prop :=
  t.util.lessThanOrEqual (t.util.add a (t.util.overbind t.usedResources)) t.totalResources = true

/-- A reservation succeeds only if the tracker admits the allocation, and an estimate that fails
leaves the tracker as it is. -/
theorem reserveResources_spec (t : ResourceTracker) (estimate : Except Status ResourceAllocation) :
    SameTotal t (t.reserveResources estimate).2 ∧
      (∀ status, (t.reserveResources estimate).1 = .error status →
        (t.reserveResources estimate).2 = t) ∧
      ∀ a, estimate = .ok a → (t.reserveResources estimate).1 = .ok true → Admits t a := by
  cases estimate with
  | error status => exact ⟨⟨rfl, rfl⟩, fun _ _ => rfl, fun _ _ h => by cases h⟩
  | ok a =>
    rw [ResourceTracker.reserveResources]
    dsimp only
    split
    · exact ⟨⟨rfl, rfl⟩, fun _ _ => rfl, fun _ _ h => by cases h⟩
    · split
      · next hle =>
        refine ⟨⟨rfl, rfl⟩, fun _ h => (by cases h), ?_⟩
        rintro _ ⟨⟩ -
        exact hle
      · exact ⟨⟨rfl, rfl⟩, fun _ _ => rfl, fun _ _ h => by cases h⟩

theorem reserveOnce_spec (a : ResourceAllocation) (now : Try) (t : ResourceTracker) :
    SameTotal t (reserveOnce a now t).2 ∧
      (∀ status, (reserveOnce a now t).1 = .error status → (reserveOnce a now t).2 = t) ∧
      ((reserveOnce a now t).1 = .ok true → Admits t a) := by
  rw [reserveOnce]
  cases now.failure with
  | none =>
    obtain ⟨hsame, herror, hok⟩ := reserveResources_spec t (.ok a)
    exact ⟨hsame, herror, hok a rfl⟩
  | some status => exact ⟨⟨rfl, rfl⟩, fun _ _ => rfl, nofun⟩

/-- The calls before the last one fail and leave the tracker as it is. -/
theorem trackerAfter_eq {a : ResourceAllocation} {tries : List Try} {t : ResourceTracker} {n : Nat}
    (h : ∀ m, 0 < m → m ≤ n → ¬ (reserveAnswers a tries t).Ends m) :
    trackerAfter a tries t n = t := by
  induction n with
  | zero => rfl
  | succ n ih =>
    have hbefore := ih fun m hm hmn => h m hm (by omega)
    rw [trackerAfter, hbefore]
    cases hresult : (reserveOnce a (tries.getD n ⟨none, false⟩) t).1 with
    | error status => exact (reserveOnce_spec a _ t).2.1 status hresult
    | ok reserved =>
      refine absurd (.inl ?_) (h (n + 1) n.succ_pos le_rfl)
      simp only [reserveAnswers, reserveCall, Nat.add_sub_cancel, hbefore, hresult]
      rfl

/-- A reservation that succeeds after retries has been admitted on top of the usage before
them. -/
theorem reserveWithRetries_spec {a : ResourceAllocation} {maxNumRetries : UInt32}
    {tries : List Try} {t : ResourceTracker} {result : Except Status Bool × ResourceTracker}
    (h : reserveWithRetries a maxNumRetries tries t = some result) :
    SameTotal t result.2 ∧ (result.1 = .ok true → Admits t a) := by
  obtain ⟨⟨n, status⟩, hretry, rfl⟩ := map_eq_some_iff.mp h
  obtain ⟨hn, -, -, hfirst⟩ := (Retrier.retryLoop_eq_some _ _).mp hretry
  have htracker : trackerAfter a tries t (n - 1) = t :=
    trackerAfter_eq fun m hm hmn hends => hfirst m hm (by omega) (.inl hends)
  rw [reserveCall, htracker]
  obtain ⟨hsame, -, hok⟩ := reserveOnce_spec a (tries.getD (n - 1) ⟨none, false⟩) t
  exact ⟨hsame, hok⟩

theorem reports_of_forall_none {as : List ResourceAllocation} {failures : List (Option Status)}
    (h : ∀ failure ∈ failures, failure = none) : reports as failures = as.map .ok := by
  induction as generalizing failures with
  | nil => rfl
  | cons a as ih =>
    cases failures with
    | nil => rw [reports, ih (forall_mem_nil _), map_cons]
    | cons failure failures =>
      obtain ⟨rfl, hnone⟩ := forall_mem_cons.mp h
      rw [reports, ih hnone, map_cons]

/-! ## Runs -/

namespace TrackedManager

/-- What every run keeps as long as it is not disturbed. -/
structure Accounted (util : ResourceUtil) (total : ResourceAllocation) (s : TrackedManager) :
    Prop where
  invariant : s.manager.Invariant
  settled : s.manager.Settled
  tracked : s.manager.tracked = true
  util_eq : s.tracker.util = util
  total_eq : s.tracker.totalResources = total
  created : s.tracker.Created
  proper : ∀ r ∈ s.manager.managed, util.Proper (s.allocation r)
  fits : util.Fits total s.inUse

variable {util : ResourceUtil} {total : ResourceAllocation} {s s' : TrackedManager}

section

variable (h : Accounted util total s)
include h

/-- A reservation keeps the device table and the total, and after an undisturbed recomputation
it is admitted on top of the loaders in use. -/
theorem Accounted.reserveResources (r : Ref) {failures : List (Option Status)}
    (hfailures : ∀ failure ∈ failures, failure = none)
    (hrep : util.Representable (s.inUse ++ [s.allocation r]).flatten) {tries : List Try}
    {result : Reservation × ResourceTracker}
    (hresult : s.reserveResources r failures tries = some result) :
    SameTotal s.tracker result.2 ∧
      (result.1 = .reserved → ∃ used, util.Tracks used s.inUse ∧
        util.lessThanOrEqual (util.add (s.allocation r) (util.overbind used)) total = true) := by
  have hproper : ∀ a ∈ s.inUse, util.Proper a := by
    intro a ha
    obtain ⟨r', hr', rfl⟩ := mem_map.mp ha
    exact h.proper r' (Manager.mem_loadersUsingResources.mp hr').1
  obtain ⟨rfl, rfl⟩ := And.intro h.util_eq h.total_eq
  have hempty : s.tracker.util.Tracks { s.tracker with usedResources := [] }.usedResources [] :=
    ResourceUtil.tracks_nil _
  obtain ⟨used, heq, htracks⟩ := ResourceTracker.tracks_addEstimates
    (t := { s.tracker with usedResources := [] }) hempty hproper hrep.of_append
  have hrecompute : (s.tracker.recomputeUsedResources (reports s.inUse failures)).2 =
      { s.tracker with usedResources := used } := by
    rw [ResourceTracker.recomputeUsedResources, reports_of_forall_none hfailures, heq]
  rw [TrackedManager.reserveResources, hrecompute] at hresult
  obtain ⟨⟨answer, tracker⟩, hretry, rfl⟩ := map_eq_some_iff.mp hresult
  obtain ⟨hsame, hadmits⟩ := reserveWithRetries_spec hretry
  match answer with
  | .error _ | .ok false => exact ⟨hsame, nofun⟩
  | .ok true => exact ⟨hsame, fun _ => ⟨used, htracks, hadmits rfl⟩⟩

/-- A step of the manager together with what it leaves of the tracker and the allocations. -/
theorem Accounted.advance {a : Manager.Action} {m' : Manager} (ha : s.manager.advance a = some m')
    {t : ResourceTracker} (ht : SameTotal s.tracker t) {allocation : Ref → ResourceAllocation}
    (hproper : ∀ r ∈ m'.managed, util.Proper (allocation r))
    (hfits : util.Fits total (m'.loadersUsingResources.map allocation)) :
    Accounted util total ⟨m', t, s.maxNumLoadRetries, allocation⟩ := by
  have he := h.invariant.effect ha
  obtain ⟨huse, htotal⟩ := ht
  obtain ⟨total', htotal', heq⟩ := h.created
  exact {
    invariant := h.invariant.step ha
    settled := he.settled h.invariant h.settled
    tracked := he.tracked.trans h.tracked
    util_eq := huse.trans h.util_eq
    total_eq := htotal.trans h.total_eq
    created := ⟨total', huse ▸ htotal', by rw [htotal, heq, huse]⟩
    proper := hproper
    fits := hfits }

/-- A step other than an approval keeps the loaders in use within the total. -/
theorem Accounted.release {a : Manager.Action} {m' : Manager} (ha : s.manager.advance a = some m')
    {t : ResourceTracker} (ht : SameTotal s.tracker t)
    (hmanage : ∀ id status, a ≠ .manage id status)
    (hsub : m'.loadersUsingResources.Sublist s.manager.loadersUsingResources) :
    Accounted util total ⟨m', t, s.maxNumLoadRetries, s.allocation⟩ := by
  refine h.advance ha ht (fun r hr => ?_) (h.fits.subperm (hsub.map _).subperm)
  rcases (h.invariant.effect ha).mem_managed hr with hr | ⟨-, id, status, rfl⟩
  · exact h.proper r hr
  · exact absurd rfl (hmanage id status)

/-- A new servable uses no resources. -/
theorem Accounted.manage {id : ServableId} {status : Status} {allocation : ResourceAllocation}
    (hvalid : util.Proper allocation) {m' : Manager}
    (ha : s.manager.advance (.manage id status) = some m') :
    Accounted util total ⟨m', s.tracker, s.maxNumLoadRetries,
      Function.update s.allocation s.manager.next allocation⟩ := by
  have he := h.invariant.effect ha
  have hold : ∀ r ∈ s.manager.managed,
      update s.allocation s.manager.next allocation r = s.allocation r := fun r hr =>
    update_of_ne (ne_of_lt (h.invariant.fresh r hr)) _ _
  refine h.advance ha ⟨rfl, rfl⟩ (fun r hr => ?_) ?_
  · rcases he.mem_managed hr with hr | ⟨rfl, -⟩
    · rw [hold r hr]
      exact h.proper r hr
    · rw [update_self]
      exact hvalid
  · rcases he.loadersUsingResources h.settled h.invariant with hsub | ⟨_, _, _, _, hne, -⟩
    · rw [map_congr_left fun r hr => hold r
        (Manager.mem_loadersUsingResources.mp (hsub.subset hr)).1]
      exact h.fits.subperm (hsub.map _).subperm
    · cases hne

/-- A load is approved only if its allocation fits on top of the loaders in use. -/
theorem Accounted.decide {i : Nat} {failures : List (Option Status)} {tries : List Try}
    (hu : s.Undisturbed (.decide i failures tries))
    (hs : s.step (.decide i failures tries) = some s') : Accounted util total s' := by
  obtain ⟨hfailures, hrep⟩ := hu
  rw [TrackedManager.step] at hs
  split at hs
  · next hnone =>
    obtain ⟨m', ha, rfl⟩ := map_eq_some_iff.mp hs
    rcases (h.invariant.effect ha).loadersUsingResources h.settled h.invariant with
      hsub | ⟨_, _, r, _, heq, hw, -⟩
    · exact h.release ha ⟨rfl, rfl⟩ nofun hsub
    · cases heq
      rw [Manager.reserving_of_works h.invariant h.settled hw ha] at hnone
      cases hnone
  · next r hr =>
    obtain ⟨result, hresult, hs⟩ := bind_eq_some_iff.mp hs
    obtain ⟨m', ha, rfl⟩ := map_eq_some_iff.mp hs
    have hrepr := hrep r hr
    rw [h.util_eq] at hrepr
    obtain ⟨hsame, hreserved⟩ := h.reserveResources r hfailures hrepr hresult
    rcases (h.invariant.effect ha).loadersUsingResources h.settled h.invariant with
      hsub | ⟨_, _, r', _, heq, hw, hres, hperm⟩
    · exact h.release ha hsame nofun hsub
    obtain ⟨rfl, rfl⟩ := Manager.Action.decide.inj heq
    obtain rfl : r = r' := some.inj
      (hr.symm.trans (Manager.reserving_of_works h.invariant h.settled hw ha))
    obtain ⟨used, htracks, hle⟩ := hreserved (hres h.tracked)
    have hproper := h.proper r hw.mem
    have hnormal : util.Normalized total := by
      have hle' := hle
      rw [← h.util_eq, ← h.total_eq] at hle'
      have hn := h.created.normalized hle'
      rwa [h.util_eq, h.total_eq] at hn
    refine h.advance ha hsame (fun y hy => ?_) ?_
    · rcases (h.invariant.effect ha).mem_managed hy with hy | ⟨-, _, _, hne⟩
      · exact h.proper y hy
      · cases hne
    · refine (h.fits.extend hnormal htracks hproper hrepr hle).subperm ?_
      rw [inUse, ← map_singleton, ← map_append]
      exact (hperm.map _).subperm

/-- Every undisturbed step keeps the loaders in use within the total. -/
theorem Accounted.step {x : Move} (hu : s.Undisturbed x) (hs : s.step x = some s') :
    Accounted util total s' := by
  have hkeep : ∀ {a : Manager.Action} {m' : Manager}, s.manager.advance a = some m' →
      (∀ id status, a ≠ .manage id status) → (∀ i reservation, a ≠ .decide i reservation) →
      Accounted util total ⟨m', s.tracker, s.maxNumLoadRetries, s.allocation⟩ := by
    intro a m' ha hmanage hdecide
    rcases (h.invariant.effect ha).loadersUsingResources h.settled h.invariant with
      hsub | ⟨i, _, _, reservation, heq, -⟩
    · exact h.release ha ⟨rfl, rfl⟩ hmanage hsub
    · exact absurd heq (hdecide i reservation)
  cases x with
  | manage id status allocation =>
    rw [TrackedManager.step] at hs
    obtain ⟨m', ha, rfl⟩ := map_eq_some_iff.mp hs
    refine h.manage ?_ ha
    rw [← h.util_eq]
    exact ResourceUtil.verifyValidity_ok_iff.mp hu
  | decide i failures tries => exact h.decide hu hs
  | stop _ | request _ _ | execute _ _ =>
    rw [TrackedManager.step] at hs
    obtain ⟨m', ha, rfl⟩ := map_eq_some_iff.mp hs
    exact hkeep ha nofun nofun

end

/-- In every run in which no recomputation of the usage fails and no sum of quantities
overflows, the loaders in use fit into the total together. -/
theorem admitted_of_undisturbed_run (devices : String → Option Nat) (total : ResourceAllocation)
    (tracker : ResourceTracker)
    (hcreate : ResourceTracker.create total (ResourceUtil.create devices) = .ok tracker)
    (maxNumLoadRetries : UInt32) (moves : List Move) (s : TrackedManager)
    (hmoves : Run.Admissible step Undisturbed (initial tracker maxNumLoadRetries) moves)
    (hrun : Run.run step (initial tracker maxNumLoadRetries) moves = some s) : s.Admitted := by
  obtain ⟨hcreated, -, -⟩ := ResourceTracker.created_of_create hcreate
  have hinitial : Accounted tracker.util tracker.totalResources
      (initial tracker maxNumLoadRetries) := {
    invariant := Manager.invariant_initial true
    settled := Manager.settled_initial true
    tracked := rfl
    util_eq := rfl
    total_eq := rfl
    created := hcreated
    proper := nofun
    fits := ResourceUtil.fits_nil _ _ }
  have h := Run.run_invariant (fun _ _ _ h hu hs => h.step hu hs) hinitial hmoves hrun
  rw [Admitted, h.util_eq, h.total_eq]
  exact h.fits

/-- A condition on small quantities that can be decided. -/
def Calm (s : TrackedManager) : Move → Prop
  | .manage _ _ allocation => (s.tracker.util.verifyValidity allocation).code = .ok
  | .decide i failures _ => (∀ failure ∈ failures, failure = none) ∧
      ∀ r ∈ reserving s.manager i, ((s.inUse ++ [s.allocation r]).flatten.map Prod.snd).sum <
        ResourceUtil.quantityBound
  | .stop _ | .request _ _ | .execute _ _ => True

instance (s : TrackedManager) : DecidablePred s.Calm
  | .manage _ _ _ => inferInstanceAs (Decidable (_ = _))
  | .decide i _ _ => inferInstanceAs (Decidable (_ ∧ ∀ r ∈ reserving s.manager i, _))
  | .stop _ | .request _ _ | .execute _ _ => .isTrue trivial

theorem Calm.undisturbed {x : Move} (h : s.Calm x) : s.Undisturbed x := by
  cases x with
  | decide i failures tries =>
    exact ⟨h.1, fun r hr => ResourceUtil.representable_of_sum (h.2 r hr)⟩
  | manage _ _ _ => exact h
  | stop _ | request _ _ | execute _ _ => trivial

/-- A device with one instance. -/
def oneDevice (device : String) : Option Nat := if device = "cpu" then some 1 else none

/-- A tracker for one device with a total of one kind. -/
def oneDeviceTracker (quantity : Nat) : ResourceTracker :=
  ⟨.create oneDevice, [(⟨"cpu", some 0, "ram"⟩, quantity)], []⟩

/-- Two versions with the same allocation are loaded one after the other; the recomputation
before the second decision fails if `failures` says so. -/
def twoLoads (quantity : Nat) (failures : List (Option Status)) : List Move :=
  [.manage ⟨"model", 1⟩ .ok [(⟨"cpu", none, "ram"⟩, quantity)],
    .manage ⟨"model", 2⟩ .ok [(⟨"cpu", none, "ram"⟩, quantity)],
    .request .load ⟨"model", 1⟩, .request .load ⟨"model", 2⟩,
    .decide 0 [] [⟨some (.notFound "file"), false⟩, ⟨none, false⟩], .decide 1 failures []]

/-- Two loads that fill the device are admitted. -/
theorem admitted_twoLoads :
    ∃ s, Run.run step (initial (oneDeviceTracker 10) 1) (twoLoads 5 []) = some s ∧
      s.inUse.length = 2 ∧ s.Admitted := by
  refine ⟨_, rfl, by decide, ?_⟩
  refine admitted_of_undisturbed_run oneDevice [(⟨"cpu", none, "ram"⟩, 10)] _ rfl 1 (twoLoads 5 [])
    _ ?_ rfl
  exact Run.Admissible.mono (fun _ _ h => Calm.undisturbed h) (by decide)

/-- A recomputation that fails makes the manager forget the loaders in use, and so does a sum
of quantities that overflows. -/
theorem twoLoads_overcommit : (∃ s, Run.run step (initial (oneDeviceTracker 10) 1)
        (twoLoads 10 [some (.notFound "file")]) = some s ∧
      Run.Admissible step Valid (initial (oneDeviceTracker 10) 1)
        (twoLoads 10 [some (.notFound "file")]) ∧ ¬ s.Admitted) ∧
    ∃ s, Run.run step (initial (oneDeviceTracker (2 ^ 63)) 1) (twoLoads (2 ^ 63) []) = some s ∧
      Run.Admissible step Valid (initial (oneDeviceTracker (2 ^ 63)) 1) (twoLoads (2 ^ 63) []) ∧
      ¬ s.Admitted := by
  refine ⟨⟨_, rfl, by decide, ?_⟩, ⟨_, rfl, by decide, ?_⟩⟩
  · exact ResourceUtil.not_fits_of_demand "cpu" "ram" (by decide) (by decide)
  · exact ResourceUtil.not_fits_of_demand "cpu" "ram" (by decide) (by decide)

end TrackedManager

end Tension.Serving
