import Tension.Models.Serving.BasicManager

/-!
# Ownership of harnesses

Every harness that is in the middle of a load or an unload belongs to exactly one task,
and the stage of the task determines the state of the harness. A task step therefore
finds its harness in the state it expects, and no other step touches that harness.
-/

namespace Tension.Serving

/-! ## Ownership -/

/-- The harness state that a task relies on. -/
def Stage.expected : Stage → Option HarnessState
  | .scheduled .load _ => some .loadRequested
  | .scheduled .unload _ => some .unloadRequested
  | .waiting _ => some .loadRequested
  | .loadApproved _ => some .loadApproved
  | .loading _ => some .loading
  | .unloadApproved _ => some .quiescing
  | .quiesced _ => some .quiesced
  | .unloading _ => some .unloading
  | .loaded | .finishing _ | .finished => none

/-- The harness that a task works on; before the decision it is known by its id only. -/
def Stage.Owns (m : Manager) : Stage → Ref → Prop
  | .scheduled _ id, r => r ∈ m.managed ∧ (m.harness r).id = id
  | .waiting r', r | .loadApproved r', r | .loading r', r | .unloadApproved r', r
  | .quiesced r', r | .unloading r', r => r = r'
  | .loaded, _ | .finishing _, _ | .finished, _ => False

/-- The states in which a harness may be served. -/
def HarnessState.Servable (state : HarnessState) : Prop :=
  state = .ready ∨ state = .unloadRequested ∨ state = .quiescing

/-- Tasks do not rely on the resting states of a harness. -/
theorem Stage.expected_ne {stage : Stage} {state : HarnessState} (h : stage.expected = some state) :
    state ≠ .new ∧ state ≠ .ready ∧ state ≠ .disabled ∧ state ≠ .error := by
  cases stage with
  | scheduled kind id => cases kind <;> cases h <;> decide
  | waiting r => cases h; decide
  | loadApproved r => cases h; decide
  | loading r => cases h; decide
  | loaded => cases h
  | unloadApproved r => cases h; decide
  | quiesced r => cases h; decide
  | unloading r => cases h; decide
  | finishing status => cases h
  | finished => cases h

/-- A stage without expectation owns nothing. -/
theorem Stage.not_owns_of_expected_none {stage : Stage} (h : stage.expected = none)
    (m : Manager) (r : Ref) : ¬ stage.Owns m r := by
  cases stage with
  | scheduled kind id => cases kind <;> cases h
  | waiting r | loadApproved r | loading r | unloadApproved r | quiesced r | unloading r => cases h
  | loaded | finishing status | finished => exact id

/-- Ownership depends on the managed map and the ids only. -/
theorem Stage.Owns.mono {m m' : Manager} {stage : Stage} {r : Ref} (ho : stage.Owns m r)
    (h : r ∈ m.managed → r ∈ m'.managed ∧ (m'.harness r).id = (m.harness r).id) :
    stage.Owns m' r := by
  cases stage with
  | scheduled kind id => exact ⟨(h ho.1).1, (h ho.1).2.trans ho.2⟩
  | waiting _ | loadApproved _ | loading _ | unloadApproved _ | quiesced _ | unloading _
  | loaded | finishing _ | finished => exact ho

theorem Stage.owns_congr {m m' : Manager} (hmanaged : m'.managed = m.managed)
    (hid : ∀ r, (m'.harness r).id = (m.harness r).id) (stage : Stage) (r : Ref) :
    stage.Owns m' r ↔ stage.Owns m r :=
  ⟨fun ho => ho.mono fun hr => ⟨hmanaged ▸ hr, (hid r).symm⟩,
    fun ho => ho.mono fun hr => ⟨hmanaged ▸ hr, hid r⟩⟩

/-- Where ids are unique, a stage owns one harness at most. -/
theorem Stage.Owns.unique {m : Manager} {stage : Stage} {r r' : Ref}
    (hunique : ∀ r ∈ m.managed, ∀ r' ∈ m.managed, (m.harness r).id = (m.harness r').id → r = r')
    (ho : stage.Owns m r) (ho' : stage.Owns m r') : r = r' := by
  cases stage with
  | scheduled kind id => exact hunique r ho.1 r' ho'.1 (ho.2.trans ho'.2.symm)
  | waiting _ | loadApproved _ | loading _ | unloadApproved _ | quiesced _ | unloading _ =>
    exact ho.trans ho'.symm
  | loaded | finishing _ | finished => exact ho.elim

/-- Executions are approved requests. -/
theorem Stage.executing_of_expected {stage : Stage} {state : HarnessState}
    (h : stage.expected = some state) :
    stage.executing = Decidable.decide (state ≠ .loadRequested ∧ state ≠ .unloadRequested) := by
  cases stage with
  | scheduled kind _ => cases kind <;> cases h <;> rfl
  | waiting _ | loadApproved _ | loading _ | unloadApproved _ | quiesced _ | unloading _ =>
    cases h
    rfl
  | loaded | finishing _ | finished => cases h

namespace Manager

/-- Every entry for the latest version of a stream is its largest version in the map. -/
def LatestIsHighest (m : Manager) : Prop :=
  ∀ name r, (ServableRequest.latest name, r) ∈ m.handles →
    (m.harness r).id.name = name ∧ (.fromId (m.harness r).id, r) ∈ m.handles ∧
      ∀ version r', (⟨name, some version⟩, r') ∈ m.handles → version ≤ (m.harness r).id.version

/-- The invariant of the transition system. -/
structure Invariant (m : Manager) : Prop where
  fresh : ∀ r ∈ m.managed, r < m.next
  unique : ∀ r ∈ m.managed, ∀ r' ∈ m.managed, (m.harness r).id = (m.harness r').id → r = r'
  owned : ∀ (i : Nat) stage state, m.tasks[i]? = some stage → stage.expected = some state →
    ∃ r, stage.Owns m r ∧ r ∈ m.managed ∧ (m.harness r).state = state
  exclusive : ∀ (i j : Nat) stage stage' r, m.tasks[i]? = some stage →
    m.tasks[j]? = some stage' → stage.Owns m r → stage'.Owns m r → i = j
  handles_fresh : ∀ q r, (q, r) ∈ m.handles → r < m.next
  servable : ∀ q r, (q, r) ∈ m.handles → (m.harness r).state.Servable
  latest : m.LatestIsHighest
  legal : ∀ r, (m.harness r).faulted = false
  ongoing : m.numOngoing = m.tasks.countP Stage.executing

theorem invariant_initial (tracked : Bool) : (initial tracked).Invariant where
  fresh := by simp [initial]
  unique := by simp [initial]
  owned := by simp [initial]
  exclusive := by simp [initial]
  handles_fresh := by simp [initial]
  servable := by simp [initial]
  latest := by simp [initial, LatestIsHighest]
  legal := fun _ => rfl
  ongoing := rfl

variable {m : Manager}

/-- The owner of a harness finds it managed and in the expected state. -/
theorem Invariant.of_owns (h : m.Invariant) {i : Nat} {stage : Stage} {r : Ref}
    (hi : m.tasks[i]? = some stage) (ho : stage.Owns m r) :
    r ∈ m.managed ∧ stage.expected = some (m.harness r).state := by
  cases he : stage.expected with
  | none => exact absurd ho (Stage.not_owns_of_expected_none he m r)
  | some state =>
    obtain ⟨r', ho', hmem, hstate⟩ := h.owned i stage state hi he
    obtain rfl : r = r' := ho.unique h.unique ho'
    exact ⟨hmem, by rw [hstate]⟩

/-- Replacing a harness by one with the same id keeps all ids. -/
theorem update_id {r : Ref} {x : LoaderHarness} (hid : x.id = (m.harness r).id) (y : Ref) :
    (Function.update m.harness r x y).id = (m.harness y).id := by
  by_cases hy : y = r
  · rw [hy, Function.update_self, hid]
  · rw [Function.update_of_ne hy]

/-- A change of one harness that keeps its id keeps the entries for latest versions. -/
theorem LatestIsHighest.congr {m' : Manager} (h : m.LatestIsHighest)
    (hhandles : m'.handles = m.handles) (hid : ∀ r q, (q, r) ∈ m.handles →
      (m'.harness r).id = (m.harness r).id) : m'.LatestIsHighest := by
  intro name r hmem
  rw [hhandles] at hmem ⊢
  rw [hid r _ hmem]
  exact h name r hmem

/-! ## The serving map -/

/-- The new handles map refers to managed harnesses that are ready. -/
theorem mem_handles_updateServingMap {q : ServableRequest} {r : Ref}
    (h : (q, r) ∈ m.updateServingMap.handles) : r ∈ m.managed ∧ (m.harness r).state = .ready := by
  obtain ⟨id, hid, -⟩ := exists_of_mem_buildHandles h
  rw [mem_sorted, List.mem_map] at hid
  obtain ⟨r', hr', he⟩ := hid
  obtain ⟨-, rfl⟩ := Prod.mk.inj he
  obtain ⟨hmem, hstate⟩ := List.mem_filter.mp hr'
  exact ⟨hmem, of_decide_eq_true hstate⟩

/-- The new handles map names the largest versions. -/
theorem latest_updateServingMap (m : Manager) : m.updateServingMap.LatestIsHighest := by
  intro name r hmem
  obtain ⟨id, hid, hname, hmax⟩ := latest_buildHandles (List.pairwise_insertionSort _ _) hmem
  have hid' := hid
  rw [mem_sorted, List.mem_map] at hid'
  obtain ⟨r', -, he⟩ := hid'
  obtain ⟨hid₀, rfl⟩ := Prod.mk.inj he
  have hharness : (m.updateServingMap.harness r').id = id := hid₀
  rw [hharness]
  refine ⟨hname, fromId_mem_buildHandles hid, fun version r'' hv => ?_⟩
  obtain ⟨id'', hid'', hname'', hversion⟩ := exists_of_mem_buildHandles hv
  have hv'' : version = id''.version := by
    rcases hversion with hsome | hnone
    · exact Option.some.inj hsome
    · cases hnone
  rw [hv'']
  exact hmax (id'', r'') hid'' hname''.symm

/-- Updating the serving map keeps the invariant. -/
theorem Invariant.updateServingMap (h : m.Invariant) : m.updateServingMap.Invariant where
  __ := h
  handles_fresh := fun _ r hq => h.fresh r (mem_handles_updateServingMap hq).1
  servable := fun _ _ hq => .inl (mem_handles_updateServingMap hq).2
  latest := latest_updateServingMap m

/-! ## Lookups -/

/-- A lookup by id finds a managed harness with that id. -/
theorem of_findHarnessInMap {id : ServableId} {r : Ref} (h : m.findHarnessInMap id = some r) :
    r ∈ m.managed ∧ (m.harness r).id = id :=
  ⟨List.mem_of_find?_eq_some h, of_decide_eq_true (List.find?_some (p := fun x =>
    Decidable.decide ((m.harness x).id = id)) h)⟩

theorem of_getHealthyHarness {id : ServableId} {r : Ref} (h : m.getHealthyHarness id = .ok r) :
    r ∈ m.managed ∧ (m.harness r).id = id := by
  rw [getHealthyHarness] at h
  split at h
  · cases h
  · next r' hfind =>
    split at h
    · cases h
    · cases h
      exact of_findHarnessInMap hfind

/-- A harness in a resting state has no owner. -/
theorem Invariant.not_owns (h : m.Invariant) {r : Ref}
    (hr : (m.harness r).state = .new ∨ (m.harness r).state = .ready ∨
      (m.harness r).state = .disabled ∨ (m.harness r).state = .error)
    {i : Nat} {stage : Stage} (hi : m.tasks[i]? = some stage) : ¬ stage.Owns m r := by
  intro ho
  obtain ⟨hnew, hready, hdisabled, herror⟩ := Stage.expected_ne (h.of_owns hi ho).2
  rcases hr with hr | hr | hr | hr
  · exact hnew hr
  · exact hready hr
  · exact hdisabled hr
  · exact herror hr

end Manager

end Tension.Serving
