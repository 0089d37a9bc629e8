import Tension.Models.Serving.Ownership

/-!
# What a step of the manager does

Ownership determines the outcome of every transition, so that from a state with the
invariant each action has one of a few effects: a harness moves along the state diagram
together with the stage of the task that owns it. The invariants of the layers above
split on these effects and never look at the definitions of the steps.
-/

namespace Tension.Serving

open List Function

namespace Manager

/-- Put a harness into another state. -/
def setState (m : Manager) (r : Ref) (state : HarnessState) : Manager :=
  m.setHarness r { m.harness r with state := state }

/-- Task `i` has stage `stage`, which owns the managed harness `r` in state `state`. -/
structure Works (m : Manager) (i : Nat) (stage : Stage) (r : Ref) (state : HarnessState) :
    Prop where
  task : m.tasks[i]? = some stage
  owns : stage.Owns m r
  mem : r ∈ m.managed
  state : (m.harness r).state = state

/-- Task `i` gets stage `stage`, and harness `r` becomes `x`, with the same id. -/
structure Sets (m m' : Manager) (i : Nat) (stage : Stage) (r : Ref) (x : LoaderHarness) :
    Prop where
  next : m'.next = m.next
  harness : m'.harness = Function.update m.harness r x
  id_eq : x.id = (m.harness r).id
  managed : m'.managed = m.managed
  tasks : m'.tasks = m.tasks.set i stage

/-- The effects of the actions. -/
inductive Effect (m : Manager) : Action → Manager → Prop
  | known {id : ServableId} {status : Status} {r : Ref} (h : m.findHarnessInMap id = some r) :
      Effect m (.manage id status) m
  | managed {id : ServableId} {status : Status} (h : m.findHarnessInMap id = none) :
      Effect m (.manage id status)
        { m.setHarness m.next (if status.code ≠ .ok then (LoaderHarness.create id).error status
            else .create id) with
          next := m.next + 1, managed := m.managed ++ [m.next] }
  | kept {id : ServableId} : Effect m (.stop id) m
  | dropped {r : Ref} (hmem : r ∈ m.managed) (hstate : (m.harness r).state = .new ∨
      (m.harness r).state = .error ∨ (m.harness r).state = .disabled) :
      Effect m (.stop (m.harness r).id) { m with managed := m.managed.erase r }
  | ignored {kind : Kind} {id : ServableId} : Effect m (.request kind id) m
  | loadRequested {r : Ref} (hmem : r ∈ m.managed) (hstate : (m.harness r).state = .new) :
      Effect m (.request .load (m.harness r).id)
        { m.setState r .loadRequested with
          tasks := m.tasks ++ [.scheduled .load (m.harness r).id] }
  | unloadRequested {r : Ref} (hmem : r ∈ m.managed) (hstate : (m.harness r).state = .ready) :
      Effect m (.request .unload (m.harness r).id)
        { m.setState r .unloadRequested with
          tasks := m.tasks ++ [.scheduled .unload (m.harness r).id] }
  | rejected {i : Nat} {kind : Kind} {id : ServableId} {status : Status}
      {reservation : Reservation} (hi : m.tasks[i]? = some (.scheduled kind id))
      (hstatus : m.getHealthyHarness id = .error status) :
      Effect m (.decide i reservation) (m.reject i status).2
  | waiting {i : Nat} {stage : Stage} {r : Ref} {reservation : Reservation}
      (h : m.Works i stage r .loadRequested) (htracked : m.tracked = true)
      (hreserve : m.reserveResources r reservation = none) :
      Effect m (.decide i reservation) { m.setTask i (.waiting r) with deciding := some i }
  | unreserved {i : Nat} {stage : Stage} {r : Ref} {reservation : Reservation} {status : Status}
      (h : m.Works i stage r .loadRequested) (htracked : m.tracked = true)
      (hreserve : m.reserveResources r reservation = some status) (hstatus : status.code ≠ .ok) :
      Effect m (.decide i reservation)
        ((m.setHarness r ((m.harness r).error status)).reject i status).2
  | loadApproved {i : Nat} {stage : Stage} {r : Ref} {reservation : Reservation}
      (h : m.Works i stage r .loadRequested)
      (hreserve : m.tracked = true → reservation = .reserved) :
      Effect m (.decide i reservation) ((m.setState r .loadApproved).approve i (.loadApproved r)).2
  | unloadApproved {i : Nat} {stage : Stage} {r : Ref} {reservation : Reservation}
      (h : m.Works i stage r .unloadRequested) :
      Effect m (.decide i reservation) ((m.setState r .quiescing).approve i (.unloadApproved r)).2
  | loading {i : Nat} {r : Ref} {outcome : Status}
      (h : m.Works i (.loadApproved r) r .loadApproved) :
      Effect m (.execute i outcome) ((m.setState r .loading).setTask i (.loading r))
  | loaded {i : Nat} {r : Ref} {outcome : Status} (h : m.Works i (.loading r) r .loading)
      (houtcome : outcome.code = .ok) :
      Effect m (.execute i outcome) ((m.setState r .ready).setTask i .loaded)
  | loadFailed {i : Nat} {r : Ref} {outcome : Status} (h : m.Works i (.loading r) r .loading)
      (houtcome : outcome.code ≠ .ok) :
      Effect m (.execute i outcome)
        ((m.setHarness r ((m.harness r).errorInternal outcome)).setTask i (.finishing outcome))
  | served {i : Nat} {outcome : Status} (hi : m.tasks[i]? = some .loaded) :
      Effect m (.execute i outcome) (m.updateServingMap.setTask i (.finishing .ok))
  | quiesced {i : Nat} {r : Ref} {outcome : Status}
      (h : m.Works i (.unloadApproved r) r .quiescing) :
      Effect m (.execute i outcome)
        ((m.updateServingMap.setState r .quiesced).setTask i (.quiesced r))
  | unloading {i : Nat} {r : Ref} {outcome : Status} (h : m.Works i (.quiesced r) r .quiesced) :
      Effect m (.execute i outcome) ((m.setState r .unloading).setTask i (.unloading r))
  | unloaded {i : Nat} {r : Ref} {outcome : Status} (h : m.Works i (.unloading r) r .unloading) :
      Effect m (.execute i outcome) ((m.setState r .disabled).setTask i (.finishing .ok))
  | finished {i : Nat} {status outcome : Status} (hi : m.tasks[i]? = some (.finishing status)) :
      Effect m (.execute i outcome)
        { m.setTask i .finished with numOngoing := m.numOngoing - 1 }

variable {m m' : Manager}

variable {i : Nat} {stage : Stage} {r : Ref} {state : HarnessState} {a : Action} {x : LoaderHarness}

section

variable (h : m.Sets m' i stage r x)
include h

theorem Sets.harness_self : m'.harness r = x := by
  rw [h.harness, update_self]

theorem Sets.harness_of_ne {y : Ref} (hy : y ≠ r) : m'.harness y = m.harness y := by
  rw [h.harness, update_of_ne hy]

theorem Sets.harness_id (y : Ref) : (m'.harness y).id = (m.harness y).id := by
  rw [h.harness]
  exact update_id h.id_eq y

end

/-- A task works on the harness that its stage owns. -/
theorem Invariant.works (h : m.Invariant) (hi : m.tasks[i]? = some stage) (ho : stage.Owns m r)
    (he : stage.expected = some state) : m.Works i stage r state := by
  obtain ⟨hmem, hstate⟩ := h.of_owns hi ho
  rw [he, Option.some.injEq] at hstate
  exact ⟨hi, ho, hmem, hstate.symm⟩

/-- A reservation that returns OK has succeeded. -/
theorem reserved_of_reserveResources {reservation : Reservation} {status : Status}
    (h : m.reserveResources r reservation = some status) (hok : status.code = .ok) :
    reservation = .reserved := by
  cases reservation with
  | reserved => rfl
  | failed status' =>
    cases h
    cases hok
  | insufficient =>
    rw [reserveResources] at h
    split at h
    · cases h
      cases hok
    · cases h

/-- The effects of the decision on a load. -/
theorem Works.approveLoad (h : m.Works i stage r .loadRequested) (reservation : Reservation) :
    Effect m (.decide i reservation) (m.approveLoad i r reservation).2 := by
  have hreserved : (m.tracked = true → reservation = .reserved) →
      Effect m (.decide i reservation) (m.approveReserved i r).2 := by
    intro hreserve
    rw [Manager.approveReserved, LoaderHarness.loadApproved,
      LoaderHarness.transitionState_of_eq h.state]
    exact .loadApproved h hreserve
  rw [Manager.approveLoad]
  split
  · next htracked =>
    split
    · next hnone => exact .waiting h htracked hnone
    · next status hsome =>
      split
      · next hstatus => exact .unreserved h htracked hsome hstatus
      · next hok => exact hreserved fun _ => reserved_of_reserveResources hsome (not_not.mp hok)
  · next htracked => exact hreserved fun ht => absurd ht htracked

/-- The decision phase has one of its effects. -/
theorem Invariant.effect_decide (h : m.Invariant) {reservation : Reservation}
    {p : Status × Manager} (hp : m.decide i reservation = some p) :
    Effect m (.decide i reservation) p.2 := by
  rw [Manager.decide] at hp
  split at hp
  · split at hp
    · next kind id hi =>
      split at hp
      · next status hstatus =>
        cases hp
        exact .rejected hi hstatus
      · next r hr =>
        have ho : (Stage.scheduled kind id).Owns m r := of_getHealthyHarness hr
        cases kind with
        | load =>
          cases hp
          exact (h.works hi ho rfl).approveLoad reservation
        | unload =>
          cases hp
          have hw := h.works hi ho rfl
          rw [Manager.approveUnload, LoaderHarness.startQuiescing,
            LoaderHarness.transitionState_of_eq hw.state]
          exact .unloadApproved hw
    · next r hi =>
      cases hp
      exact (h.works hi rfl rfl).approveLoad reservation
    · cases hp
  · cases hp

/-- A section that transitions the owned harness succeeds. -/
theorem Works.proceed {stage' : Stage} {source : HarnessState}
    (h : m.Works i stage r source) (target : HarnessState) :
    (m.proceed i r ((m.harness r).transitionState source target) stage').2 =
      (m.setState r target).setTask i stage' := by
  rw [LoaderHarness.transitionState_of_eq h.state]
  rfl

/-- The execution phase has one of its effects. -/
theorem Invariant.effect_execute (h : m.Invariant) {outcome : Status}
    {p : Status × Manager} (hp : m.execute i outcome = some p) :
    Effect m (.execute i outcome) p.2 := by
  rw [Manager.execute] at hp
  split at hp
  · next r hi =>
    cases hp
    have hw := h.works hi rfl rfl
    rw [LoaderHarness.loadBegin, hw.proceed]
    exact .loading hw
  · next r hi =>
    cases hp
    have hw := h.works hi rfl rfl
    rw [LoaderHarness.loadEnd_of_loading hw.state]
    by_cases hok : outcome.code = .ok
    · simp only [Manager.proceed, if_pos hok, if_neg (not_not.mpr hok)]
      exact .loaded hw hok
    · simp only [Manager.proceed, if_neg hok, if_pos hok]
      exact .loadFailed hw hok
  · next hi =>
    cases hp
    exact .served hi
  · next r hi =>
    cases hp
    have hw := h.works hi rfl rfl
    have hw' : m.updateServingMap.Works i (.unloadApproved r) r .quiescing :=
      ⟨hi, rfl, hw.mem, hw.state⟩
    have hp : (m.updateServingMap.proceed i r ((m.harness r).transitionState .quiescing .quiesced)
        (.quiesced r)).2 = (m.updateServingMap.setState r .quiesced).setTask i (.quiesced r) :=
      hw'.proceed .quiesced
    rw [LoaderHarness.doneQuiescing, hp]
    exact .quiesced hw
  · next r hi =>
    cases hp
    have hw := h.works hi rfl rfl
    rw [LoaderHarness.unloadBegin, hw.proceed]
    exact .unloading hw
  · next r hi =>
    cases hp
    have hw := h.works hi rfl rfl
    rw [LoaderHarness.unloadEnd, hw.proceed]
    exact .unloaded hw
  · next status hi =>
    cases hp
    exact .finished hi
  · cases hp

/-- A request has one of its effects. -/
theorem effect_request (m : Manager) (kind : Kind) (id : ServableId) :
    Effect m (.request kind id) (m.loadOrUnloadServable kind id).2 := by
  rw [Manager.loadOrUnloadServable]
  split
  · exact .ignored
  · next r hr =>
    obtain ⟨hmem, rfl⟩ := of_getHealthyHarness hr
    have hsame : m.setHarness r (m.harness r) = m := by
      rw [setHarness, update_eq_self]
    cases kind with
    | load =>
      by_cases hnew : (m.harness r).state = .new
      · simp only [LoaderHarness.loadRequested, if_neg (not_not.mpr hnew)]
        exact .loadRequested hmem hnew
      · simp only [LoaderHarness.loadRequested, if_pos hnew]
        rw [hsame]
        exact .ignored
    | unload =>
      by_cases hready : (m.harness r).state = .ready
      · simp only [LoaderHarness.unloadRequested, if_neg (not_not.mpr hready)]
        exact .unloadRequested hmem hready
      · simp only [LoaderHarness.unloadRequested, if_pos hready]
        rw [hsame]
        exact .ignored

/-- Dropping a servable has one of its effects. -/
theorem effect_stop (m : Manager) (id : ServableId) :
    Effect m (.stop id) (m.stopManagingServable id).2 := by
  rw [Manager.stopManagingServable]
  split
  · exact .kept
  · next r hr =>
    obtain ⟨hmem, rfl⟩ := of_findHarnessInMap hr
    dsimp only
    split
    · exact .kept
    · next hstate =>
      refine .dropped hmem ?_
      by_contra hne
      push Not at hne
      exact hstate hne

/-- Every step from a state with the invariant has one of the effects. -/
theorem Invariant.effect (h : m.Invariant) (ha : m.advance a = some m') : Effect m a m' := by
  obtain ⟨p, hp, rfl⟩ := Option.map_eq_some_iff.mp ha
  cases a with
  | manage id status =>
    cases hp
    rw [Manager.manageServable]
    split
    · next r hr => exact .known hr
    · next hnone => exact .managed hnone
  | stop id =>
    cases hp
    exact effect_stop m id
  | request kind id =>
    cases hp
    exact effect_request m kind id
  | decide i reservation => exact h.effect_decide hp
  | execute i outcome => exact h.effect_execute hp

theorem Effect.tracked (he : Effect m a m') : m'.tracked = m.tracked := by
  cases he <;> rfl

/-- Only the new harness of `ManageServable` becomes managed. -/
theorem Effect.mem_managed (he : Effect m a m') (hr : r ∈ m'.managed) :
    r ∈ m.managed ∨ r = m.next ∧ ∃ id status, a = .manage id status := by
  cases he with
  | managed _ =>
    rcases mem_append.mp hr with hr | hr
    · exact .inl hr
    · exact .inr ⟨mem_singleton.mp hr, _, _, rfl⟩
  | dropped _ _ => exact .inl (mem_of_mem_erase hr)
  | _ => exact .inl hr

/-! ## Transitions of a harness -/

/-- The edges of the state diagram. -/
inductive Transition : HarnessState → HarnessState → Prop
  | request : Transition .new .loadRequested
  | approve : Transition .loadRequested .loadApproved
  | refuse : Transition .loadRequested .error
  | load : Transition .loadApproved .loading
  | serve : Transition .loading .ready
  | fail : Transition .loading .error
  | unserve : Transition .ready .unloadRequested
  | quiesce : Transition .unloadRequested .quiescing
  | drain : Transition .quiescing .quiesced
  | unload : Transition .quiesced .unloading
  | disable : Transition .unloading .disabled

/-- The action moves a managed harness along the diagram. -/
structure Moved (m : Manager) (a : Action) (m' : Manager) (r : Ref) : Prop where
  mem : r ∈ m.managed
  id_eq : (m'.harness r).id = (m.harness r).id
  transition : Transition (m.harness r).state (m'.harness r).state
  load : (m.harness r).state = .new → a = .request .load (m.harness r).id
  unload : (m.harness r).state = .ready → a = .request .unload (m.harness r).id

/-- A change of one harness along the diagram. -/
theorem Moved.of_update
    (hharness : m'.harness = Function.update m.harness r x) (hmem : r ∈ m.managed)
    (hid : x.id = (m.harness r).id) (ht : Transition (m.harness r).state x.state)
    (hload : (m.harness r).state = .new → a = .request .load (m.harness r).id)
    (hunload : (m.harness r).state = .ready → a = .request .unload (m.harness r).id) (y : Ref) :
    m'.harness y = m.harness y ∨ Moved m a m' y := by
  by_cases hy : y = r
  · subst hy
    refine .inr ⟨hmem, ?_, ?_, hload, hunload⟩
    · rw [hharness, update_self, hid]
    · rw [hharness, update_self]
      exact ht
  · rw [hharness, update_of_ne hy]
    exact .inl rfl

/-- A task moves the harness that it works on. -/
theorem Works.moved (h : m.Works i stage r state)
    (hharness : m'.harness = Function.update m.harness r x) (hid : x.id = (m.harness r).id)
    (ht : Transition state x.state) (hstate : state ≠ .new ∧ state ≠ .ready) (y : Ref) :
    m'.harness y = m.harness y ∨ Moved m a m' y :=
  Moved.of_update hharness h.mem hid (h.state ▸ ht) (fun hs => absurd (h.state ▸ hs) hstate.1)
    (fun hs => absurd (h.state ▸ hs) hstate.2) y

section

variable (he : Effect m a m')
include he

/-- A step leaves a harness alone or moves it along the diagram. -/
theorem Effect.moved (hr : r < m.next) : m'.harness r = m.harness r ∨ Moved m a m' r := by
  cases he with
  | known _ | kept | ignored | dropped _ _ | rejected _ _ | waiting _ _ _ | served _
  | finished _ => exact .inl rfl
  | managed _ => exact .inl (update_of_ne hr.ne _ _)
  | loadRequested hmem hstate =>
    exact Moved.of_update rfl hmem (by rfl) (hstate ▸ .request) (fun _ => rfl)
      (fun hready => by rw [hstate] at hready; cases hready) r
  | unloadRequested hmem hstate =>
    exact Moved.of_update rfl hmem (by rfl) (hstate ▸ .unserve)
      (fun hnew => by rw [hstate] at hnew; cases hnew) (fun _ => rfl) r
  | unreserved hw _ _ _ => exact hw.moved rfl (by rfl) .refuse (by decide) r
  | loadApproved hw _ => exact hw.moved rfl (by rfl) .approve (by decide) r
  | unloadApproved hw => exact hw.moved rfl (by rfl) .quiesce (by decide) r
  | loading hw => exact hw.moved rfl (by rfl) .load (by decide) r
  | loaded hw _ => exact hw.moved rfl (by rfl) .serve (by decide) r
  | loadFailed hw _ => exact hw.moved rfl (by rfl) .fail (by decide) r
  | quiesced hw => exact hw.moved rfl (by rfl) .drain (by decide) r
  | unloading hw => exact hw.moved rfl (by rfl) .unload (by decide) r
  | unloaded hw => exact hw.moved rfl (by rfl) .disable (by decide) r

theorem Effect.id_eq (hr : r < m.next) : (m'.harness r).id = (m.harness r).id := by
  rcases he.moved hr with heq | hmoved
  · rw [heq]
  · exact hmoved.id_eq

/-- Only a request takes a ready harness out of its state. -/
theorem Effect.ready (hr : r < m.next) (hready : (m.harness r).state = .ready)
    (ha : a ≠ .request .unload (m.harness r).id) : (m'.harness r).state = .ready := by
  rcases he.moved hr with heq | hmoved
  · rw [heq, hready]
  · exact absurd (hmoved.unload hready) ha

/-- Only a harness at rest is dropped, and only by its own id. -/
theorem Effect.kept_or_dropped (hr : r ∈ m.managed) :
    r ∈ m'.managed ∨ a = .stop (m.harness r).id ∧ ((m.harness r).state = .new ∨
      (m.harness r).state = .error ∨ (m.harness r).state = .disabled) := by
  cases he with
  | managed _ => exact .inl (mem_append_left _ hr)
  | @dropped r' _ hstate =>
    by_cases hrr : r = r'
    · exact .inr ⟨hrr ▸ rfl, hrr ▸ hstate⟩
    · exact .inl ((mem_erase_of_ne hrr).mpr hr)
  | _ => exact .inl hr

theorem Effect.mem_of_ready (hr : r ∈ m.managed) (hready : (m.harness r).state = .ready) :
    r ∈ m'.managed := by
  refine (he.kept_or_dropped hr).resolve_right ?_
  rw [hready]
  rintro ⟨-, hstate | hstate | hstate⟩ <;> cases hstate

/-- The handles map stays or is rebuilt. -/
theorem Effect.handles : m'.handles = m.handles ∨ m'.handles = m.updateServingMap.handles := by
  cases he with
  | served _ | quiesced _ => exact .inr rfl
  | _ => exact .inl rfl

end

/-! ## Harnesses at rest -/

/-- No harness is managed twice, only a harness in its error state has a status other than OK,
and a harness that is not managed is at rest. -/
structure Settled (m : Manager) : Prop where
  nodup : m.managed.Nodup
  healthy : ∀ r, (m.harness r).status.code ≠ .ok → (m.harness r).state = .error
  unmanaged : ∀ r, r ∉ m.managed → (m.harness r).state = .new ∨
    (m.harness r).state = .error ∨ (m.harness r).state = .disabled

theorem settled_initial (tracked : Bool) : (initial tracked).Settled :=
  ⟨nodup_nil, fun _ h => absurd rfl h, fun _ _ => .inl rfl⟩

/-- A change of one managed harness. -/
theorem Settled.update (h : m.Settled)
    (hharness : m'.harness = Function.update m.harness r x) (hmanaged : m'.managed = m.managed)
    (hmem : r ∈ m.managed) (hx : x.status.code ≠ .ok → x.state = .error) : m'.Settled := by
  refine ⟨hmanaged ▸ h.nodup, ?_, ?_⟩
  · intro y hy
    rw [hharness] at hy ⊢
    by_cases hyr : y = r
    · rw [hyr, update_self] at hy ⊢
      exact hx hy
    · rw [update_of_ne hyr] at hy ⊢
      exact h.healthy y hy
  · intro y hy
    rw [hmanaged] at hy
    have hyr : y ≠ r := by
      rintro rfl
      exact hy hmem
    rw [hharness, update_of_ne hyr]
    exact h.unmanaged y hy

/-- A managed harness that is not in its error state moves on. -/
theorem Settled.setState (h : m.Settled)
    (hharness : m'.harness = Function.update m.harness r { m.harness r with state := state })
    (hmanaged : m'.managed = m.managed) (hmem : r ∈ m.managed)
    (hstate : (m.harness r).state ≠ .error) : m'.Settled :=
  h.update hharness hmanaged hmem fun hx => absurd (h.healthy r hx) hstate

/-- The effects keep harnesses settled. -/
theorem Effect.settled (he : Effect m a m') (hinv : m.Invariant) (h : m.Settled) : m'.Settled := by
  cases he with
  | known _ | kept | ignored => exact h
  | @managed id status hnone =>
    have hnew : ∀ x : LoaderHarness, x = (if status.code ≠ .ok then
        (LoaderHarness.create id).error status else .create id) →
        x.status.code ≠ .ok → x.state = .error := by
      rintro x rfl hx
      by_cases hstatus : status.code ≠ .ok
      · rw [if_pos hstatus]
        rfl
      · rw [if_neg hstatus] at hx
        exact absurd rfl hx
    refine ⟨?_, ?_, ?_⟩
    · refine nodup_append.mpr ⟨h.nodup, nodup_singleton _, fun y hy z hz => ?_⟩
      rw [mem_singleton.mp hz]
      exact ne_of_lt (hinv.fresh y hy)
    · intro y hy
      by_cases hyr : y = m.next
      · subst hyr
        simp only [setHarness, update_self] at hy ⊢
        exact hnew _ rfl hy
      · simp only [setHarness, update_of_ne hyr] at hy ⊢
        exact h.healthy y hy
    · intro y hy
      rw [mem_append, mem_singleton, not_or] at hy
      simp only [setHarness, update_of_ne hy.2]
      exact h.unmanaged y hy.1
  | @dropped r hmem hstate =>
    refine ⟨h.nodup.erase r, h.healthy, fun y hy => ?_⟩
    by_cases hyr : y = r
    · rw [hyr]
      exact hstate
    · exact h.unmanaged y fun hmem' => hy ((mem_erase_of_ne hyr).mpr hmem')
  | loadRequested hmem hstate | unloadRequested hmem hstate =>
    exact h.setState rfl rfl hmem (by rw [hstate]; decide)
  | rejected _ _ | waiting _ _ _ | served _ | finished _ =>
    exact { h with }
  | unreserved hw _ _ _ | loadFailed hw _ => exact h.update rfl rfl hw.mem fun _ => rfl
  | loadApproved hw _ | unloadApproved hw | loading hw | loaded hw _ | quiesced hw | unloading hw
  | unloaded hw => exact h.setState rfl rfl hw.mem (by rw [hw.state]; decide)

variable (h : m.Invariant) (hs : m.Settled)
include h hs

/-- A task whose decision is pending finds its harness healthy. -/
theorem Invariant.getHealthyHarness_eq {kind : Kind} {id : ServableId}
    (hi : m.tasks[i]? = some (.scheduled kind id)) (ho : (Stage.scheduled kind id).Owns m r) :
    m.getHealthyHarness id = .ok r := by
  obtain ⟨hmem, hexp⟩ := h.of_owns hi ho
  have hfind : ∃ r', m.findHarnessInMap id = some r' := by
    rw [← Option.isSome_iff_exists, findHarnessInMap, find?_isSome]
    exact ⟨r, hmem, decide_eq_true ho.2⟩
  obtain ⟨r', hr'⟩ := hfind
  obtain ⟨hmem', hid'⟩ := of_findHarnessInMap hr'
  obtain rfl : r' = r := h.unique r' hmem' r hmem (hid'.trans ho.2.symm)
  have hok : ¬ (m.harness r').status.code ≠ .ok := fun hbad =>
    (Stage.expected_ne hexp).2.2.2 (hs.healthy r' hbad)
  simp [getHealthyHarness, hr', if_neg hok]

/-- No decision is refused because of the harness. -/
theorem Invariant.getHealthyHarness_ne_error {kind : Kind} {id : ServableId} {status : Status}
    (hi : m.tasks[i]? = some (.scheduled kind id)) : m.getHealthyHarness id ≠ .error status := by
  have hexp : ∃ state, (Stage.scheduled kind id).expected = some state := by
    cases kind <;> exact ⟨_, rfl⟩
  obtain ⟨state, hexp⟩ := hexp
  obtain ⟨r, ho, -⟩ := h.owned i _ state hi hexp
  rw [h.getHealthyHarness_eq hs hi ho]
  exact nofun

/-- A task that waits for the decision on a load. -/
theorem Invariant.loadRequested_cases (hw : m.Works i stage r .loadRequested) :
    (∃ id, stage = .scheduled .load id ∧ m.getHealthyHarness id = .ok r) ∨
      stage = .waiting r := by
  obtain ⟨hi, ho, -, hstate⟩ := hw
  have hexp := (h.of_owns hi ho).2
  rw [hstate] at hexp
  cases stage with
  | scheduled kind id =>
    cases kind with
    | load => exact .inl ⟨id, rfl, h.getHealthyHarness_eq hs hi ho⟩
    | unload => cases hexp
  | waiting r' =>
    obtain rfl : r = r' := ho
    exact .inr rfl
  | _ => cases hexp

/-- A task that waits for the decision on an unload. -/
theorem Invariant.unloadRequested_cases (hw : m.Works i stage r .unloadRequested) :
    ∃ id, stage = .scheduled .unload id ∧ m.getHealthyHarness id = .ok r := by
  obtain ⟨hi, ho, -, hstate⟩ := hw
  have hexp := (h.of_owns hi ho).2
  rw [hstate] at hexp
  cases stage with
  | scheduled kind id =>
    cases kind with
    | load => cases hexp
    | unload => exact ⟨id, rfl, h.getHealthyHarness_eq hs hi ho⟩
  | _ => cases hexp

end Manager

end Tension.Serving
