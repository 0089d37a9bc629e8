import Tension.Models.Serving.Availability

/-!
# Requests that wait forever

A request that asks for a version whose old instance is still managed waits until the
instance is gone. The policy unloads the instance unless it is the only ready version and
the name has aspired versions, and it loads an aspired version that is new. With all tasks
finished an aspired version is new, ready or in its error state, so the manager can only
be stuck if the aspired version of the name has failed.
-/

namespace Tension.Serving

open List Option Function

/-- The states that last without a task. -/
def HarnessState.AtRest (state : HarnessState) : Prop :=
  state = .new ∨ state = .ready ∨ state = .disabled ∨ state = .error

/-- The states that come before a request to unload. -/
def HarnessState.BeforeUnload (state : HarnessState) : Prop :=
  state = .new ∨ state = .loadRequested ∨ state = .loadApproved ∨ state = .loading ∨
    state = .ready ∨ state = .error

namespace Manager

variable {m m' : Manager} {a : Action}

/-! ## Every harness that is not at rest has a task -/

/-- Every managed harness is at rest or owned by a task. -/
def Attended (m : Manager) : Prop :=
  ∀ r ∈ m.managed, (m.harness r).state.AtRest ∨
    ∃ (i : Nat) (stage : Stage), m.tasks[i]? = some stage ∧ stage.Owns m r

variable {i : Nat} {stage stage' : Stage} {r : Ref}

/-- A task that moves on leaves the harnesses of other tasks to them. -/
theorem Attended.set (h : m.Attended)
    (hi : m.tasks[i]? = some stage) (htasks : m'.tasks = m.tasks.set i stage')
    (hmanaged : m'.managed = m.managed) (hid : ∀ r, (m'.harness r).id = (m.harness r).id)
    (hothers : ∀ r ∈ m.managed, ¬ stage.Owns m r → (m'.harness r).state = (m.harness r).state)
    (howned : ∀ r ∈ m.managed, stage.Owns m r → (m'.harness r).state.AtRest ∨ stage'.Owns m' r) :
    m'.Attended := by
  intro r hr
  rw [hmanaged] at hr
  have hlt : i < m.tasks.length := (List.getElem?_eq_some_iff.mp hi).1
  by_cases ho : stage.Owns m r
  · refine (howned r hr ho).imp id fun ho' => ⟨i, stage', ?_, ho'⟩
    rw [htasks, getElem?_set_self hlt]
  rw [hothers r hr ho]
  refine (h r hr).imp id ?_
  rintro ⟨j, other, hj, hother⟩
  have hij : i ≠ j := by
    rintro rfl
    rw [hi, some.injEq] at hj
    exact ho (hj ▸ hother)
  refine ⟨j, other, ?_, (Stage.owns_congr hmanaged hid other r).mpr hother⟩
  rw [htasks, getElem?_set_ne hij]
  exact hj

/-- A task that works on a harness moves on together with it. -/
theorem Works.attended {state : HarnessState}
    {x : LoaderHarness} (hw : m.Works i stage r state) (hinv : m.Invariant) (h : m.Attended)
    (hsets : m.Sets m' i stage' r x) (hx : x.state.AtRest ∨ stage'.Owns m' r) : m'.Attended := by
  refine h.set hw.task hsets.tasks hsets.managed hsets.harness_id (fun y _ ho => ?_)
    fun y _ ho => ?_
  · have hyr : y ≠ r := by
      rintro rfl
      exact ho hw.owns
    rw [hsets.harness_of_ne hyr]
  · obtain rfl := ho.unique hinv.unique hw.owns
    rw [hsets.harness_self]
    exact hx

/-- A task that works on nothing changes its stage. -/
theorem Attended.set_idle (h : m.Attended)
    (hi : m.tasks[i]? = some stage) (hstage : stage.expected = none)
    (htasks : m'.tasks = m.tasks.set i stage') (hmanaged : m'.managed = m.managed)
    (hharness : m'.harness = m.harness) : m'.Attended :=
  h.set hi htasks hmanaged (fun _ => by rw [hharness]) (fun _ _ _ => by rw [hharness])
    fun r _ ho => absurd ho (Stage.not_owns_of_expected_none hstage m r)

/-- A request gives its harness a task. -/
theorem Attended.spawn (h : m.Attended) {kind : Kind} {x : LoaderHarness}
    (hharness : m'.harness = Function.update m.harness r x) (hid : x.id = (m.harness r).id)
    (hmanaged : m'.managed = m.managed)
    (htasks : m'.tasks = m.tasks ++ [.scheduled kind (m.harness r).id]) : m'.Attended := by
  have hids : ∀ y, (m'.harness y).id = (m.harness y).id := by
    rw [hharness]
    exact update_id hid
  intro y hy
  by_cases hyr : y = r
  · subst hyr
    refine .inr ⟨m.tasks.length, .scheduled kind (m.harness y).id, ?_, hy, hids y⟩
    rw [htasks]
    exact getElem?_concat_length
  · rw [hmanaged] at hy
    rw [hharness, update_of_ne hyr]
    refine (h y hy).imp id ?_
    rintro ⟨i, stage, hi, ho⟩
    refine ⟨i, stage, ?_, (Stage.owns_congr hmanaged hids stage y).mpr ho⟩
    rw [htasks, List.getElem?_append_left (List.getElem?_eq_some_iff.mp hi).1]
    exact hi

/-- A change of the managed map leaves the harnesses that stay to their tasks. -/
theorem Attended.frame (h : m.Attended) (htasks : m'.tasks = m.tasks)
    (hframe : ∀ r ∈ m'.managed, (m'.harness r).state.AtRest ∨
      r ∈ m.managed ∧ m'.harness r = m.harness r) : m'.Attended := by
  intro r hr
  rcases hframe r hr with hrest | ⟨hold, hsame⟩
  · exact .inl hrest
  · rw [hsame]
    refine (h r hold).imp id ?_
    rintro ⟨i, stage, hi, ho⟩
    exact ⟨i, stage, htasks ▸ hi, ho.mono fun _ => ⟨hr, by rw [hsame]⟩⟩

section

variable (he : Effect m a m')
include he

/-- A new harness is new or in its error state. -/
theorem Effect.state_next (hinv : m.Invariant) (hr : m.next ∈ m'.managed) :
    (m'.harness m.next).state = .new ∨
      (m'.harness m.next).state = .error := by
  have hfresh : m.next ∉ m.managed := fun hmem => (hinv.fresh _ hmem).ne rfl
  cases he with
  | managed _ =>
    simp only [setHarness, update_self]
    split
    · exact .inr rfl
    · exact .inl rfl
  | dropped _ _ => exact absurd (mem_of_mem_erase hr) hfresh
  | _ => exact absurd hr hfresh

/-- The effects keep every harness attended. -/
theorem Effect.attended (hinv : m.Invariant) (hs : m.Settled) (h : m.Attended) : m'.Attended := by
  have hnext := he.state_next hinv
  cases he with
  | known _ | kept | ignored => exact h
  | managed _ =>
    refine h.frame rfl fun r hr => ?_
    rcases mem_append.mp hr with hold | hnew
    · exact .inr ⟨hold, update_of_ne (hinv.fresh r hold).ne _ _⟩
    · obtain rfl := mem_singleton.mp hnew
      rcases hnext hr with hstate | hstate
      · exact .inl (.inl hstate)
      · exact .inl (.inr (.inr (.inr hstate)))
  | dropped _ _ => exact h.frame rfl fun r hr => .inr ⟨mem_of_mem_erase hr, rfl⟩
  | loadRequested _ _ | unloadRequested _ _ => exact h.spawn rfl (by rfl) rfl rfl
  | rejected hi hstatus => exact absurd hstatus (hinv.getHealthyHarness_ne_error hs hi)
  | waiting hw _ _ =>
    exact hw.attended hinv h ⟨rfl, (update_eq_self _ _).symm, rfl, rfl, rfl⟩ (.inr rfl)
  | unreserved hw _ _ _ | loadFailed hw _ =>
    exact hw.attended hinv h ⟨rfl, rfl, rfl, rfl, rfl⟩ (.inl (.inr (.inr (.inr rfl))))
  | loaded hw _ => exact hw.attended hinv h ⟨rfl, rfl, rfl, rfl, rfl⟩ (.inl (.inr (.inl rfl)))
  | unloaded hw =>
    exact hw.attended hinv h ⟨rfl, rfl, rfl, rfl, rfl⟩ (.inl (.inr (.inr (.inl rfl))))
  | loadApproved hw _ | unloadApproved hw | loading hw | quiesced hw | unloading hw =>
    exact hw.attended hinv h ⟨rfl, rfl, rfl, rfl, rfl⟩ (.inr rfl)
  | served hi | finished hi => exact h.set_idle hi rfl rfl rfl rfl

/-- Only a request to unload takes a harness past the states before it. -/
theorem Effect.beforeUnload (hr : r < m.next) (h : (m.harness r).state.BeforeUnload)
    (ha : a ≠ .request .unload (m.harness r).id) : (m'.harness r).state.BeforeUnload := by
  rcases he.moved hr with hsame | hmoved
  · rw [hsame]
    exact h
  · have htransition := hmoved.transition
    have hready : (m.harness r).state ≠ .ready := fun hready => ha (hmoved.unload hready)
    generalize (m.harness r).state = state at htransition h hready
    generalize (m'.harness r).state = state' at htransition
    cases htransition <;> simp_all [HarnessState.BeforeUnload]

theorem Effect.next_le : m.next ≤ m'.next := by
  cases he with
  | managed _ => exact Nat.le_succ _
  | _ => exact le_rfl

end

/-- Without tasks every managed harness is at rest. -/
theorem Attended.atRest (h : m.Attended) (hquiet : ∀ stage ∈ m.tasks, stage = .finished)
    (hr : r ∈ m.managed) : (m.harness r).state.AtRest := by
  refine (h r hr).resolve_right ?_
  rintro ⟨i, stage, hi, ho⟩
  rw [hquiet stage (mem_of_getElem? hi)] at ho
  exact ho

/-- A managed harness is found by its id. -/
theorem findHarnessInMap_eq (hinv : m.Invariant) (hr : r ∈ m.managed) :
    m.findHarnessInMap (m.harness r).id = some r := by
  have hsome : (m.findHarnessInMap (m.harness r).id).isSome :=
    find?_isSome.mpr ⟨r, hr, decide_eq_true rfl⟩
  obtain ⟨r', hr'⟩ := isSome_iff_exists.mp hsome
  obtain ⟨hmem', hid'⟩ := of_findHarnessInMap hr'
  rw [hr', hinv.unique r' hmem' r hr hid']

/-- A request for a harness that can follow it changes the harness. -/
theorem harness_loadOrUnloadServable (hinv : m.Invariant) (hs : m.Settled) {kind : Kind}
    (hr : r ∈ m.managed) (hstate : (kind = .load ∧ (m.harness r).state = .new) ∨
      (kind = .unload ∧ (m.harness r).state = .ready)) :
    (m.loadOrUnloadServable kind (m.harness r).id).2.harness r ≠ m.harness r := by
  have hok : ¬ (m.harness r).status.code ≠ .ok := by
    intro hbad
    have herror := hs.healthy r hbad
    rcases hstate with ⟨-, hstate⟩ | ⟨-, hstate⟩ <;> rw [hstate] at herror <;> cases herror
  rw [loadOrUnloadServable, getHealthyHarness, findHarnessInMap_eq hinv hr]
  simp only [if_neg hok]
  rcases hstate with ⟨rfl, hstate⟩ | ⟨rfl, hstate⟩
  all_goals
    simp only [LoaderHarness.loadRequested, LoaderHarness.unloadRequested,
      if_neg (not_not.mpr hstate), setHarness, Status.code_ok, ne_eq, not_true_eq_false, if_false,
      update_self]
    intro heq
    rw [← heq] at hstate
    cases hstate

end Manager

/-! ## The policy acts -/

namespace AvailabilityPreservingPolicy

/-- With a ready version that is not aspired, the policy acts unless an aspired version is in
another state than new or ready. -/
theorem getNextAction_isSome {versions : List AspiredServableStateSnapshot}
    (hready : ∃ v ∈ versions, v.isAspired = false ∧ v.state = .ready)
    (haspired : ∀ v ∈ versions, v.isAspired = true → v.state = .new ∨ v.state = .ready) :
    (getNextAction versions).isSome := by
  obtain ⟨v, hv, hunaspired, hstate⟩ := hready
  have hlowest : (getLowestServableId (unaspiredServing versions)).isSome :=
    getLowestServableId_isSome
      (ne_nil_of_mem (mem_unaspiredServing.mpr ⟨hv, hunaspired, hstate⟩))
  rw [getNextAction]
  split
  · rfl
  · next hnone =>
    -- nothing is unloaded, so there is an aspired version, but it is not ready
    have hcond : ¬ (!(versions.any fun v => v.isAspired) ||
        (versions.any fun v => v.isAspired && v.state == .ready) ||
        decide (1 < (unaspiredServing versions).length)) = true := by
      intro hcond
      rw [versionToUnload, if_pos hcond] at hnone
      rw [hnone] at hlowest
      cases hlowest
    rw [Bool.or_eq_true, Bool.or_eq_true, not_or, not_or, Bool.not_eq_true', Bool.not_eq_false,
      List.any_eq_true] at hcond
    obtain ⟨⟨⟨w, hw, hwaspired⟩, hserving⟩, -⟩ := hcond
    have hnew : w.state = .new := by
      refine (haspired w hw hwaspired).resolve_right fun hwready => hserving ?_
      refine any_eq_true.mpr ⟨w, hw, ?_⟩
      rw [hwaspired, hwready]
      rfl
    have hhighest : (getHighestAspiredNewServableId versions).isSome :=
      foldl_higher_isSome (.inr ⟨w, hw, hwaspired, hnew⟩)
    obtain ⟨id, hid⟩ := isSome_iff_exists.mp hhighest
    rw [hid]
    rfl

end AvailabilityPreservingPolicy

/-- Nothing precedes an unload. -/
theorem compareActions_unload (x : Option ServableAction) (id : ServableId) :
    compareActions x (some ⟨.unload, id⟩) = false := by
  match x with
  | none => rfl
  | some ⟨.load, _⟩ => rfl
  | some ⟨.unload, _⟩ => rfl

/-- If some stream wants an action, one is taken. -/
theorem firstAction_isSome {actions : List (Option ServableAction)} {a : ServableAction}
    (ha : some a ∈ actions) (pick : Nat) : ∃ a', firstAction pick actions = some a' := by
  have hcandidate : ∃ x ∈ actions, ∀ y ∈ actions, compareActions y x = false := by
    by_cases hunload : ∃ id, some ⟨.unload, id⟩ ∈ actions
    · obtain ⟨id, hid⟩ := hunload
      exact ⟨_, hid, fun y _ => compareActions_unload y id⟩
    refine ⟨some a, ha, fun y hy => Bool.eq_false_iff.mpr fun hy' => ?_⟩
    obtain ⟨kind, id⟩ := a
    cases kind with
    | unload => exact hunload ⟨id, ha⟩
    | load =>
      match y with
      | some ⟨.unload, id'⟩ => exact hunload ⟨id', hy⟩
  obtain ⟨x, hx, hmin⟩ := hcandidate
  have hmem : x ∈ actions.filter fun x => actions.all fun y => !compareActions y x := by
    refine mem_filter.mpr ⟨hx, all_eq_true.mpr fun y hy => ?_⟩
    rw [hmin y hy]
    rfl
  have hlt := Nat.mod_lt pick (length_pos_of_mem hmem)
  obtain ⟨y, hy⟩ := ne_none_iff_exists'.mp (mt getElem?_eq_none_iff.mp hlt.not_ge)
  rw [firstAction, hy]
  cases y with
  | some a' => exact ⟨a', rfl⟩
  | none =>
    -- an action precedes no action
    have hall := (mem_filter.mp (mem_of_getElem? hy)).2
    have hfalse := all_eq_true.mp hall _ ha
    cases hfalse

namespace AspiredVersionsManager

variable {s s' : AspiredVersionsManager}

/-! ## Aspired versions are not being unloaded -/

/-- Tasks attend to all harnesses, and no unload of an aspired version has been requested. -/
structure Lively (s : AspiredVersionsManager) : Prop where
  attended : s.manager.Attended
  marked : ∀ r ∈ s.manager.managed, s.isAspired r = true →
    (s.manager.harness r).state.BeforeUnload

/-- A step of the basic manager that unloads no aspired version. -/
theorem Lively.effect {a : Manager.Action} (h : s.Lively) (hsteady : s.manager.Steady)
    (he : s.manager.Effect a s'.manager) (hunload : ∀ id, a = .request .unload id → s.Unaspired id)
    (hmarks : ∀ r ∈ s.manager.managed, s'.isAspired r = s.isAspired r) : s'.Lively := by
  refine ⟨he.attended hsteady.invariant hsteady.settled h.attended, fun r hr haspired => ?_⟩
  rcases he.mem_managed hr with hmem | ⟨rfl, -⟩
  · rw [hmarks r hmem] at haspired
    refine he.beforeUnload (hsteady.invariant.fresh r hmem) (h.marked r hmem haspired) ?_
    intro ha
    rw [hunload _ ha r hmem rfl] at haspired
    cases haspired
  · rcases he.state_next hsteady.invariant hr with hstate | hstate
    · exact .inl hstate
    · exact .inr (.inr (.inr (.inr (.inr hstate))))

variable {r : Ref}

/-- Taking over a request keeps the manager lively. -/
theorem Lively.process (h : s.Lively) (hsteady : s.manager.Steady) (name : String)
    (versions : List ServableData) : (s.processAspiredVersionsRequest name versions).Lively := by
  have hadopts := adopts_process hsteady name versions
  refine ⟨h.attended.frame hadopts.tasks fun r hr => ?_, fun r hr haspired => ?_⟩
  · rcases hadopts.added r hr with hold | ⟨-, -, hstate, -⟩
    · exact .inr ⟨hold, (hadopts.kept r hold).2.1⟩
    · exact .inl (hstate.imp_right fun hstate => .inr (.inr hstate))
  · rcases hadopts.added r hr with hold | ⟨-, -, hstate, -⟩
    · obtain ⟨-, hharness, hmark⟩ := hadopts.kept r hold
      rw [hharness]
      exact h.marked r hold (hmark.mp haspired).1
    · exact hstate.imp_right fun hstate => .inr (.inr (.inr (.inr hstate)))

theorem Lively.handle (h : s.Lively) (hsteady : s.manager.Steady) :
    s.handlePendingAspiredVersionsRequests.Lively :=
  (handleRequests_induction (s := { s with pending := [] }) hsteady
    (fun _ _ _ ht => ⟨ht.attended, ht.marked⟩) (fun _ _ _ hsteady _ ht => ht.process hsteady _ _)
    ⟨h.attended, h.marked⟩).2

/-- Every move keeps the manager lively. -/
theorem Lively.step (h : s.Lively) (hs : s.Coherent) {a : Move} (ha : s.step a = some s') :
    s'.Lively := by
  cases hs.change ha with
  | none hmanager hmarks =>
    obtain ⟨hattended, hmarked⟩ := h
    refine ⟨hmanager ▸ hattended, ?_⟩
    rw [hmanager, hmarks]
    exact hmarked
  | act he hmarks hstop hunload =>
    exact h.effect hs.steady he (fun id hid => (hunload id hid).1) fun r _ => congrFun hmarks r
  | handle => exact h.handle hs.steady

/-! ## What a cycle without effect says -/

/-- The servable is flushed: it is not aspired and in an initial or final state. -/
def Flushable (s : AspiredVersionsManager) (r : Ref) : Prop :=
  s.isAspired r = false ∧ ((s.manager.harness r).state = .new ∨
    (s.manager.harness r).state = .disabled ∨ (s.manager.harness r).state = .error)

/-- Only the managed map has changed, and it has lost entries at most. -/
structure Shrinks (s s' : AspiredVersionsManager) : Prop where
  steady : s'.manager.Steady
  managed : s'.manager.managed ⊆ s.manager.managed
  harness : s'.manager.harness = s.manager.harness
  next : s'.manager.next = s.manager.next
  marks : s'.isAspired = s.isAspired
  thread : s'.thread = s.thread

theorem Shrinks.refl (h : s.manager.Steady) : s.Shrinks s :=
  ⟨h, fun _ hr => hr, rfl, rfl, rfl, rfl⟩

theorem Shrinks.trans {t : AspiredVersionsManager} (h : s.Shrinks s') (h' : s'.Shrinks t) :
    s.Shrinks t where
  steady := h'.steady
  managed := fun _ hr => h.managed (h'.managed hr)
  harness := h'.harness.trans h.harness
  next := h'.next.trans h.next
  marks := h'.marks.trans h.marks
  thread := h'.thread.trans h.thread

theorem Shrinks.flushable (h : s.Shrinks s') : s'.Flushable r ↔ s.Flushable r := by
  rw [Flushable, Flushable, h.harness, h.marks]

section

variable (h : s.manager.Steady)
include h

/-- One servable is dropped. -/
theorem shrinks_stop (id : ServableId) : s.Shrinks (s.stop id) := by
  have he := Manager.effect_stop s.manager id
  have hsteady : (s.manager.stopManagingServable id).2.Steady := h.advance (advance_stop s id)
  rw [stop]
  generalize (s.manager.stopManagingServable id).2 = m' at he hsteady
  cases he with
  | kept => exact .refl h
  | dropped _ _ => exact ⟨hsteady, fun _ hr => mem_of_mem_erase hr, rfl, rfl, rfl, rfl⟩

/-- A servable in an initial or final state is dropped when its turn comes. -/
theorem not_mem_stop (hr : s.Flushable r) :
    r ∉ (s.stop (s.manager.harness r).id).manager.managed := by
  intro hmem
  have hmanaged := (shrinks_stop h _).managed hmem
  have hfind := Manager.findHarnessInMap_eq h.invariant hmanaged
  rw [stop, Manager.stopManagingServable, hfind] at hmem
  have hstate := hr.2
  simp only at hmem
  rw [if_neg (by tauto)] at hmem
  exact h.settled.nodup.not_mem_erase hmem

theorem shrinks_foldl_stop (ids : List ServableId) : s.Shrinks (ids.foldl stop s) := by
  induction ids generalizing s with
  | nil => exact .refl h
  | cons id ids ih => exact (shrinks_stop h id).trans (ih (shrinks_stop h id).steady)

theorem not_mem_foldl_stop (hr : s.Flushable r) {ids : List ServableId}
    (hid : (s.manager.harness r).id ∈ ids) : r ∉ (ids.foldl stop s).manager.managed := by
  induction ids generalizing s with
  | nil => cases hid
  | cons id ids ih =>
    have hstop := shrinks_stop h id
    rcases mem_cons.mp hid with rfl | hid
    · exact fun hmem => not_mem_stop h hr ((shrinks_foldl_stop hstop.steady ids).managed hmem)
    · exact ih hstop.steady (hstop.flushable.mpr hr) (by rw [hstop.harness]; exact hid)

end

/-- The servables of some names are flushed. -/
def flushNames (s : AspiredVersionsManager) (names : List String) : AspiredVersionsManager :=
  names.foldl (fun s name => (s.flushable name).foldl stop s) s

theorem shrinks_flushNames (h : s.manager.Steady) (names : List String) :
    s.Shrinks (s.flushNames names) := by
  induction names generalizing s with
  | nil => exact .refl h
  | cons name names ih =>
    have hname := shrinks_foldl_stop h (s.flushable name)
    exact hname.trans (ih hname.steady)

theorem mem_flushable (hmem : r ∈ s.manager.managed) (hr : s.Flushable r) :
    (s.manager.harness r).id ∈ s.flushable (s.manager.harness r).id.name := by
  refine mem_map.mpr ⟨_, mem_filter.mpr ⟨snapshot_mem hmem rfl, ?_⟩, rfl⟩
  exact decide_eq_true ⟨hr.2, hr.1⟩

/-- Flushing drops what can be flushed. -/
theorem not_mem_flushNames (h : s.manager.Steady) (hr : s.Flushable r)
    {names : List String} (hname : (s.manager.harness r).id.name ∈ names) :
    r ∉ (s.flushNames names).manager.managed := by
  induction names generalizing s with
  | nil => cases hname
  | cons name names ih =>
    have hshrinks := shrinks_foldl_stop h (s.flushable name)
    rcases mem_cons.mp hname with rfl | hname
    · intro hmem
      have hlater := (shrinks_flushNames hshrinks.steady names).managed hmem
      exact not_mem_foldl_stop h hr (mem_flushable (hshrinks.managed hlater) hr) hlater
    · exact ih hshrinks.steady (hshrinks.flushable.mpr hr) (by rw [hshrinks.harness]; exact hname)

/-- Flushing does nothing if nothing can be flushed. -/
theorem flushServables_eq (h : ∀ r ∈ s.manager.managed, ¬ s.Flushable r) :
    s.flushServables = s := by
  have hnone : ∀ name, s.flushable name = [] := by
    intro name
    rw [flushable, map_eq_nil_iff, filter_eq_nil_iff]
    intro v hv hflush
    obtain ⟨r, hr, -, rfl⟩ := mem_snapshots.mp hv
    obtain ⟨hstate, hmark⟩ := of_decide_eq_true hflush
    exact h r hr ⟨hmark, hstate⟩
  rw [flushServables]
  induction s.manager.getManagedServableNames with
  | nil => rfl
  | cons name names ih =>
    rw [foldl_cons, hnone]
    exact ih

theorem mem_getManagedServableNames {m : Manager} (hr : r ∈ m.managed) :
    (m.harness r).id.name ∈ m.getManagedServableNames :=
  mem_dedup.mpr (mem_map_of_mem hr)

/-- Only new harnesses become managed. -/
def Extends (s s' : AspiredVersionsManager) : Prop :=
  s.manager.next ≤ s'.manager.next ∧
    ∀ r ∈ s'.manager.managed, r < s.manager.next → r ∈ s.manager.managed

theorem Extends.effect {t : AspiredVersionsManager} {a : Manager.Action} (h : s.Extends s')
    (he : s'.manager.Effect a t.manager) : s.Extends t := by
  refine ⟨h.1.trans he.next_le, fun r hr hlt => ?_⟩
  rcases he.mem_managed hr with hmem | ⟨rfl, -⟩
  · exact h.2 r hmem hlt
  · exact absurd (hlt.trans_le h.1) (lt_irrefl _)

theorem extends_handle (h : s.manager.Steady) :
    s.Extends s.handlePendingAspiredVersionsRequests := by
  refine (handleRequests_induction (s := { s with pending := [] }) h
    (fun t p _ ht => ht) (fun t p _ hsteady _ ht => ?_) ⟨le_rfl, fun _ hr _ => hr⟩).2
  have hadopts := adopts_process hsteady p.1 p.2
  refine ⟨ht.1.trans hadopts.next, fun r hr hlt => ?_⟩
  rcases hadopts.added r hr with hold | ⟨hle, -⟩
  · exact ht.2 r hold hlt
  · exact absurd (hlt.trans_le (ht.1.trans hle)) (lt_irrefl _)

theorem extends_invoke (h : s.Extends s') (hsteady : s'.manager.Steady) (pick : Nat) :
    s.Extends (s'.invokePolicyAndExecuteAction pick) := by
  rw [invokePolicyAndExecuteAction]
  split
  · exact h
  · next a ha => exact h.effect (hsteady.invariant.effect (advance_performAction s' a))

theorem pending_invoke (s : AspiredVersionsManager) (pick : Nat) :
    (s.invokePolicyAndExecuteAction pick).pending = s.pending := by
  rw [invokePolicyAndExecuteAction]
  split <;> rfl

/-- Nothing can be flushed if a cycle leaves the managed map as it is. -/
theorem not_flushable_of_cycle (hs : s.Coherent) {pick : Nat}
    (h : (s.cycle pick).manager.managed = s.manager.managed)
    (hr : r ∈ s.manager.managed) : ¬ s.Flushable r := by
  intro hflush
  have hshrinks : s.Shrinks s.flushServables := shrinks_flushNames hs.steady _
  have hgone : r ∉ s.flushServables.manager.managed :=
    not_mem_flushNames hs.steady hflush (mem_getManagedServableNames hr)
  have hadopts : s.flushServables.Extends (s.cycle pick) :=
    extends_invoke (extends_handle hshrinks.steady) (handle_spec hshrinks.steady).1 pick
  refine hgone (hadopts.2 r ?_ ?_)
  · rw [h]
    exact hr
  · rw [hshrinks.next]
    exact hs.steady.invariant.fresh r hr

/-- If no request leaves the pending ones, all of them are postponed. -/
theorem postponed_of_handleRequests {ps : List (String × List ServableData)}
    (h : (s.handleRequests ps).pending = s.pending ++ ps) :
    s.handleRequests ps = { s with pending := s.pending ++ ps } ∧
      ∀ p ∈ ps, s.containsAnyReaspiredVersions p.1 p.2 = true := by
  induction ps generalizing s with
  | nil =>
    refine ⟨?_, nofun⟩
    rw [append_nil]
    rfl
  | cons p ps ih =>
    rw [handleRequests] at h ⊢
    split at h
    · next hp =>
      rw [if_pos hp]
      obtain ⟨heq, hall⟩ := ih
        (h.trans (append_cons _ _ _))
      rw [heq, append_assoc]
      exact ⟨rfl, forall_mem_cons.mpr ⟨hp, hall⟩⟩
    · -- a request that is taken over is missing at the end
      obtain ⟨rest, hrest, hleft, -⟩ :=
        exists_pending_handleRequests (s.processAspiredVersionsRequest p.1 p.2) ps
      rw [(pending_processAspiredVersionsRequest s p.1 p.2).1, h] at hleft
      have hlength := hrest.length_le
      rw [← append_cancel_left hleft, length_cons] at hlength
      omega

/-- An action of the policy changes the harness it is about. -/
theorem harness_performAction (h : s.manager.Steady) {name : String} {a : ServableAction}
    (ha : s.policyAction name = some a) : ∃ r ∈ s.manager.managed,
      (s.performAction a).manager.harness r ≠ s.manager.harness r := by
  obtain ⟨kind, id⟩ := a
  cases kind with
  | load =>
    obtain ⟨v, hv, hid, -, hstate⟩ := AvailabilityPreservingPolicy.getNextAction_load ha
    obtain ⟨r, hr, -, rfl⟩ := mem_snapshots.mp hv
    subst hid
    exact ⟨r, hr, Manager.harness_loadOrUnloadServable h.invariant h.settled hr
      (.inl ⟨rfl, hstate⟩)⟩
  | unload =>
    obtain ⟨⟨v, hv, hid, -, hstate⟩, -⟩ :=
      AvailabilityPreservingPolicy.getNextAction_unload (nodup_snapshots h name) ha
    obtain ⟨r, hr, -, rfl⟩ := mem_snapshots.mp hv
    subst hid
    exact ⟨r, hr, Manager.harness_loadOrUnloadServable h.invariant h.settled hr
      (.inr ⟨rfl, hstate⟩)⟩

/-! ## The thread runs the cycle -/

section

variable (s : AspiredVersionsManager) (names : List String)

theorem run_foldl_stop (ids : List ServableId) :
    Run.run step { s with thread := .flushing names ids } (List.replicate ids.length .flush) =
      some { ids.foldl stop s with thread := .flushing names [] } := by
  induction ids generalizing s with
  | nil => rfl
  | cons id ids ih => exact ih (s.stop id)

theorem run_flushNames :
    ∃ n, Run.run step { s with thread := .flushing names [] } (List.replicate n .flush) =
      some { s.flushNames names with thread := .idle } := by
  induction names generalizing s with
  | nil => exact ⟨1, rfl⟩
  | cons name names ih =>
    obtain ⟨n, hn⟩ := ih ((s.flushable name).foldl stop s)
    refine ⟨(s.flushable name).length + n + 1, ?_⟩
    rw [replicate_succ, replicate_add]
    change Run.run step { s with thread := .flushing names (s.flushable name) } _ = _
    rw [Run.run_append, run_foldl_stop]
    exact hn

end

theorem run_policyAction (s : AspiredVersionsManager) (pick : Nat) (names : List String)
    (actions : List (Option ServableAction)) :
    Run.run step { s with thread := .choosing names actions }
        (List.replicate names.length (.invoke pick)) =
      some { s with thread := .choosing [] (actions ++ names.map s.policyAction) } := by
  induction names generalizing actions with
  | nil =>
    rw [map_nil, append_nil]
    rfl
  | cons name names ih =>
    rw [map_cons, append_cons]
    exact ih (actions ++ [s.policyAction name])

theorem run_invoke (hidle : s.thread = .idle) (pick : Nat) :
    ∃ k, Run.run step s (List.replicate k (.invoke pick)) =
      some (s.invokePolicyAndExecuteAction pick) := by
  obtain ⟨k, hcollect⟩ : ∃ k, Run.run step s (List.replicate k (.invoke pick)) = some { s with
      thread := .choosing [] (s.manager.getManagedServableNames.map s.policyAction) } := by
    refine ⟨s.manager.getManagedServableNames.length + 1, ?_⟩
    rw [replicate_succ, Run.run_cons, step, invoke, hidle]
    exact run_policyAction s pick s.manager.getManagedServableNames []
  have hself : { s with thread := .idle } = s := by rw [← hidle]
  rw [invokePolicyAndExecuteAction]
  cases hfirst : firstAction pick (s.manager.getManagedServableNames.map s.policyAction) with
  | none =>
    refine ⟨k + 1, ?_⟩
    rw [replicate_add, Run.run_append, hcollect, bind_some]
    simp [Run.run_cons, step, invoke, hfirst, hself]
  | some a =>
    refine ⟨k + 2, ?_⟩
    rw [replicate_add, Run.run_append, hcollect, bind_some]
    simp only [replicate, Run.run_cons, step, invoke, hfirst]
    rw [← hself]
    rfl

/-- Flushing does not move the thread. -/
theorem thread_flushNames (names : List String) : (s.flushNames names).thread = s.thread := by
  have hstop (ids : List ServableId) (s : AspiredVersionsManager) :
      (ids.foldl stop s).thread = s.thread := by
    induction ids generalizing s with
    | nil => rfl
    | cons id ids ih => exact ih (s.stop id)
  induction names generalizing s with
  | nil => rfl
  | cons name names ih => exact ih.trans (hstop (s.flushable name) s)

/-- Left alone, the thread computes a complete cycle. -/
theorem run_cycle (hidle : s.thread = .idle) (pick : Nat) :
    ∃ n k, Run.run step s (List.replicate n .flush ++ .handle :: List.replicate k (.invoke pick)) =
      some (s.cycle pick) := by
  have hflushed : s.flushServables.thread = .idle := (thread_flushNames _).trans hidle
  obtain ⟨n, hn⟩ := run_flushNames s s.manager.getManagedServableNames
  obtain ⟨-, -, -, hthread⟩ := exists_pending_handleRequests
    { s.flushServables with pending := [] } s.flushServables.pending
  have hhandled : s.flushServables.handlePendingAspiredVersionsRequests.thread = .idle :=
    hthread.trans hflushed
  obtain ⟨k, hk⟩ := run_invoke hhandled pick
  have hself : { s.flushServables with thread := .idle } = s.flushServables := by rw [← hflushed]
  refine ⟨n + 1, k, ?_⟩
  rw [replicate_succ, cons_append, Run.run_cons, step, flush, hidle, bind_some, Run.run_append,
    hn, bind_some]
  change (step { s.flushServables with thread := .idle } .handle).bind _ = _
  rw [hself, step, if_pos hflushed]
  exact hk

/-! ## Stuck states -/

/-- The managed servables, their marks and the pending requests are the same. -/
structure Unchanged (s s' : AspiredVersionsManager) : Prop where
  managed : s'.manager.managed = s.manager.managed
  harness : ∀ r ∈ s.manager.managed, s'.manager.harness r = s.manager.harness r
  marks : ∀ r ∈ s.manager.managed, s'.isAspired r = s.isAspired r
  pending : s'.pending = s.pending

/-- A request is pending, no load or unload is queued or executing, and a complete cycle can
leave everything as it is. -/
structure Stuck (s : AspiredVersionsManager) : Prop where
  idle : s.thread = .idle
  pending : s.pending ≠ []
  quiet : ∀ stage ∈ s.manager.tasks, stage = .finished
  unchanged : ∃ pick, s.Unchanged (s.cycle pick)

/-- A pending name whose aspired versions have not failed gets an action of the policy. -/
theorem policyAction_isSome (hl : s.Lively) (hquiet : ∀ stage ∈ s.manager.tasks, stage = .finished)
    (hflush : ∀ r ∈ s.manager.managed, ¬ s.Flushable r) {name : String}
    {versions : List ServableData} (hp : s.containsAnyReaspiredVersions name versions = true)
    (hhealthy : ∀ r ∈ s.manager.managed, (s.manager.harness r).id.name = name →
      s.isAspired r = true → (s.manager.harness r).state ≠ .error) :
    (s.policyAction name).isSome := by
  refine AvailabilityPreservingPolicy.getNextAction_isSome ?_ ?_
  · obtain ⟨v, hv, hre⟩ := any_eq_true.mp hp
    rw [Bool.and_eq_true, Bool.not_eq_true'] at hre
    refine ⟨v, hv, hre.1, ?_⟩
    obtain ⟨r, hr, -, rfl⟩ := mem_snapshots.mp hv
    have hnot := hflush r hr
    rcases hl.attended.atRest hquiet hr with hstate | hstate | hstate | hstate
    · exact absurd ⟨hre.1, .inl hstate⟩ hnot
    · exact hstate
    · exact absurd ⟨hre.1, .inr (.inl hstate)⟩ hnot
    · exact absurd ⟨hre.1, .inr (.inr hstate)⟩ hnot
  · intro v hv haspired
    obtain ⟨r, hr, hname, rfl⟩ := mem_snapshots.mp hv
    have hbefore := hl.marked r hr haspired
    rcases hl.attended.atRest hquiet hr with hstate | hstate | hstate | hstate
    · exact .inl hstate
    · exact .inr hstate
    · rw [hstate] at hbefore
      rcases hbefore with h | h | h | h | h | h <;> cases h
    · exact absurd hstate (hhealthy r hr hname haspired)

/-- A pending name whose aspired versions have not failed is no obstacle. -/
theorem not_stuck_of_healthy (hs : s.Coherent) (hl : s.Lively)
    {p : String × List ServableData} (hp : p ∈ s.pending)
    (hhealthy : ∀ r ∈ s.manager.managed, (s.manager.harness r).id.name = p.1 →
      s.isAspired r = true → (s.manager.harness r).state ≠ .error) : ¬ s.Stuck := by
  rintro ⟨-, -, hquiet, pick, hunchanged⟩
  have hflush : ∀ r ∈ s.manager.managed, ¬ s.Flushable r := fun r hr =>
    not_flushable_of_cycle hs hunchanged.managed hr
  have hcycle : s.cycle pick =
      s.handlePendingAspiredVersionsRequests.invokePolicyAndExecuteAction pick := by
    rw [cycle, flushServables_eq hflush]
  have hpending := hunchanged.pending
  rw [hcycle, pending_invoke] at hpending
  obtain ⟨hhandle, hpostponed⟩ := postponed_of_handleRequests hpending
  obtain ⟨a, ha⟩ := isSome_iff_exists.mp
    (policyAction_isSome hl hquiet hflush (hpostponed p hp) hhealthy)
  have hname : p.1 ∈ s.manager.getManagedServableNames := by
    obtain ⟨v, hv, -⟩ := any_eq_true.mp (hpostponed p hp)
    obtain ⟨r, hr, hrname, -⟩ := mem_snapshots.mp hv
    rw [← hrname]
    exact mem_getManagedServableNames hr
  have hmem : some a ∈ s.manager.getManagedServableNames.map s.policyAction :=
    mem_map.mpr ⟨p.1, hname, ha⟩
  obtain ⟨a', ha'⟩ := firstAction_isSome hmem pick
  obtain ⟨name', -, hname'⟩ := mem_map.mp (mem_of_firstAction ha')
  obtain ⟨r, hr, hne⟩ := harness_performAction hs.steady hname'
  have hsame := hunchanged.harness r hr
  rw [hcycle, handlePendingAspiredVersionsRequests, hhandle, invokePolicyAndExecuteAction] at hsame
  simp only [nil_append, ha'] at hsame
  exact hne hsame

/-- What every reachable state satisfies. -/
theorem lively_of_run {tracked : Bool} {moves : List Move}
    (hrun : Run.run step (initial tracked) moves = some s) : s.Coherent ∧ s.Lively :=
  Run.run_invariant (I := fun s => s.Coherent ∧ s.Lively)
    (fun _ _ _ hs _ ha => ⟨hs.1.step ha, hs.2.step hs.1 ha⟩)
    ⟨coherent_initial tracked, nofun, nofun⟩
    (Run.admissible_of_forall (fun _ _ => trivial) _ moves) hrun

/-- A reachable state with a pending request for a name whose aspired versions have not failed
is not stuck. -/
theorem not_stuck_of_run (tracked : Bool) (moves : List Move) (s : AspiredVersionsManager)
    (hrun : Run.run step (initial tracked) moves = some s) (p : String × List ServableData)
    (hp : p ∈ s.pending) (hhealthy : ∀ r ∈ s.manager.managed,
      (s.manager.harness r).id.name = p.1 → s.isAspired r = true →
        (s.manager.harness r).state ≠ .error) : ¬ s.Stuck := by
  obtain ⟨hcoherent, hlively⟩ := lively_of_run hrun
  exact not_stuck_of_healthy hcoherent hlively hp hhealthy

/-- In every reachable state a version that is aspired is not being unloaded, and once all loads
and unloads are over every version is new, ready, disabled or has failed. -/
theorem settled_of_run {tracked : Bool} {moves : List Move}
    (hrun : Run.run step (initial tracked) moves = some s) (hr : r ∈ s.manager.managed) :
    (s.isAspired r = true → (s.manager.harness r).state.BeforeUnload) ∧
      ((∀ stage ∈ s.manager.tasks, stage = .finished) → (s.manager.harness r).state.AtRest) := by
  obtain ⟨-, hlively⟩ := lively_of_run hrun
  exact ⟨hlively.marked r hr, fun hquiet => hlively.attended.atRest hquiet hr⟩

/-- The first version is aspired again while the second one loads or has failed. -/
def backToFirst (outcome : Status) : List Move :=
  firstVersion ++ aspireTo [⟨⟨"model", 2⟩, .ok⟩] ++ [.decide 1 .reserved, .execute 1 .ok,
    .execute 1 outcome, .execute 1 .ok] ++ [.enqueue "model" [⟨⟨"model", 1⟩, .ok⟩]]

/-- A cycle that takes over the request. -/
theorem run_cycle_backToFirst :
    ∃ s, Run.run step (initial false) (backToFirst .ok) = some s ∧
      ∃ n k, Run.run step s (List.replicate n .flush ++ .handle :: List.replicate k (.invoke 0)) =
        some (s.cycle 0) :=
  ⟨_, rfl, run_cycle (by decide) 0⟩

/-- The second version is aspired and ready once its load is over. -/
theorem settled_backToFirst :
    ∃ s, Run.run step (initial false) (backToFirst .ok ++ [.execute 1 .ok]) = some s ∧
      s.isAspired 1 = true ∧ (s.manager.harness 1).state.BeforeUnload ∧
      (∀ stage ∈ s.manager.tasks, stage = .finished) ∧ (s.manager.harness 1).state.AtRest := by
  have h := @settled_of_run _ 1 false (backToFirst .ok ++ [.execute 1 .ok]) rfl (by decide)
  exact ⟨_, rfl, by decide, h.1 (by decide), by decide, h.2 (by decide)⟩

/-- The request for the first version is taken over. -/
theorem not_stuck_backToFirst :
    ∃ s, Run.run step (initial false) (backToFirst .ok ++ [.execute 1 .ok]) = some s ∧
      s.pending = [("model", [⟨⟨"model", 1⟩, .ok⟩])] ∧ ¬ s.Stuck := by
  refine ⟨_, rfl, by decide, ?_⟩
  exact not_stuck_of_run false (backToFirst .ok ++ [.execute 1 .ok]) _ rfl
    ("model", [⟨⟨"model", 1⟩, .ok⟩]) (by decide) (by decide)

/-- After the second version has failed, the request for the first one waits for the only ready
version to go, which the policy keeps. -/
theorem stuck_backToFirst :
    ∃ s, Run.run step (initial false) (backToFirst (.internal "load")) = some s ∧ s.Stuck := by
  refine ⟨_, rfl, by decide, by decide, by decide, 0, ?_⟩
  exact ⟨by decide, by decide, by decide, by decide⟩

end AspiredVersionsManager

end Tension.Serving
