import Tension.Models.Serving.CachingManager

/-!
# The caching manager loads each servable once

A servable that is managed stays managed, so that the basic manager accepts it once, and
only the caller whose call was accepted requests the load. Nothing is ever unloaded: a
servable in the handles map is ready, and its load is over.
-/

namespace Tension.Serving

open LockTable List Option

/-- The task has nothing left to do with its loader. -/
def Stage.loadFinished : Stage → Bool
  | .loaded | .finishing _ | .finished => true
  | .scheduled _ _ | .waiting _ | .loadApproved _ | .loading _ | .unloadApproved _ | .quiesced _
  | .unloading _ => false

theorem Stage.not_owns_of_loadFinished {stage : Stage} (h : stage.loadFinished = true)
    (m : Manager) (r : Ref) : ¬ stage.Owns m r := by
  cases stage <;> first | exact id | cases h

namespace Manager

variable {m m' : Manager} {a : Action}

/-! ## Tasks -/

/-- What a step does to the tasks: it adds one, or one task goes on with its harness or is done
with it. -/
theorem Effect.tasks (he : Effect m a m') : m'.tasks = m.tasks ∨
    (∃ stage, m'.tasks = m.tasks ++ [stage]) ∨
    ∃ i stage stage', m.tasks[i]? = some stage ∧ m'.tasks = m.tasks.set i stage' ∧
      (stage'.loadFinished = true ∨ ∃ r, stage.Owns m r ∧ stage'.Owns m' r) := by
  cases he with
  | known _ | managed _ | kept | dropped _ _ | ignored => exact .inl rfl
  | loadRequested _ _ | unloadRequested _ _ => exact .inr (.inl ⟨_, rfl⟩)
  | rejected hi _ | served hi | finished hi => exact .inr (.inr ⟨_, _, _, hi, rfl, .inl rfl⟩)
  | unreserved hw _ _ _ | loaded hw _ | loadFailed hw _ | unloaded hw =>
    exact .inr (.inr ⟨_, _, _, hw.task, rfl, .inl rfl⟩)
  | waiting hw _ _ | loadApproved hw _ | unloadApproved hw | loading hw | quiesced hw
  | unloading hw => exact .inr (.inr ⟨_, _, _, hw.task, rfl, .inr ⟨_, hw.owns, rfl⟩⟩)

/-- Task `i` works for the servable or is done with it. -/
def WorksFor (m : Manager) (i : Nat) (id : ServableId) : Prop :=
  ∃ stage, m.tasks[i]? = some stage ∧
    (stage.loadFinished = true ∨ ∃ r, stage.Owns m r ∧ (m.harness r).id = id)

variable {id : ServableId}

/-- Tasks go on to work for their servables. -/
theorem Effect.worksFor (he : Effect m a m') (hinv : m.Invariant) {i : Nat}
    (h : m.WorksFor i id) : m'.WorksFor i id := by
  obtain ⟨stage, hi, hstage⟩ := h
  -- what the stage owns is not at rest, so it stays managed
  have hkept : ∀ r, stage.Owns m r → r ∈ m'.managed ∧ (m'.harness r).id = (m.harness r).id := by
    intro r ho
    obtain ⟨hmem, hexpected⟩ := hinv.of_owns hi ho
    obtain ⟨hnew, -, hdisabled, herror⟩ := Stage.expected_ne hexpected
    refine ⟨(he.kept_or_dropped hmem).resolve_right ?_, he.id_eq (hinv.fresh r hmem)⟩
    rintro ⟨-, hstate | hstate | hstate⟩
    · exact hnew hstate
    · exact herror hstate
    · exact hdisabled hstate
  have hsame : m'.tasks[i]? = some stage → m'.WorksFor i id := by
    intro hi'
    refine ⟨stage, hi', ?_⟩
    rcases hstage with hdone | ⟨r, ho, hid⟩
    · exact .inl hdone
    · have hid' := (hkept r ho).2
      exact .inr ⟨r, ho.mono fun _ => hkept r ho, hid'.trans hid⟩
  have hlt : i < m.tasks.length := (List.getElem?_eq_some_iff.mp hi).1
  rcases he.tasks with htasks | ⟨new, htasks⟩ | ⟨j, old, new, hj, htasks, hnew⟩
  · exact hsame (htasks ▸ hi)
  · refine hsame ?_
    rw [htasks, getElem?_append_left hlt]
    exact hi
  · by_cases hij : j = i
    · subst hij
      rw [hi, some.injEq] at hj
      subst hj
      refine ⟨new, by rw [htasks, getElem?_set_self hlt], ?_⟩
      rcases hnew with hdone | ⟨r, ho, ho'⟩
      · exact .inl hdone
      · rcases hstage with hfinished | ⟨r', hr', hid⟩
        · exact absurd ho (Stage.not_owns_of_loadFinished hfinished m r)
        · obtain rfl := ho.unique hinv.unique hr'
          exact .inr ⟨r, ho', (hkept r ho).2.trans hid⟩
    · refine hsame ?_
      rw [htasks, getElem?_set_ne hij]
      exact hi

/-- Entries of versions in a rebuilt handles map refer to their servables. -/
theorem id_of_mem_updateServingMap {r : Ref}
    (h : (.fromId id, r) ∈ m.updateServingMap.handles) : (m.harness r).id = id := by
  obtain ⟨id', hid', hname, hversion⟩ := exists_of_mem_buildHandles h
  rw [mem_sorted, List.mem_map] at hid'
  obtain ⟨r', -, he⟩ := hid'
  obtain ⟨rfl, rfl⟩ := Prod.mk.inj he
  rcases hversion with hsome | hnone
  · obtain ⟨name, version⟩ := id
    obtain rfl : name = (m.harness r').id.name := hname
    obtain rfl : version = (m.harness r').id.version := some.inj hsome
    rfl
  · cases hnone

/-- The outcomes of a request to load. -/
theorem loadServable_cases (m : Manager) (id : ServableId) :
    ((m.loadOrUnloadServable .load id).1.code ≠ .ok ∧
      (m.loadOrUnloadServable .load id).2 = m) ∨
    ∃ r ∈ m.managed, (m.harness r).id = id ∧ (m.harness r).state = .new ∧
      (m.loadOrUnloadServable .load id).1 = .ok ∧
      (m.loadOrUnloadServable .load id).2 = { m.setState r .loadRequested with
        tasks := m.tasks ++ [.scheduled .load id] } := by
  rw [loadOrUnloadServable]
  split
  · next status hstatus =>
    refine .inl ⟨?_, rfl⟩
    rw [getHealthyHarness] at hstatus
    split at hstatus
    · cases hstatus
      exact fun h => by cases h
    · split at hstatus
      · next hbad =>
        cases hstatus
        exact hbad
      · cases hstatus
  · next r hr =>
    obtain ⟨hmem, rfl⟩ := of_getHealthyHarness hr
    by_cases hnew : (m.harness r).state = .new
    · right
      refine ⟨r, hmem, rfl, hnew, ?_⟩
      simp only [LoaderHarness.loadRequested, if_neg (not_not.mpr hnew)]
      exact ⟨rfl, rfl⟩
    · left
      simp only [LoaderHarness.loadRequested, if_pos hnew]
      refine ⟨fun h => (by cases h), ?_⟩
      change m.setHarness r (m.harness r) = m
      rw [setHarness, Function.update_eq_self]

/-! ## The histories of the calls -/

/-- The managers with the histories of accepted and requested servables. -/
structure Loads (m : Manager) (accepted : List ServableId)
    (issued : List (ServableId × Option Nat)) : Prop where
  steady : m.Steady
  accepted_nodup : accepted.Nodup
  accepted_managed : ∀ id ∈ accepted, ∃ r ∈ m.managed, (m.harness r).id = id
  issued_nodup : (issued.map Prod.fst).Nodup
  issued_accepted : ∀ p ∈ issued, p.1 ∈ accepted
  tasks : ∀ id i, (id, some i) ∈ issued → m.WorksFor i id
  started : ∀ r ∈ m.managed, (m.harness r).state = .new ∨ (m.harness r).state = .error ∨
    ∃ i, ((m.harness r).id, some i) ∈ issued
  before : ∀ r ∈ m.managed, (m.harness r).state.BeforeUnload
  entries : ∀ id r, (.fromId id, r) ∈ m.handles → (m.harness r).id = id

theorem loads_initial (tracked : Bool) : (initial tracked).Loads [] [] where
  steady := ⟨invariant_initial tracked, settled_initial tracked⟩
  accepted_nodup := nodup_nil
  accepted_managed := nofun
  issued_nodup := nodup_nil
  issued_accepted := nofun
  tasks := nofun
  started := nofun
  before := nofun
  entries := nofun

variable {accepted : List ServableId} {issued : List (ServableId × Option Nat)}

/-- Entries of the handles map keep referring to their servables. -/
theorem Loads.entries_effect (h : m.Loads accepted issued) (he : Effect m a m') (id : ServableId)
    (r : Ref) (hr : (.fromId id, r) ∈ m'.handles) : (m'.harness r).id = id := by
  rcases he.handles with heq | heq
  · rw [heq] at hr
    rw [he.id_eq (h.steady.invariant.handles_fresh _ r hr)]
    exact h.entries id r hr
  · rw [heq] at hr
    have hmem := (mem_handles_updateServingMap hr).1
    rw [he.id_eq (h.steady.invariant.fresh r hmem)]
    exact id_of_mem_updateServingMap hr

section

variable (h : m.Loads accepted issued) (ha : m.advance a = some m') (hstop : ∀ id, a ≠ .stop id)
include h ha hstop

/-- What managed servables and histories have in common survives every step that drops nothing
and unloads nothing; new harnesses and requests are to be accounted for. -/
theorem Loads.effect (hunload : ∀ id, a ≠ .request .unload id) {accepted' : List ServableId}
    {issued' : List (ServableId × Option Nat)} (hnodup : accepted'.Nodup)
    (hissued : (issued'.map Prod.fst).Nodup)
    (haccepted : ∀ id ∈ accepted', id ∈ accepted ∨ ∃ r ∈ m'.managed, (m'.harness r).id = id)
    (hsub : ∀ p ∈ issued', p.1 ∈ accepted') (hold : ∀ p ∈ issued, p ∈ issued')
    (htasks : ∀ id i, (id, some i) ∈ issued' → (id, some i) ∈ issued ∨ m'.WorksFor i id)
    (hload : ∀ id, a = .request .load id → m' = m ∨ ∃ i, (id, some i) ∈ issued') :
    m'.Loads accepted' issued' := by
  have he := h.steady.invariant.effect ha
  have hfresh := h.steady.invariant.fresh
  refine ⟨h.steady.advance ha, hnodup, ?_, hissued, hsub, ?_, ?_, ?_, h.entries_effect he⟩
  · intro id hid
    rcases haccepted id hid with hid | hid
    · obtain ⟨r, hr, rfl⟩ := h.accepted_managed id hid
      refine ⟨r, (he.kept_or_dropped hr).resolve_right fun hdropped => hstop _ hdropped.1, ?_⟩
      exact he.id_eq (hfresh r hr)
    · exact hid
  · intro id i hi
    rcases htasks id i hi with hi | hi
    · exact he.worksFor h.steady.invariant (h.tasks id i hi)
    · exact hi
  · intro r hr
    rcases he.mem_managed hr with hmem | ⟨rfl, -⟩
    · have hid := he.id_eq (hfresh r hmem)
      rcases h.started r hmem with hnew | herror | ⟨i, hi⟩
      · rcases he.moved (hfresh r hmem) with hsame | hmoved
        · exact .inl (hsame ▸ hnew)
        · rcases hload _ (hmoved.load hnew) with heq | ⟨i, hi⟩
          · exact .inl (heq ▸ hnew)
          · exact .inr (.inr ⟨i, hid ▸ hi⟩)
      · rcases he.moved (hfresh r hmem) with hsame | hmoved
        · exact .inr (.inl (hsame ▸ herror))
        · have htransition := hmoved.transition
          rw [herror] at htransition
          cases htransition
      · exact .inr (.inr ⟨i, hid ▸ hold _ hi⟩)
    · rcases he.state_next h.steady.invariant hr with hnew | herror
      · exact .inl hnew
      · exact .inr (.inl herror)
  · intro r hr
    rcases he.mem_managed hr with hmem | ⟨rfl, -⟩
    · exact he.beforeUnload (hfresh r hmem) (h.before r hmem) (hunload _)
    · rcases he.state_next h.steady.invariant hr with hnew | herror
      · exact .inl hnew
      · exact .inr (.inr (.inr (.inr (.inr herror))))

/-- A step of a task keeps the histories. -/
theorem Loads.advance (hrequest : ∀ kind id, a ≠ .request kind id) : m'.Loads accepted issued :=
  h.effect ha hstop (hrequest .unload) h.accepted_nodup h.issued_nodup (fun _ hid => .inl hid)
    h.issued_accepted (fun _ hp => hp) (fun _ _ hi => .inl hi)
    fun id hid => absurd hid (hrequest .load id)

end

/-- An accepted servable was not managed. -/
theorem Loads.manage (h : m.Loads accepted issued) {status : Status}
    (hok : (m.manageServable id status).1.code = .ok) :
    (m.manageServable id status).2.Loads (accepted ++ [id]) issued ∧ id ∉ accepted := by
  have ha : m.advance (.manage id status) = some (m.manageServable id status).2 := rfl
  have hnone : m.findHarnessInMap id = none := by
    rw [manageServable] at hok
    split at hok
    · cases hok
    · next hnone => exact hnone
  have hfresh : id ∉ accepted := by
    intro hid
    obtain ⟨r, hr, rfl⟩ := h.accepted_managed id hid
    rw [findHarnessInMap_eq h.steady.invariant hr] at hnone
    cases hnone
  refine ⟨?_, hfresh⟩
  refine h.effect ha (by simp) (by simp) ?_ h.issued_nodup ?_ ?_ (fun _ hp => hp)
    (fun _ _ hi => .inl hi)
    (by simp)
  · rw [← concat_eq_append]
    exact h.accepted_nodup.concat hfresh
  · intro id' hid'
    refine (mem_append.mp hid').imp_right fun hnew => ?_
    rw [mem_singleton.mp hnew, manageServable, hnone]
    refine ⟨m.next, mem_append_right _ (mem_singleton_self _), ?_⟩
    simp only [setHarness, Function.update_self]
    split <;> rfl
  · intro p hp
    exact mem_append_left _ (h.issued_accepted p hp)

/-- A servable that is not accepted leaves the managers as they are. -/
theorem manageServable_of_ne_ok {status : Status}
    (h : (m.manageServable id status).1.code ≠ .ok) : (m.manageServable id status).2 = m := by
  rw [manageServable] at h ⊢
  split at h
  · rfl
  · exact absurd rfl h

section

variable (h : m.Loads accepted issued)
include h

/-- The one request of an accepted servable. -/
theorem Loads.request (haccepted : id ∈ accepted) (hissued : id ∉ issued.map Prod.fst)
    {task : Option Nat}
    (htask : task = if (m.loadOrUnloadServable .load id).1.code = .ok then some m.tasks.length
      else none) : (m.loadOrUnloadServable .load id).2.Loads accepted (issued ++ [(id, task)]) := by
  have ha : m.advance (.request .load id) = some (m.loadOrUnloadServable .load id).2 := rfl
  have hnodup : ((issued ++ [(id, task)]).map Prod.fst).Nodup := by
    rw [map_append, map_singleton, ← concat_eq_append]
    exact h.issued_nodup.concat hissued
  have hsub : ∀ p ∈ issued ++ [(id, task)], p.1 ∈ accepted := by
    exact forall_mem_append.mpr ⟨h.issued_accepted, forall_mem_singleton.mpr haccepted⟩
  refine h.effect ha nofun nofun h.accepted_nodup hnodup (fun _ hid => .inl hid) hsub
    (fun _ hp => mem_append_left _ hp) ?_ ?_
  · intro id' i hi
    refine (mem_append.mp hi).imp_right fun hnew => ?_
    obtain ⟨rfl, hsome⟩ := Prod.mk.inj (mem_singleton.mp hnew)
    rcases m.loadServable_cases id' with ⟨hbad, -⟩ | ⟨r, hr, hid, -, -, heq⟩
    · rw [htask, if_neg hbad] at hsome
      cases hsome
    rw [htask] at hsome
    split at hsome
    · cases hsome
      rw [heq]
      refine ⟨.scheduled .load id', getElem?_concat_length, .inr ⟨r, ⟨hr, ?_⟩, ?_⟩⟩
      · exact (update_id (by rfl) r).trans hid
      · exact (update_id (by rfl) r).trans hid
    · cases hsome
  · rintro id' heq
    cases heq
    rcases m.loadServable_cases id with ⟨-, hsame⟩ | ⟨r, hr, hid, -, hok, -⟩
    · exact .inl hsame
    · refine .inr ⟨m.tasks.length, mem_append_right _ (mem_singleton.mpr ?_)⟩
      rw [htask, hok, if_pos Status.code_ok]

/-- The servable is loaded. -/
def Available (m : Manager) (id : ServableId) : Prop :=
  ∃ r ∈ m.managed, (m.harness r).id = id ∧ (m.harness r).state = .ready

/-- A servable that is looked up successfully is ready. -/
theorem Loads.available {r : Ref} (hr : m.getUntypedServableHandle (.fromId id) = .ok r) :
    m.Available id := by
  have hmem := mem_of_getUntypedServableHandle hr
  have hservable := h.steady.invariant.servable _ r hmem
  have hmanaged : r ∈ m.managed := by
    by_contra hunmanaged
    have hrest := h.steady.settled.unmanaged r hunmanaged
    rcases hservable with hs | hs | hs <;> rw [hs] at hrest <;>
      rcases hrest with hrest | hrest | hrest <;> cases hrest
  refine ⟨r, hmanaged, h.entries id r hmem, ?_⟩
  have hbefore := h.before r hmanaged
  rcases hservable with hs | hs | hs
  · exact hs
  · rw [hs] at hbefore
    rcases hbefore with hb | hb | hb | hb | hb | hb <;> cases hb
  · rw [hs] at hbefore
    rcases hbefore with hb | hb | hb | hb | hb | hb <;> cases hb

/-- The load of an available servable is over. -/
theorem Loads.finished (ha : m.Available id) :
    ∃ i stage, (id, some i) ∈ issued ∧ m.tasks[i]? = some stage ∧
      stage.loadFinished = true := by
  obtain ⟨r, hr, rfl, hready⟩ := ha
  rcases h.started r hr with hnew | herror | ⟨i, hi⟩
  · rw [hready] at hnew
    cases hnew
  · rw [hready] at herror
    cases herror
  · obtain ⟨stage, hstage, hdone | ⟨r', ho, hid⟩⟩ := h.tasks _ i hi
    · exact ⟨i, stage, hi, hstage, hdone⟩
    · -- the owner would expect another state
      obtain ⟨hmem', hexpected⟩ := h.steady.invariant.of_owns hstage ho
      obtain rfl := h.steady.invariant.unique r' hmem' r hr hid
      exact absurd hready (Stage.expected_ne hexpected).2.1

end

theorem Available.effect (h : m.Available id) (hsteady : m.Steady)
    (he : Effect m a m') (hunload : ∀ id, a ≠ .request .unload id) : m'.Available id := by
  obtain ⟨r, hr, rfl, hready⟩ := h
  have hlt := hsteady.invariant.fresh r hr
  exact ⟨r, he.mem_of_ready hr hready, he.id_eq hlt, he.ready hlt hready (hunload _)⟩

end Manager

/-! ## Callers -/

namespace CachingManager

variable {s s' : CachingManager}

/-- The pointers of the callers. -/
def pointer (s : CachingManager) (i : Nat) : Option (ServableId × Nat) :=
  s.calls[i]?.bind fun call => call.position.pointer

/-- The sections of the callers. -/
def inside (s : CachingManager) (i : Nat) : Option (ServableId × Nat) :=
  s.calls[i]?.bind fun call => call.position.inside

/-- The invariant of the caching manager. -/
structure Invariant (s : CachingManager) : Prop where
  loads : s.manager.Loads s.accepted s.issued
  sound : Sound s.table s.pointer s.inside
  requesting : ∀ (i : Nat) call id mutex, s.calls[i]? = some call →
    call.position = .requesting id mutex → id ∈ s.accepted ∧ id ∉ s.issued.map Prod.fst
  returned : ∀ call ∈ s.calls, ∀ status, call.position = .returned status → status.code = .ok →
    s.manager.Available call.id

theorem invariant_initial (tracked : Bool) : (initial tracked).Invariant where
  loads := Manager.loads_initial tracked
  sound := sound_empty (fun _ => rfl) fun _ => rfl
  requesting := nofun
  returned := nofun

section Positions

variable {i : Nat} {call : Call} {position : Position}

theorem getElem?_setPosition_self (hi : s.calls[i]? = some call) :
    (s.setPosition i call position).calls[i]? = some { call with position := position } :=
  List.getElem?_set_self (List.getElem?_eq_some_iff.mp hi).1

theorem getElem?_setPosition_ne {j : Nat} (hj : j ≠ i) :
    (s.setPosition i call position).calls[j]? = s.calls[j]? :=
  getElem?_set_ne hj.symm

theorem pointer_of_eq (hi : s.calls[i]? = some call) : s.pointer i = call.position.pointer := by
  rw [pointer, hi]
  rfl

theorem inside_of_eq (hi : s.calls[i]? = some call) : s.inside i = call.position.inside := by
  rw [inside, hi]
  rfl

theorem frame_setPosition : Frame i s.pointer s.inside (s.setPosition i call position).pointer
    (s.setPosition i call position).inside := by
  refine ⟨fun j hj => ?_, fun j hj => ?_⟩
  · rw [pointer, getElem?_setPosition_ne hj]
    rfl
  · rw [inside, getElem?_setPosition_ne hj]
    rfl

theorem pointer_setPosition (hi : s.calls[i]? = some call) :
    (s.setPosition i call position).pointer i = position.pointer :=
  pointer_of_eq (getElem?_setPosition_self hi)

theorem inside_setPosition (hi : s.calls[i]? = some call) :
    (s.setPosition i call position).inside i = position.inside :=
  inside_of_eq (getElem?_setPosition_self hi)

variable (h : s.Invariant) (hi : s.calls[i]? = some call)
include h hi

/-- A caller that keeps or drops what it points to leaves the table sound. -/
theorem Invariant.sound_setPosition
    (hkeep : position.pointer = call.position.pointer ∧ position.inside = call.position.inside ∨
      position.pointer = none ∧ position.inside = none) :
    Sound s.table (s.setPosition i call position).pointer
      (s.setPosition i call position).inside := by
  refine h.sound.stay frame_setPosition ?_ ?_
  · rw [pointer_setPosition hi, inside_setPosition hi, pointer_of_eq hi]
    exact hkeep.imp_left And.left
  · rw [inside_setPosition hi, inside_of_eq hi]
    exact hkeep.imp And.right And.right

/-- A caller moves on; the managers and histories follow their own rules. -/
theorem Invariant.move (hcalls : s'.calls = (s.setPosition i call position).calls)
    (hloads : s'.manager.Loads s'.accepted s'.issued)
    (hsound : Sound s'.table (s.setPosition i call position).pointer
      (s.setPosition i call position).inside) (haccepted : ∀ id ∈ s.accepted, id ∈ s'.accepted)
    (hissued : ∀ (j : Nat) call' id mutex, j ≠ i → s.calls[j]? = some call' →
      call'.position = .requesting id mutex → id ∉ s'.issued.map Prod.fst)
    (havailable : ∀ id, s.manager.Available id → s'.manager.Available id)
    (hrequesting : ∀ id mutex, position = .requesting id mutex →
      id ∈ s'.accepted ∧ id ∉ s'.issued.map Prod.fst)
    (hreturned : ∀ status, position = .returned status → status.code = .ok →
      s'.manager.Available call.id) : s'.Invariant := by
  refine ⟨hloads, ?_, ?_, ?_⟩
  · have hpointer : s'.pointer = (s.setPosition i call position).pointer := by
      funext j
      rw [pointer, pointer, hcalls]
    have hinside : s'.inside = (s.setPosition i call position).inside := by
      funext j
      rw [inside, inside, hcalls]
    rw [hpointer, hinside]
    exact hsound
  · intro j call' id mutex hj hposition
    rw [hcalls] at hj
    by_cases hji : j = i
    · subst hji
      rw [getElem?_setPosition_self hi, some.injEq] at hj
      subst hj
      exact hrequesting id mutex hposition
    · rw [getElem?_setPosition_ne hji] at hj
      exact ⟨haccepted id (h.requesting j call' id mutex hj hposition).1,
        hissued j call' id mutex hji hj hposition⟩
  · intro call' hcall' status hposition hok
    rw [hcalls] at hcall'
    rcases mem_or_eq_of_mem_set hcall' with hmem | rfl
    · exact havailable _ (h.returned call' hmem status hposition hok)
    · exact hreturned status hposition hok

/-- A caller moves on without touching the managers and the histories. -/
theorem Invariant.setPosition {table : Table ServableId Nat}
    (hsound : Sound table (s.setPosition i call position).pointer
      (s.setPosition i call position).inside)
    (hrequesting : ∀ id mutex, position ≠ .requesting id mutex)
    (hreturned : ∀ status, position = .returned status → status.code = .ok →
      s.manager.Available call.id) :
    Invariant { s.setPosition i call position with table := table } :=
  h.move hi rfl h.loads hsound
    (fun _ hid => hid)
    (fun j call' id mutex _ hj hposition => (h.requesting j call' id mutex hj hposition).2)
    (fun _ ha => ha) (fun id mutex hposition => absurd hposition (hrequesting id mutex)) hreturned

/-- A caller that points to no mutex any more moves on. -/
theorem Invariant.drop (hdrop : position.pointer = none ∧ position.inside = none)
    (hrequesting : ∀ id mutex, position ≠ .requesting id mutex)
    (hreturned : ∀ status, position = .returned status → status.code = .ok →
      s.manager.Available call.id) : (s.setPosition i call position).Invariant :=
  h.setPosition hi (h.sound_setPosition hi (.inr hdrop)) hrequesting hreturned

/-- A caller moves on within the section of its mutex. -/
theorem Invariant.remain {old : Position} (hposition : call.position = old)
    (hkeep : position.pointer = old.pointer ∧ position.inside = old.inside)
    (hrequesting : ∀ id mutex, position ≠ .requesting id mutex)
    (hreturned : ∀ status, position ≠ .returned status) :
    (s.setPosition i call position).Invariant :=
  h.setPosition hi (h.sound_setPosition hi (.inl (hposition ▸ hkeep))) hrequesting
    fun status hstatus => absurd hstatus (hreturned status)

end Positions

/-- A lookup that succeeds finds a loaded servable. -/
theorem Invariant.available_of_lookup (h : s.Invariant) {id : ServableId}
    (hok : (s.lookup id).code = .ok) : s.manager.Available id := by
  rw [lookup] at hok
  split at hok
  · next r hr => exact h.loads.available hr
  · next status hstatus =>
    rw [Manager.getUntypedServableHandle] at hstatus
    split at hstatus
    · cases hstatus
      cases hok
    · cases hstatus

/-- Pointers are counted. -/
theorem shared_of_pointer {i : Nat} {x : ServableId × Nat} (h : s.pointer i = some x) :
    s.shared x.2 = true := by
  obtain ⟨call, hcall, hpointer⟩ := bind_eq_some_iff.mp h
  refine any_eq_true.mpr ⟨call, mem_of_getElem? hcall, ?_⟩
  rw [hpointer]
  exact decide_eq_true rfl

section

variable (h : s.Invariant)
include h

/-- The one caller whose servable was accepted requests the load. -/
theorem Invariant.request {i : Nat} {call : Call} {id : ServableId} {mutex : Nat}
    (hi : s.calls[i]? = some call) (hposition : call.position = .requesting id mutex)
    (hs : (if (s.manager.loadOrUnloadServable .load id).1.code ≠ .ok then
      some { s.setPosition i call (.leaving id mutex
        (s.manager.loadOrUnloadServable .load id).1) with
        manager := (s.manager.loadOrUnloadServable .load id).2
        issued := s.issued ++ [(id, none)] }
      else some { s.setPosition i call (.waiting id mutex s.manager.tasks.length) with
        manager := (s.manager.loadOrUnloadServable .load id).2
        issued := s.issued ++ [(id, some s.manager.tasks.length)] }) = some s') : s'.Invariant := by
  obtain ⟨haccepted, hissued⟩ := h.requesting i call id mutex hi hposition
  have ha : s.manager.advance (.request .load id) =
      some (s.manager.loadOrUnloadServable .load id).2 := rfl
  have havailable : ∀ id', s.manager.Available id' →
      (s.manager.loadOrUnloadServable .load id).2.Available id' := fun id' hid' =>
    hid'.effect h.loads.steady (h.loads.steady.invariant.effect ha) nofun
  -- another caller that is about to request the same load would be in the same section
  have hothers : ∀ task (j : Nat) call' id' mutex', j ≠ i → s.calls[j]? = some call' →
      call'.position = .requesting id' mutex' →
      id' ∉ (s.issued ++ [(id, task)]).map Prod.fst := by
    intro task j call' id' mutex' hji hj hposition' hmem
    rw [map_append, mem_append] at hmem
    rcases hmem with hmem | hmem
    · exact (h.requesting j call' id' mutex' hj hposition').2 hmem
    obtain rfl : id' = id := mem_singleton.mp hmem
    have hinside : s.inside i = some (id', mutex) := by
      rw [inside_of_eq hi, hposition]
      rfl
    have hinside' : s.inside j = some (id', mutex') := by
      rw [inside_of_eq hj, hposition']
      rfl
    exact hji (h.sound.exclusive hinside hinside').2.symm
  split at hs
  · next hbad =>
    cases hs
    exact h.move hi rfl (h.loads.request haccepted hissued (if_neg hbad).symm)
      (h.sound_setPosition hi (.inl (by rw [hposition]; exact ⟨rfl, rfl⟩)))
      (fun _ hid => hid) (hothers none) havailable nofun nofun
  · next hok =>
    cases hs
    exact h.move hi rfl (h.loads.request haccepted hissued (if_pos (not_not.mp hok)).symm)
      (h.sound_setPosition hi (.inl (by rw [hposition]; exact ⟨rfl, rfl⟩)))
      (fun _ hid => hid) (hothers _) havailable nofun nofun

section

variable {i : Nat} {call : Call} (hi : s.calls[i]? = some call)
include hi

/-- The caller returns what its lookup finds. -/
theorem Invariant.lookup :
    (s.setPosition i call (.returned (s.lookup call.id))).Invariant := by
  refine h.drop hi ⟨rfl, rfl⟩ nofun fun status hstatus hok => ?_
  cases hstatus
  exact h.available_of_lookup hok

variable {data : ServableData} {mutex : Nat}

/-- The basic manager accepts a servable that it did not have before. -/
theorem Invariant.accept (hposition : call.position = .managing data mutex)
    (hok : (s.manager.manageServable data.id data.status).1.code = .ok) :
    Invariant { s.setPosition i call (.requesting data.id mutex) with
      manager := (s.manager.manageServable data.id data.status).2
      accepted := s.accepted ++ [data.id] } := by
  have ha : s.manager.advance (.manage data.id data.status) =
      some (s.manager.manageServable data.id data.status).2 := rfl
  obtain ⟨hloads, hfresh⟩ := h.loads.manage hok
  refine h.move hi rfl hloads
    (h.sound_setPosition hi (.inl (by rw [hposition]; exact ⟨rfl, rfl⟩)))
    (fun _ hid => mem_append_left _ hid)
    (fun j call' id mutex' _ hj hposition' => (h.requesting j call' id mutex' hj hposition').2)
    (fun id hid => hid.effect h.loads.steady (h.loads.steady.invariant.effect ha) nofun) ?_ nofun
  rintro id mutex' heq
  cases heq
  refine ⟨mem_append_right _ (mem_singleton_self _), fun hmem => ?_⟩
  obtain ⟨p, hp, hid⟩ := mem_map.mp hmem
  exact hfresh (hid ▸ h.loads.issued_accepted p hp)

/-- The mutex is erased if no other caller points to it. -/
theorem Invariant.erase (id : ServableId) :
    Invariant { s.setPosition i call .relooking with table := s.table.erase id s.shared } := by
  have hsound : Sound s.table (s.setPosition i call .relooking).pointer
      (s.setPosition i call .relooking).inside := h.sound_setPosition hi (.inr ⟨rfl, rfl⟩)
  refine h.setPosition hi (hsound.erase fun j x hj => ?_) nofun nofun
  by_cases hji : j = i
  · rw [hji, pointer_setPosition hi] at hj
    cases hj
  · rw [frame_setPosition.pointer j hji] at hj
    exact shared_of_pointer hj

end

/-- Every section of a call keeps the invariant. -/
theorem Invariant.proceed {i : Nat} {call : Call} (hi : s.calls[i]? = some call)
    (hs : s.proceed i call = some s') : s'.Invariant := by
  rw [CachingManager.proceed] at hs
  cases hposition : call.position with
  | looking =>
    simp only [hposition] at hs
    split at hs
    · cases hs
      exact h.lookup hi
    · cases hs
      exact h.drop hi ⟨rfl, rfl⟩ nofun nofun
  | creating =>
    simp only [hposition] at hs
    cases hs
  | entering data =>
    simp only [hposition] at hs
    cases hs
    exact h.setPosition hi (h.sound.intern frame_setPosition (pointer_setPosition hi)
      (inside_setPosition hi)) nofun nofun
  | acquiring data mutex =>
    simp only [hposition] at hs
    obtain ⟨table, htable, rfl⟩ := map_eq_some_iff.mp hs
    have hpointer : s.pointer i = some (data.id, mutex) := by
      rw [pointer_of_eq hi, hposition]
      rfl
    exact h.setPosition hi (h.sound.lock frame_setPosition htable hpointer
      (pointer_setPosition hi) (inside_setPosition hi)) nofun nofun
  | checking data mutex =>
    simp only [hposition] at hs
    split at hs
    · split at hs
      · cases hs
        exact h.remain hi hposition ⟨rfl, rfl⟩ nofun nofun
      · cases hs
        exact h.remain hi hposition ⟨rfl, rfl⟩ nofun nofun
    · cases hs
      exact h.remain hi hposition ⟨rfl, rfl⟩ nofun nofun
  | managing data mutex =>
    simp only [hposition] at hs
    split at hs
    · next hbad =>
      cases hs
      rw [Manager.manageServable_of_ne_ok hbad]
      exact h.remain hi hposition ⟨rfl, rfl⟩ nofun nofun
    · next hok =>
      cases hs
      exact h.accept hi hposition (not_not.mp hok)
  | requesting id mutex =>
    simp only [hposition] at hs
    exact h.request hi hposition hs
  | waiting id mutex task =>
    simp only [hposition] at hs
    obtain ⟨status, -, rfl⟩ := map_eq_some_iff.mp hs
    exact h.remain hi hposition ⟨rfl, rfl⟩ nofun nofun
  | leaving id mutex status =>
    simp only [hposition] at hs
    cases hs
    have hinside : s.inside i = some (id, mutex) := by
      rw [inside_of_eq hi, hposition]
      rfl
    exact h.setPosition hi (h.sound.unlock frame_setPosition hinside (pointer_setPosition hi)
      (inside_setPosition hi)) nofun nofun
  | released id mutex status =>
    simp only [hposition] at hs
    split at hs
    · cases hs
      exact h.drop hi ⟨rfl, rfl⟩ nofun nofun
    · next hbad =>
      cases hs
      refine h.drop hi ⟨rfl, rfl⟩ nofun fun status' hstatus hok => ?_
      cases hstatus
      exact absurd hok hbad
  | erasing id =>
    simp only [hposition] at hs
    cases hs
    exact h.erase hi id
  | relooking =>
    simp only [hposition] at hs
    cases hs
    exact h.lookup hi
  | returned status =>
    simp only [hposition] at hs
    cases hs

/-- A new caller points to no mutex. -/
theorem Invariant.call (id : ServableId) :
    Invariant { s with calls := s.calls ++ [⟨id, .looking⟩] } := by
  have hview : ∀ (f : Call → Option (ServableId × Nat)) (j : Nat), f ⟨id, .looking⟩ = none →
      (s.calls ++ [⟨id, .looking⟩])[j]?.bind f = s.calls[j]?.bind f := by
    intro f j hf
    rcases lt_trichotomy j s.calls.length with hlt | rfl | hgt
    · rw [getElem?_append_left hlt]
    · rw [getElem?_concat_length, getElem?_eq_none le_rfl, bind_some, hf]
      rfl
    · rw [getElem?_eq_none (by simpa using hgt), getElem?_eq_none hgt.le]
  have hold : ∀ call ∈ s.calls ++ [(⟨id, .looking⟩ : Call)], call.position ≠ .looking →
      call ∈ s.calls := by
    intro call hcall hne
    refine (mem_append.mp hcall).resolve_right fun hnew => hne ?_
    rw [mem_singleton.mp hnew]
  refine ⟨h.loads, ?_, ?_, ?_⟩
  · have hpointer : pointer { s with calls := s.calls ++ [⟨id, .looking⟩] } = s.pointer :=
      funext fun j => hview _ j rfl
    have hinside : inside { s with calls := s.calls ++ [⟨id, .looking⟩] } = s.inside :=
      funext fun j => hview _ j rfl
    rw [hpointer, hinside]
    exact h.sound
  · intro i call id' mutex hi hposition
    obtain ⟨j, hj⟩ := getElem?_of_mem (hold call (mem_of_getElem? hi) (by rw [hposition]; nofun))
    exact h.requesting j call id' mutex hj hposition
  · intro call hcall status hposition hok
    exact h.returned call (hold call hcall (by rw [hposition]; nofun)) status hposition hok

/-- A step of a task keeps the invariant. -/
theorem Invariant.task {a : Manager.Action} {i : Nat} (hstop : ∀ id, a ≠ .stop id)
    (hrequest : ∀ kind id, a ≠ .request kind id) (hs : s.task a i = some s') : s'.Invariant := by
  obtain ⟨result, hresult, rfl⟩ := map_eq_some_iff.mp hs
  have ha : s.manager.advance a = some result.2 := by rw [Manager.advance, hresult]; rfl
  have he := h.loads.steady.invariant.effect ha
  exact ⟨h.loads.advance ha hstop hrequest, h.sound, h.requesting, fun call hcall status hp hok =>
    (h.returned call hcall status hp hok).effect h.loads.steady he (hrequest .unload)⟩

/-- Every move keeps the invariant. -/
theorem Invariant.step {a : Move} (hs : s.step a = some s') : s'.Invariant := by
  cases a with
  | call request latest =>
    cases hs
    exact h.call _
  | create i data =>
    rw [CachingManager.step] at hs
    split at hs
    · next call hi =>
      split at hs
      · cases hs
        exact h.drop hi ⟨rfl, rfl⟩ nofun nofun
      · cases hs
    · cases hs
  | proceed i =>
    obtain ⟨call, hi, hs⟩ := bind_eq_some_iff.mp hs
    exact h.proceed hi hs
  | decide i reservation => exact h.task (a := .decide i reservation) nofun nofun hs
  | execute i outcome => exact h.task (a := .execute i outcome) nofun nofun hs

end

/-- Every servable is accepted and requested at most once, a call returns OK only after the load
has finished successfully, and no two callers are in the load section of a servable, in
particular not under different mutexes. -/
structure LoadsOnce (s : CachingManager) : Prop where
  accepted : s.accepted.Nodup
  issued : (s.issued.map Prod.fst).Nodup
  returned : ∀ call ∈ s.calls, ∀ status, call.position = .returned status → status.code = .ok →
    s.manager.Available call.id ∧ ∃ task stage, (call.id, some task) ∈ s.issued ∧
      s.manager.tasks[task]? = some stage ∧ stage.loadFinished = true
  exclusive : ∀ i j id mutex mutex', s.inside i = some (id, mutex) →
    s.inside j = some (id, mutex') → mutex = mutex' ∧ i = j

/-- In every state that a run reaches, each servable has been loaded at most once. -/
theorem loadsOnce_of_run (tracked : Bool) (moves : List Move) (s : CachingManager)
    (hrun : Run.run step (initial tracked) moves = some s) : s.LoadsOnce := by
  have h : s.Invariant := Run.run_invariant (fun _ _ _ hs _ ha => hs.step ha)
    (invariant_initial tracked) (Run.admissible_of_forall (fun _ _ => trivial) _ moves) hrun
  refine ⟨h.loads.accepted_nodup, h.loads.issued_nodup, ?_, fun i j id mutex mutex' =>
    h.sound.exclusive⟩
  intro call hcall status hposition hok
  have havailable := h.returned call hcall status hposition hok
  exact ⟨havailable, h.loads.finished havailable⟩

/-- Two callers ask for one servable at the same time; the second one waits for the mutex, and
the mutex is erased after both are done. -/
def concurrentCalls : List Move :=
  [.call (.latest "model") 7, .call ⟨"model", some 7⟩ 0, .proceed 0, .proceed 1,
    .create 0 ⟨⟨"model", 7⟩, .ok⟩, .create 1 ⟨⟨"model", 7⟩, .ok⟩, .proceed 0, .proceed 1,
    .proceed 0, .proceed 0, .proceed 0, .proceed 0, .decide 0 .reserved, .execute 0 .ok,
    .execute 0 .ok, .execute 0 .ok, .execute 0 .ok, .proceed 0, .proceed 0, .proceed 1,
    .proceed 0, .proceed 0, .proceed 0, .proceed 1, .proceed 1, .proceed 1, .proceed 1,
    .proceed 1]

/-- Both calls return, and the servable was loaded once. -/
theorem loadsOnce_concurrentCalls : ∃ s, Run.run step (initial false) concurrentCalls = some s ∧
      s.calls.map Call.position = [.returned .ok, .returned .ok] ∧
      s.table.entry ⟨"model", 7⟩ = none ∧ s.LoadsOnce := by
  refine ⟨_, rfl, by decide, by decide, ?_⟩
  exact loadsOnce_of_run false concurrentCalls _ rfl

end CachingManager

end Tension.Serving
