import Tension.Models.Serving.AspiredVersions

/-!
# A served name stays served

The policy unloads a version only if no version of the name is aspired or another version
is ready. The marks do not change while an action is on its way, and a ready version stays
ready until its own unload is requested. So a name that is served and has an aspired
version keeps a ready version, and every rebuilt handles map has an entry for its latest
version.
-/

namespace Tension.Serving

open List Option Function

/-! ## What the policy answers -/

namespace AvailabilityPreservingPolicy

variable {versions : List AspiredServableStateSnapshot} {id : ServableId}

theorem foldl_lower_mem (v : AspiredServableStateSnapshot) :
    versions.foldl lower v ∈ v :: versions := by
  induction versions generalizing v with
  | nil => exact mem_singleton_self v
  | cons w versions ih =>
    rw [foldl_cons]
    rcases mem_cons.mp (ih (lower v w)) with heq | hmem
    · rw [heq, lower]
      split
      · exact mem_cons_of_mem _ mem_cons_self
      · exact mem_cons_self
    · exact mem_cons_of_mem _ (mem_cons_of_mem _ hmem)

/-- The lowest version is one of the versions. -/
theorem exists_of_getLowestServableId (h : getLowestServableId versions = some id) :
    ∃ v ∈ versions, v.id = id := by
  cases versions with
  | nil => cases h
  | cons v versions => exact ⟨_, foldl_lower_mem v, some.inj h⟩

theorem getLowestServableId_isSome (h : versions ≠ []) : (getLowestServableId versions).isSome := by
  cases versions with
  | nil => exact absurd rfl h
  | cons v versions => rfl

/-- The loop stays at its start or ends at a new aspired version. -/
theorem foldl_higher_eq {start : Option ServableId} (h : versions.foldl higher start = some id) :
    start = some id ∨ ∃ v ∈ versions, v.id = id ∧ v.isAspired = true ∧ v.state = .new := by
  induction versions generalizing start with
  | nil => exact .inl h
  | cons w versions ih =>
    rcases ih h with hstart | ⟨v, hmem, hv⟩
    · rw [higher.eq_def] at hstart
      split at hstart
      · next hw =>
        have hcases : start = some id ∨ w.id = id := by
          cases start with
          | none => exact .inr (some.inj hstart)
          | some old =>
            dsimp only at hstart
            split at hstart
            · exact .inr (some.inj hstart)
            · exact .inl hstart
        rcases hcases with hold | hid
        · exact .inl hold
        · exact .inr ⟨w, mem_cons_self, hid, hw⟩
      · exact .inl hstart
    · exact .inr ⟨v, mem_cons_of_mem _ hmem, hv⟩

theorem higher_isSome {start : Option ServableId} {v : AspiredServableStateSnapshot}
    (h : start.isSome ∨ v.isAspired = true ∧ v.state = .new) : (higher start v).isSome := by
  rw [higher.eq_def]
  split
  · cases start with
    | none => rfl
    | some old =>
      dsimp only
      split <;> rfl
  · next hv => exact h.resolve_right hv

theorem foldl_higher_isSome {start : Option ServableId} (h : start.isSome ∨
    ∃ v ∈ versions, v.isAspired = true ∧ v.state = .new) :
    (versions.foldl higher start).isSome := by
  induction versions generalizing start with
  | nil => exact h.resolve_right fun ⟨_, hmem, _⟩ => by cases hmem
  | cons w versions ih =>
    refine ih ?_
    rcases h with hstart | ⟨v, hmem, hv⟩
    · exact .inl (higher_isSome (.inl hstart))
    · rcases mem_cons.mp hmem with rfl | hmem
      · exact .inl (higher_isSome (.inr hv))
      · exact .inr ⟨v, hmem, hv⟩

theorem mem_unaspiredServing {v : AspiredServableStateSnapshot} :
    v ∈ unaspiredServing versions ↔ v ∈ versions ∧ v.isAspired = false ∧ v.state = .ready := by
  simp [unaspiredServing]

/-- Of several versions with different ids one is not the given one. -/
theorem exists_ne_of_one_lt_length (hnodup : (versions.map fun v => v.id).Nodup)
    (h : 1 < versions.length) (id : ServableId) : ∃ w ∈ versions, w.id ≠ id := by
  match versions, h with
  | a :: b :: rest, _ =>
    have hab : a.id ≠ b.id := by
      intro heq
      rw [map_cons, heq] at hnodup
      exact (nodup_cons.mp hnodup).1 mem_cons_self
    by_cases ha : a.id = id
    · exact ⟨b, mem_cons_of_mem _ mem_cons_self, fun hb => hab (ha.trans hb.symm)⟩
    · exact ⟨a, mem_cons_self, ha⟩

/-- The policy unloads a ready version that is not aspired, and only if no version is aspired
or another version is ready. -/
theorem getNextAction_unload (hnodup : (versions.map fun v => v.id).Nodup)
    (h : getNextAction versions = some ⟨.unload, id⟩) :
    (∃ v ∈ versions, v.id = id ∧ v.isAspired = false ∧ v.state = .ready) ∧
      ((∀ w ∈ versions, w.isAspired = false) ∨
        ∃ w ∈ versions, w.id ≠ id ∧ w.state = .ready) := by
  have hunload : versionToUnload versions = some id := by
    rw [getNextAction] at h
    split at h
    · next id' hid =>
      cases h
      exact hid
    · split at h <;> cases h
  rw [versionToUnload] at hunload
  split at hunload
  · next hcond =>
    obtain ⟨v, hv, hid⟩ := exists_of_getLowestServableId hunload
    obtain ⟨hmem, hunaspired, hready⟩ := mem_unaspiredServing.mp hv
    refine ⟨⟨v, hmem, hid, hunaspired, hready⟩, ?_⟩
    rw [Bool.or_eq_true, Bool.or_eq_true] at hcond
    rcases hcond with (hnone | haspired) | hmany
    · left
      intro w hw
      rw [Bool.not_eq_true', List.any_eq_false] at hnone
      exact Bool.eq_false_iff.mpr (hnone w hw)
    · right
      obtain ⟨w, hw, hserving⟩ := any_eq_true.mp haspired
      rw [Bool.and_eq_true, beq_iff_eq] at hserving
      refine ⟨w, hw, fun hwid => ?_, hserving.2⟩
      have hwv : w = v := inj_on_of_nodup_map hnodup hw hmem (hwid.trans hid.symm)
      rw [hwv, hunaspired] at hserving
      cases hserving.1
    · right
      have hsub : ((unaspiredServing versions).map fun v => v.id).Nodup :=
        hnodup.sublist (filter_sublist.map _)
      obtain ⟨w, hw, hne⟩ := exists_ne_of_one_lt_length hsub (of_decide_eq_true hmany) id
      obtain ⟨hwmem, -, hwready⟩ := mem_unaspiredServing.mp hw
      exact ⟨w, hwmem, hne, hwready⟩
  · cases hunload

/-- The policy loads a new version that is aspired. -/
theorem getNextAction_load (h : getNextAction versions = some ⟨.load, id⟩) :
    ∃ v ∈ versions, v.id = id ∧ v.isAspired = true ∧ v.state = .new := by
  rw [getNextAction] at h
  split at h
  · cases h
  · split at h
    · next id' hid =>
      cases h
      exact (foldl_higher_eq hid).resolve_left nofun
    · cases h

end AvailabilityPreservingPolicy

/-! ## Coherence of the thread with the managers -/

/-- The invariants of the basic manager. -/
structure Manager.Steady (m : Manager) : Prop where
  invariant : m.Invariant
  settled : m.Settled

theorem Manager.Steady.advance {m m' : Manager} {a : Manager.Action} (h : m.Steady)
    (ha : m.advance a = some m') : m'.Steady :=
  ⟨h.invariant.step ha, (h.invariant.effect ha).settled h.invariant h.settled⟩

/-- The servables that the thread is about to stop managing. -/
def Thread.stopping : Thread → List ServableId
  | .flushing _ ids => ids
  | .idle | .choosing _ _ | .performing _ => []

/-- The actions that the thread has got from the policy. -/
def Thread.actions : Thread → List (Option ServableAction)
  | .choosing _ actions => actions
  | .performing a => [some a]
  | .idle | .flushing _ _ => []

/-- The front of the sorted actions is one of them. -/
theorem mem_of_firstAction {pick : Nat} {actions : List (Option ServableAction)}
    {a : ServableAction} (h : firstAction pick actions = some a) : some a ∈ actions := by
  obtain ⟨x, hx, hxa⟩ := bind_eq_some_iff.mp h
  obtain rfl : x = some a := hxa
  exact mem_of_mem_filter (mem_of_getElem? hx)

namespace AspiredVersionsManager

variable {s s' : AspiredVersionsManager}

/-- No managed servable with the id is marked. -/
def Unaspired (s : AspiredVersionsManager) (id : ServableId) : Prop :=
  ∀ r ∈ s.manager.managed, (s.manager.harness r).id = id → s.isAspired r = false

/-- Some managed servable with the id is marked. -/
def Aspired (s : AspiredVersionsManager) (id : ServableId) : Prop :=
  ∃ r ∈ s.manager.managed, (s.manager.harness r).id = id ∧ s.isAspired r = true

/-- The version may be unloaded: no version of its name is marked or another one is ready. -/
def Spared (s : AspiredVersionsManager) (id : ServableId) : Prop :=
  (∀ r ∈ s.manager.managed, (s.manager.harness r).id.name = id.name → s.isAspired r = false) ∨
    ∃ r ∈ s.manager.managed, (s.manager.harness r).id.name = id.name ∧
      (s.manager.harness r).id ≠ id ∧ (s.manager.harness r).state = .ready

/-- The invariant of the thread. -/
structure Coherent (s : AspiredVersionsManager) : Prop where
  steady : s.manager.Steady
  named : ∀ p ∈ s.pending, ∀ v ∈ p.2, v.id.name = p.1
  stopping : ∀ id ∈ s.thread.stopping, s.Unaspired id
  unloads : ∀ id, some ⟨.unload, id⟩ ∈ s.thread.actions → s.Unaspired id ∧ s.Spared id

theorem coherent_initial (tracked : Bool) : (initial tracked).Coherent where
  steady := ⟨Manager.invariant_initial tracked, Manager.settled_initial tracked⟩
  named := nofun
  stopping := nofun
  unloads := nofun

variable {name : String} {id : ServableId} {a : Manager.Action} {P : AspiredVersionsManager → Prop}

theorem mem_snapshots {v : AspiredServableStateSnapshot} :
    v ∈ s.snapshots name ↔ ∃ r ∈ s.manager.managed, (s.manager.harness r).id.name = name ∧
      v = ⟨(s.manager.harness r).id, (s.manager.harness r).state, s.isAspired r⟩ := by
  simp only [snapshots, List.mem_map, List.mem_filter, decide_eq_true_eq, and_assoc]
  constructor
  · rintro ⟨r, hr, hname, rfl⟩
    exact ⟨r, hr, hname, rfl⟩
  · rintro ⟨r, hr, hname, rfl⟩
    exact ⟨r, hr, hname, rfl⟩

/-- The snapshot of a managed servable of the name. -/
theorem snapshot_mem {r : Ref} (hr : r ∈ s.manager.managed)
    (hname : (s.manager.harness r).id.name = name) :
    ⟨(s.manager.harness r).id, (s.manager.harness r).state, s.isAspired r⟩ ∈ s.snapshots name :=
  mem_snapshots.mpr ⟨r, hr, hname, rfl⟩

theorem nodup_snapshots (h : s.manager.Steady) (name : String) :
    ((s.snapshots name).map fun v => v.id).Nodup := by
  rw [snapshots, List.map_map]
  refine List.Nodup.map_on ?_ (h.settled.nodup.filter _)
  intro r hr r' hr' heq
  exact h.invariant.unique r (mem_of_mem_filter hr) r' (mem_of_mem_filter hr') heq

/-- What the policy wants to unload is not marked and may go. -/
theorem spared_of_policyAction (h : s.manager.Steady)
    (ha : s.policyAction name = some ⟨.unload, id⟩) : s.Unaspired id ∧ s.Spared id := by
  obtain ⟨⟨v, hv, hid, hunaspired, -⟩, hspared⟩ :=
    AvailabilityPreservingPolicy.getNextAction_unload (nodup_snapshots h name) ha
  obtain ⟨r, hr, hname, rfl⟩ := mem_snapshots.mp hv
  have hidname : id.name = name := by rw [← hid, hname]
  refine ⟨fun r' hr' hid' => ?_, ?_⟩
  · rw [h.invariant.unique r' hr' r hr (hid'.trans hid.symm)]
    exact hunaspired
  · rcases hspared with hall | ⟨w, hw, hne, hready⟩
    · left
      intro r' hr' hname'
      exact hall _ (snapshot_mem hr' (hname'.trans hidname))
    · right
      obtain ⟨r', hr', hname', rfl⟩ := mem_snapshots.mp hw
      exact ⟨r', hr', hname'.trans hidname.symm, hne, hready⟩

/-- A step of the basic manager that takes no harness into the map, keeps the marks. -/
theorem Unaspired.effect (h : s.Unaspired id)
    (hsteady : s.manager.Steady) (he : s.manager.Effect a s'.manager)
    (ha : ∀ id status, a ≠ .manage id status) (hmarks : s'.isAspired = s.isAspired) :
    s'.Unaspired id := by
  intro r hr hid
  rcases he.mem_managed hr with hmem | ⟨-, id', status, heq⟩
  · rw [he.id_eq (hsteady.invariant.fresh r hmem)] at hid
    rw [hmarks]
    exact h r hmem hid
  · exact absurd heq (ha id' status)

/-- A task step keeps what may be unloaded. -/
theorem Spared.effect (h : s.Spared id)
    (hsteady : s.manager.Steady) (he : s.manager.Effect a s'.manager)
    (ha : ∀ id status, a ≠ .manage id status) (hrequest : ∀ id, a ≠ .request .unload id)
    (hstop : ∀ id, a ≠ .stop id) (hmarks : s'.isAspired = s.isAspired) : s'.Spared id := by
  rcases h with hall | ⟨r, hr, hname, hne, hready⟩
  · left
    intro r hr hname
    rcases he.mem_managed hr with hmem | ⟨-, id', status, heq⟩
    · rw [he.id_eq (hsteady.invariant.fresh r hmem)] at hname
      rw [hmarks]
      exact hall r hmem hname
    · exact absurd heq (ha id' status)
  · right
    have hlt := hsteady.invariant.fresh r hr
    have hmem : r ∈ s'.manager.managed :=
      (he.kept_or_dropped hr).resolve_right fun hdropped => hstop _ hdropped.1
    refine ⟨r, hmem, ?_, ?_, he.ready hlt hready (hrequest _)⟩
    · rw [he.id_eq hlt]
      exact hname
    · rw [he.id_eq hlt]
      exact hne

/-! ## Taking over requests -/

/-- Only a mark changes. -/
theorem unaspire_eq (s : AspiredVersionsManager) (id : ServableId) :
    ∃ marks, s.unaspire id = { s with isAspired := marks } := by
  rw [unaspire]
  split
  · exact ⟨_, rfl⟩
  · exact ⟨_, rfl⟩

/-- Only the mark of the named servable is cleared. -/
theorem isAspired_unaspire (h : s.manager.Steady) {r : Ref} (hr : r ∈ s.manager.managed) :
    (s.unaspire id).isAspired r = true ↔ s.isAspired r = true ∧ (s.manager.harness r).id ≠ id := by
  rw [unaspire]
  split
  · next hnone =>
    have hne : (s.manager.harness r).id ≠ id :=
      fun heq => find?_eq_none.mp hnone r hr (decide_eq_true heq)
    exact (and_iff_left hne).symm
  · next r' hfind =>
    obtain ⟨hr', hid⟩ := Manager.of_findHarnessInMap hfind
    dsimp only
    by_cases heq : r = r'
    · rw [heq, update_self]
      exact ⟨nofun, fun hmark => absurd hid hmark.2⟩
    · rw [update_of_ne heq]
      refine (and_iff_left fun hid' => heq ?_).symm
      exact h.invariant.unique r hr r' hr' (hid'.trans hid.symm)

/-- The first loop only changes marks. -/
theorem unaspireOthers_eq (s : AspiredVersionsManager) (next : List Int)
    (versions : List AspiredServableStateSnapshot) :
    ∃ marks, s.unaspireOthers next versions = { s with isAspired := marks } := by
  induction versions generalizing s with
  | nil => exact ⟨_, rfl⟩
  | cons v versions ih =>
    rw [unaspireOthers, foldl_cons]
    split
    · exact ih s
    · obtain ⟨marks, heq⟩ := unaspire_eq s v.id
      rw [heq]
      exact ih { s with isAspired := marks }

/-- Induction over the last loop. -/
theorem manageAdditions_induction {additions : List Int}
    {versions : List ServableData} (hstep : ∀ s, ∀ v ∈ versions, P s → P (s.manageAspired v))
    (hs : P s) : P (s.manageAdditions additions versions) := by
  induction versions generalizing s with
  | nil => exact hs
  | cons v versions ih =>
    rw [manageAdditions, foldl_cons]
    refine ih (fun s w hw => hstep s w (mem_cons_of_mem _ hw)) ?_
    split
    · exact hstep s v mem_cons_self hs
    · exact hs

@[simp] theorem manager_unaspireOthers (s : AspiredVersionsManager) (next : List Int)
    (versions : List AspiredServableStateSnapshot) :
    (s.unaspireOthers next versions).manager = s.manager := by
  obtain ⟨marks, heq⟩ := unaspireOthers_eq s next versions
  rw [heq]

theorem steady_manageAspired (h : s.manager.Steady) (v : ServableData) :
    (s.manageAspired v).manager.Steady :=
  h.advance (a := .manage v.id v.status) rfl

/-- The first loop keeps the marks of the versions that are in the request or not listed. -/
theorem isAspired_unaspireOthers (h : s.manager.Steady) {r : Ref} (hr : r ∈ s.manager.managed)
    (next : List Int) (versions : List AspiredServableStateSnapshot) :
    (s.unaspireOthers next versions).isAspired r = true ↔ s.isAspired r = true ∧
      ∀ v ∈ versions, (s.manager.harness r).id = v.id → v.id.version ∈ next := by
  induction versions generalizing s with
  | nil => simp [unaspireOthers]
  | cons v versions ih =>
    rw [unaspireOthers, foldl_cons, forall_mem_cons]
    split
    · next hv =>
      rw [and_iff_right fun _ => hv]
      exact ih h hr
    · next hv =>
      have hmanager : (s.unaspire v.id).manager = s.manager := by
        obtain ⟨marks, heq⟩ := unaspire_eq s v.id
        rw [heq]
      have hrest := ih (hmanager ▸ h) (hmanager ▸ hr)
      rw [isAspired_unaspire h hr, hmanager, and_assoc] at hrest
      rw [imp_iff_not hv]
      exact hrest

/-- What managing more servables does: the managed ones stay, with the marks `mark`, and every
other one is a new, marked version of the request. -/
structure Adopts (s : AspiredVersionsManager) (mark : Ref → Prop) (versions : List ServableData)
    (t : AspiredVersionsManager) : Prop where
  steady : t.manager.Steady
  handles : t.manager.handles = s.manager.handles
  tasks : t.manager.tasks = s.manager.tasks
  next : s.manager.next ≤ t.manager.next
  kept : ∀ r ∈ s.manager.managed, r ∈ t.manager.managed ∧
    t.manager.harness r = s.manager.harness r ∧ (t.isAspired r = true ↔ mark r)
  added : ∀ r ∈ t.manager.managed, r ∈ s.manager.managed ∨
    s.manager.next ≤ r ∧ t.isAspired r = true ∧
      ((t.manager.harness r).state = .new ∨ (t.manager.harness r).state = .error) ∧
      ∃ v ∈ versions, (t.manager.harness r).id = v.id

variable {t u : AspiredVersionsManager} {mark : Ref → Prop} {versions : List ServableData}
  {v : ServableData}

theorem Adopts.trans (h : s.Adopts mark versions t)
    (h' : t.Adopts (fun r => t.isAspired r = true) versions u) : s.Adopts mark versions u where
  steady := h'.steady
  handles := h'.handles.trans h.handles
  tasks := h'.tasks.trans h.tasks
  next := h.next.trans h'.next
  kept r hr := by
    obtain ⟨hmem, hharness, hmark⟩ := h.kept r hr
    obtain ⟨hmem', hharness', hmark'⟩ := h'.kept r hmem
    exact ⟨hmem', hharness'.trans hharness, hmark'.trans hmark⟩
  added r hr := by
    rcases h'.added r hr with hmem | ⟨hle, hnew⟩
    · refine (h.added r hmem).imp_right fun ⟨hle, hnew⟩ => ?_
      obtain ⟨-, hharness, hmark⟩ := h'.kept r hmem
      rw [hharness]
      exact ⟨hle, hmark.mpr hnew.1, hnew.2⟩
    · exact .inr ⟨h.next.trans hle, hnew⟩

/-- A marked version of the request stays managed and marked. -/
theorem Adopts.aspired (h : t.Adopts (fun r => t.isAspired r = true) versions u)
    (ht : t.Aspired id) : u.Aspired id := by
  obtain ⟨r, hr, hid, haspired⟩ := ht
  obtain ⟨hmem, hharness, hmark⟩ := h.kept r hr
  exact ⟨r, hmem, hharness ▸ hid, hmark.mpr haspired⟩

/-- A call for a managed servable fails and changes nothing. -/
theorem manageAspired_of_some {r : Ref} (h : s.manager.findHarnessInMap v.id = some r) :
    s.manageAspired v = s := by
  rw [manageAspired, Manager.manageServable, h]
  rfl

/-- A call for another servable manages a new harness and marks it. -/
theorem manageAspired_of_none (h : s.manager.findHarnessInMap v.id = none) :
    ∃ x : LoaderHarness, x.id = v.id ∧ (x.state = .new ∨ x.state = .error) ∧
      s.manageAspired v = { s with
        manager := { s.manager.setHarness s.manager.next x with
          next := s.manager.next + 1, managed := s.manager.managed ++ [s.manager.next] }
        isAspired := Function.update s.isAspired s.manager.next true } := by
  refine ⟨if v.status.code ≠ .ok then (LoaderHarness.create v.id).error v.status
    else LoaderHarness.create v.id, ?_, ?_, ?_⟩
  · split <;> rfl
  · split
    · exact .inr rfl
    · exact .inl rfl
  · rw [manageAspired, Manager.manageServable, h]
    rfl

section

variable (hsteady : s.manager.Steady)
include hsteady

theorem adopts_of_none (h : s.manager.findHarnessInMap v.id = none) (hv : v ∈ versions) :
    s.Adopts (fun r => s.isAspired r = true) versions (s.manageAspired v) ∧
      (s.manageAspired v).Aspired v.id := by
  have hsteady' := steady_manageAspired hsteady v
  obtain ⟨x, hid, hstate, heq⟩ := manageAspired_of_none h
  rw [heq] at hsteady' ⊢
  have hself := update_self s.manager.next x s.manager.harness
  have hne : ∀ r ∈ s.manager.managed, r ≠ s.manager.next :=
    fun r hr => (hsteady.invariant.fresh r hr).ne
  refine ⟨⟨hsteady', rfl, rfl, Nat.le_succ _, fun r hr => ⟨mem_append_left _ hr, ?_, ?_⟩,
    fun r hr => ?_⟩, ?_⟩
  · exact update_of_ne (hne r hr) _ _
  · exact iff_of_eq (congrArg (· = true) (update_of_ne (hne r hr) _ _))
  · refine (mem_append.mp hr).imp_right fun hr => ?_
    obtain rfl := mem_singleton.mp hr
    simp only [Manager.setHarness, hself]
    exact ⟨le_rfl, update_self _ _ _, hstate, v, hv, hid⟩
  · refine ⟨s.manager.next, mem_append_right _ (mem_singleton_self _), ?_, ?_⟩
    · simp only [Manager.setHarness, hself]
      exact hid
    · exact update_self _ _ _

theorem adopts_manageAspired (hv : v ∈ versions) :
    s.Adopts (fun r => s.isAspired r = true) versions (s.manageAspired v) := by
  cases h : s.manager.findHarnessInMap v.id with
  | none => exact (adopts_of_none hsteady h hv).1
  | some r =>
    rw [manageAspired_of_some h]
    exact ⟨hsteady, rfl, rfl, le_rfl, fun r hr => ⟨hr, rfl, Iff.rfl⟩, fun r hr => .inl hr⟩

/-- The loop over the additions adopts them. -/
theorem adopts_manageAdditions (additions : List Int) (versions : List ServableData) :
    s.Adopts (fun r => s.isAspired r = true) versions (s.manageAdditions additions versions) :=
  manageAdditions_induction
    (fun _ _ hv ht => ht.trans (adopts_manageAspired ht.steady hv))
    ⟨hsteady, rfl, rfl, le_rfl, fun _ hr => ⟨hr, rfl, Iff.rfl⟩, fun _ hr => .inl hr⟩

/-- An addition of which no unmarked version is managed is managed and marked in the end. -/
theorem aspired_manageAdditions {additions : List Int} (hv : v ∈ versions)
    (hadd : v.id.version ∈ additions)
    (h : ∀ r ∈ s.manager.managed, (s.manager.harness r).id = v.id → s.isAspired r = true) :
    (s.manageAdditions additions versions).Aspired v.id := by
  obtain ⟨before, after, rfl⟩ := append_of_mem hv
  have hsplit : s.manageAdditions additions (before ++ v :: after) =
      ((s.manageAdditions additions before).manageAspired v).manageAdditions additions after := by
    rw [manageAdditions, foldl_append, foldl_cons, if_pos hadd]
    rfl
  have hbefore := adopts_manageAdditions hsteady additions before
  rw [hsplit]
  generalize s.manageAdditions additions before = t at hbefore
  refine (adopts_manageAdditions (steady_manageAspired hbefore.steady v) _ _).aspired ?_
  cases hfind : t.manager.findHarnessInMap v.id with
  | none => exact (adopts_of_none hbefore.steady hfind hv).2
  | some r =>
    -- the call fails, and the servable that is in its way is marked
    obtain ⟨hr, hid⟩ := Manager.of_findHarnessInMap hfind
    rw [manageAspired_of_some hfind]
    refine ⟨r, hr, hid, ?_⟩
    rcases hbefore.added r hr with hold | ⟨-, haspired, -⟩
    · obtain ⟨-, hharness, hmark⟩ := hbefore.kept r hold
      exact hmark.mpr (h r hold (hharness ▸ hid))
    · exact haspired

/-- Taking over a request clears the marks of the versions of its name that it does not list. -/
theorem adopts_process (name : String) (versions : List ServableData) :
    s.Adopts (fun r => s.isAspired r = true ∧ ((s.manager.harness r).id.name = name →
        (s.manager.harness r).id.version ∈ getVersionNumbers versions)) versions
      (s.processAspiredVersionsRequest name versions) := by
  have hmanager := manager_unaspireOthers s (getVersionNumbers versions) (s.snapshots name)
  refine Adopts.trans
    ⟨hmanager ▸ hsteady, congrArg _ hmanager, congrArg _ hmanager, hmanager ▸ le_rfl,
      fun r hr => ?_,
      fun r hr => .inl (hmanager ▸ hr)⟩
    (adopts_manageAdditions (hmanager ▸ hsteady) _ _)
  rw [hmanager, isAspired_unaspireOthers hsteady hr]
  refine ⟨hr, rfl, and_congr_right fun _ => ⟨fun h hname => ?_, fun h v hv hid => ?_⟩⟩
  · exact h _ (snapshot_mem hr hname) rfl
  · obtain ⟨r', -, hname, rfl⟩ := mem_snapshots.mp hv
    rw [← hid]
    exact h ((congrArg ServableId.name hid).trans hname)

/-- Every version of a request without re-aspired versions is managed and marked in the end: it
keeps its mark or is added. -/
theorem aspired_process (hv : v ∈ versions) (hname : v.id.name = name)
    (hcontains : s.containsAnyReaspiredVersions name versions = false) :
    (s.processAspiredVersionsRequest name versions).Aspired v.id := by
  have hnext : v.id.version ∈ getVersionNumbers versions := mem_map_of_mem hv
  have haspired : ∀ r ∈ s.manager.managed, (s.manager.harness r).id = v.id →
      s.isAspired r = true := by
    intro r hr hid
    have hnot := any_eq_false.mp hcontains _
      (snapshot_mem hr ((congrArg ServableId.name hid).trans hname))
    rw [Bool.and_eq_true, not_and, hid, decide_eq_true_eq] at hnot
    exact Bool.eq_true_of_not_eq_false fun hfalse => hnot (by rw [hfalse]; rfl) hnext
  by_cases hmanaged : ∃ r ∈ s.manager.managed, (s.manager.harness r).id = v.id
  · obtain ⟨r, hr, hid⟩ := hmanaged
    obtain ⟨hmem, hharness, hmark⟩ := (adopts_process hsteady name versions).kept r hr
    refine ⟨r, hmem, hharness ▸ hid, hmark.mpr ⟨haspired r hr hid, fun _ => ?_⟩⟩
    rw [hid]
    exact hnext
  · have hmanager := manager_unaspireOthers s (getVersionNumbers versions) (s.snapshots name)
    refine aspired_manageAdditions (hmanager ▸ hsteady) hv
      (mem_filter.mpr ⟨hnext, decide_eq_true fun hcurrent => hmanaged ?_⟩)
      fun r hr hid => absurd ⟨r, hmanager ▸ hr, hmanager ▸ hid⟩ hmanaged
    obtain ⟨w, hw, hversion⟩ := mem_map.mp hcurrent
    obtain ⟨r, hr, hrname, rfl⟩ := mem_snapshots.mp (mem_of_mem_filter hw)
    exact ⟨r, hr, congrArg₂ ServableId.mk (hrname.trans hname.symm) hversion⟩

end

/-- What taking over a request leaves alone. -/
theorem pending_processAspiredVersionsRequest (s : AspiredVersionsManager) (name : String)
    (versions : List ServableData) :
    (s.processAspiredVersionsRequest name versions).pending = s.pending ∧
      (s.processAspiredVersionsRequest name versions).thread = s.thread := by
  refine manageAdditions_induction (P := fun t => t.pending = s.pending ∧ t.thread = s.thread)
    (fun t v _ ht => ht) ?_
  obtain ⟨marks, heq⟩ := unaspireOthers_eq s (getVersionNumbers versions) (s.snapshots name)
  rw [heq]
  exact ⟨rfl, rfl⟩

theorem steady_processAspiredVersionsRequest (h : s.manager.Steady) (name : String)
    (versions : List ServableData) :
    (s.processAspiredVersionsRequest name versions).manager.Steady :=
  (adopts_process h name versions).steady

/-- Induction over the loop of the pending requests, in which the manager stays steady. -/
theorem handleRequests_induction {l : List (String × List ServableData)}
    (hsteady : s.manager.Steady)
    (hkeep : ∀ s, ∀ p ∈ l, P s → P { s with pending := s.pending ++ [p] })
    (hprocess : ∀ s, ∀ p ∈ l, s.manager.Steady →
      s.containsAnyReaspiredVersions p.1 p.2 = false → P s →
      P (s.processAspiredVersionsRequest p.1 p.2)) (hs : P s) :
    (s.handleRequests l).manager.Steady ∧ P (s.handleRequests l) := by
  induction l generalizing s with
  | nil => exact ⟨hsteady, hs⟩
  | cons p l ih =>
    have ih' : ∀ {s : AspiredVersionsManager}, s.manager.Steady → P s →
        (s.handleRequests l).manager.Steady ∧ P (s.handleRequests l) := fun h =>
      ih h (fun s q hq => hkeep s q (mem_cons_of_mem _ hq))
        (fun s q hq => hprocess s q (mem_cons_of_mem _ hq))
    rw [handleRequests]
    split
    · exact ih' hsteady (hkeep s p mem_cons_self hs)
    · next hp =>
      exact ih' (steady_processAspiredVersionsRequest hsteady _ _)
        (hprocess s p mem_cons_self hsteady (Bool.eq_false_iff.mpr hp) hs)

/-- What the loop leaves pending of the requests, in their order. The thread stays where it is. -/
theorem exists_pending_handleRequests (s : AspiredVersionsManager)
    (ps : List (String × List ServableData)) :
    ∃ rest, rest.Sublist ps ∧ (s.handleRequests ps).pending = s.pending ++ rest ∧
      (s.handleRequests ps).thread = s.thread := by
  induction ps generalizing s with
  | nil => exact ⟨[], .slnil, (append_nil _).symm, rfl⟩
  | cons p ps ih =>
    rw [handleRequests]
    split
    · obtain ⟨rest, hrest, heq, hthread⟩ := ih { s with pending := s.pending ++ [p] }
      exact ⟨p :: rest, hrest.cons_cons p, by rw [heq, append_assoc]; rfl, hthread⟩
    · obtain ⟨rest, hrest, heq, hthread⟩ := ih (s.processAspiredVersionsRequest p.1 p.2)
      have hprocess := pending_processAspiredVersionsRequest s p.1 p.2
      rw [hprocess.1] at heq
      exact ⟨rest, hrest.cons p, heq, hthread.trans hprocess.2⟩

/-- What is left pending was pending, and the thread stays where it is. -/
theorem handle_spec (hs : s.manager.Steady) :
    s.handlePendingAspiredVersionsRequests.manager.Steady ∧
      s.handlePendingAspiredVersionsRequests.thread = s.thread ∧
      s.handlePendingAspiredVersionsRequests.pending.Sublist s.pending := by
  obtain ⟨rest, hrest, hleft, hthread⟩ :=
    exists_pending_handleRequests { s with pending := [] } s.pending
  have hsteady := handleRequests_induction (P := fun _ => True) (s := { s with pending := [] })
    (l := s.pending) hs (fun _ _ _ h => h) (fun _ _ _ _ _ h => h) trivial
  refine ⟨hsteady.1, hthread, ?_⟩
  rw [handlePendingAspiredVersionsRequests, hleft]
  exact hrest

/-! ## Steps keep the thread coherent -/

/-- Assignment replaces the request of the name, the only one if the names are distinct. -/
theorem mem_assign {versions : List ServableData}
    {pending : List (String × List ServableData)} {p : String × List ServableData}
    (h : p ∈ assign name versions pending) : p = (name, versions) ∨
      p ∈ pending ∧ ((pending.map Prod.fst).Nodup → p.1 ≠ name) := by
  induction pending with
  | nil => exact .inl (mem_singleton.mp h)
  | cons q pending ih =>
    rw [assign] at h
    split at h
    · next heq =>
      refine (mem_cons.mp h).imp_right fun hp => ⟨mem_cons_of_mem _ hp, fun hnodup => ?_⟩
      exact fun hname => (nodup_cons.mp hnodup).1 (mem_map.mpr ⟨p, hp, hname.trans heq.symm⟩)
    · next hne =>
      rcases mem_cons.mp h with rfl | hp
      · exact .inr ⟨mem_cons_self, fun _ => hne⟩
      · exact (ih hp).imp_right fun hp => ⟨mem_cons_of_mem _ hp.1,
          fun hnodup => hp.2 (nodup_cons.mp hnodup).2⟩

/-- A thread without plans is coherent with every manager. -/
theorem Coherent.of_idle (h : s.manager.Steady)
    (hnamed : ∀ p ∈ s.pending, ∀ v ∈ p.2, v.id.name = p.1) (hthread : s.thread = .idle) :
    s.Coherent := by
  refine ⟨h, hnamed, ?_, ?_⟩
  · rw [hthread]
    nofun
  · rw [hthread]
    nofun

theorem unaspired_of_mem_flushable (h : s.manager.Steady)
    (hid : id ∈ s.flushable name) : s.Unaspired id := by
  obtain ⟨v, hv, rfl⟩ := mem_map.mp hid
  rw [mem_filter, decide_eq_true_eq] at hv
  obtain ⟨r, hr, -, rfl⟩ := mem_snapshots.mp hv.1
  intro r' hr' hid'
  rw [h.invariant.unique r' hr' r hr hid']
  exact hv.2.2

theorem advance_stop (s : AspiredVersionsManager) (id : ServableId) :
    s.manager.advance (.stop id) = some (s.stop id).manager := rfl

theorem advance_performAction (s : AspiredVersionsManager) (a : ServableAction) :
    s.manager.advance (.request a.action a.id) = some (s.performAction a).manager := rfl

/-- A section of `FlushServables` stops managing the next servable or only moves on, with
servables to stop that it has just read. -/
theorem flush_cases (hs : s.flush = some s') :
    (∃ names id ids, s.thread = .flushing names (id :: ids) ∧
      s' = { s.stop id with thread := .flushing names ids }) ∨
    ∃ thread, s' = { s with thread := thread } ∧ thread.actions = [] ∧
      ∀ id ∈ thread.stopping, ∃ name, id ∈ s.flushable name := by
  rw [flush] at hs
  split at hs
  · exact .inr ⟨_, (some.inj hs).symm, rfl, nofun⟩
  · next names id ids hthread => exact .inl ⟨names, id, ids, hthread, (some.inj hs).symm⟩
  · next name names hthread =>
    exact .inr ⟨_, (some.inj hs).symm, rfl, fun id hid => ⟨name, hid⟩⟩
  · exact .inr ⟨_, (some.inj hs).symm, rfl, nofun⟩
  all_goals cases hs

theorem Coherent.flush (h : s.Coherent) (hs : s.flush = some s') : s'.Coherent := by
  rcases flush_cases hs with ⟨names, id, ids, hthread, rfl⟩ | ⟨thread, rfl, hactions, hstopping⟩
  · have he := h.steady.invariant.effect (advance_stop s id)
    refine ⟨h.steady.advance (advance_stop s id), h.named, fun id' hid' => ?_, nofun⟩
    have hold : s.Unaspired id' := h.stopping id' (by rw [hthread]; exact mem_cons_of_mem _ hid')
    exact hold.effect h.steady he nofun rfl
  · refine ⟨h.steady, h.named, fun id hid => ?_, fun id hid => ?_⟩
    · obtain ⟨name, hid⟩ := hstopping id hid
      exact unaspired_of_mem_flushable h.steady hid
    · rw [hactions] at hid
      cases hid

/-- A section of `InvokePolicyAndExecuteAction` performs the chosen action or only moves on, with
actions that it had or has just got from the policy. -/
theorem invoke_cases {pick : Nat} (hs : s.invoke pick = some s') :
    (∃ a, s.thread = .performing a ∧ s' = { s.performAction a with thread := .idle }) ∨
    ∃ thread, s' = { s with thread := thread } ∧ thread.stopping = [] ∧
      ∀ a, some a ∈ thread.actions → some a ∈ s.thread.actions ∨
        ∃ name, s.policyAction name = some a := by
  rw [invoke] at hs
  split at hs
  · exact .inr ⟨_, (some.inj hs).symm, rfl, nofun⟩
  · next name names actions hthread =>
    refine .inr ⟨_, (some.inj hs).symm, rfl, fun a ha => ?_⟩
    rw [hthread]
    exact (mem_append.mp ha).imp_right fun ha => ⟨name, (mem_singleton.mp ha).symm⟩
  · next actions hthread =>
    split at hs
    · exact .inr ⟨_, (some.inj hs).symm, rfl, nofun⟩
    · next a ha =>
      refine .inr ⟨_, (some.inj hs).symm, rfl, fun b hb => .inl ?_⟩
      rw [hthread, mem_singleton.mp hb]
      exact mem_of_firstAction ha
  · next a hthread => exact .inl ⟨a, hthread, (some.inj hs).symm⟩
  · cases hs

theorem Coherent.invoke (h : s.Coherent) {pick : Nat} (hs : s.invoke pick = some s') :
    s'.Coherent := by
  rcases invoke_cases hs with ⟨a, -, rfl⟩ | ⟨thread, rfl, hstopping, hactions⟩
  · exact .of_idle (h.steady.advance (advance_performAction s a)) h.named rfl
  · refine ⟨h.steady, h.named, fun id hid => ?_, fun id hid => ?_⟩
    · rw [hstopping] at hid
      cases hid
    · rcases hactions _ hid with hold | ⟨name, hnew⟩
      · exact h.unloads id hold
      · exact spared_of_policyAction h.steady hnew

/-- The executors keep the thread coherent. -/
theorem Coherent.advance (h : s.Coherent) {m : Manager}
    (hm : s.manager.advance a = some m) (ha : ∀ id status, a ≠ .manage id status)
    (hrequest : ∀ id, a ≠ .request .unload id) (hstop : ∀ id, a ≠ .stop id) :
    Coherent { s with manager := m } := by
  have he := h.steady.invariant.effect hm
  refine ⟨h.steady.advance hm, h.named, fun id hid => ?_, fun id hid => ⟨?_, ?_⟩⟩
  · exact (h.stopping id hid).effect h.steady he ha rfl
  · exact (h.unloads id hid).1.effect h.steady he ha rfl
  · exact (h.unloads id hid).2.effect h.steady he ha hrequest hstop rfl

/-- Every move keeps the thread coherent. -/
theorem Coherent.step (h : s.Coherent) {a : Move} (ha : s.step a = some s') : s'.Coherent := by
  cases a with
  | enqueue name versions =>
    cases ha
    rw [enqueueAspiredVersionsRequest]
    split
    · next hvalid =>
      refine ⟨h.steady, fun p hp => ?_, h.stopping, h.unloads⟩
      rcases mem_assign hp with rfl | ⟨hp, -⟩
      · exact hvalid
      · exact h.named p hp
    · exact h
  | flush => exact h.flush ha
  | handle =>
    rw [AspiredVersionsManager.step] at ha
    split at ha
    · next hidle =>
      cases ha
      obtain ⟨hsteady, hthread, hpending⟩ := handle_spec h.steady
      exact .of_idle hsteady (fun p hp => h.named p (hpending.subset hp)) (hthread.trans hidle)
    · cases ha
  | invoke pick => exact h.invoke ha
  | decide task reservation =>
    obtain ⟨m, hm, rfl⟩ := map_eq_some_iff.mp ha
    exact h.advance hm nofun nofun nofun
  | execute task outcome =>
    obtain ⟨m, hm, rfl⟩ := map_eq_some_iff.mp ha
    exact h.advance hm nofun nofun nofun

/-- Every state that a run reaches is coherent. -/
theorem coherent_of_run {tracked : Bool} {moves : List Move}
    (hrun : Run.run step (initial tracked) moves = some s) : s.Coherent :=
  Run.run_invariant (fun _ _ _ hs _ ha => hs.step ha) (coherent_initial tracked)
    (Run.admissible_of_forall (fun _ _ => trivial) _ moves) hrun

/-- What a move changes of the basic manager and the marks. -/
inductive Change (s : AspiredVersionsManager) : Move → AspiredVersionsManager → Prop
  /-- Nothing; only the pending requests or the position of the thread change. -/
  | none {a : Move} {s' : AspiredVersionsManager} (hmanager : s'.manager = s.manager)
      (hmarks : s'.isAspired = s.isAspired) : Change s a s'
  /-- One step of the basic manager, which drops and unloads only what the thread may. -/
  | act {a : Move} {s' : AspiredVersionsManager} {b : Manager.Action}
      (he : s.manager.Effect b s'.manager) (hmarks : s'.isAspired = s.isAspired)
      (hstop : ∀ id, b = .stop id → s.Unaspired id)
      (hunload : ∀ id, b = .request .unload id → s.Unaspired id ∧ s.Spared id) : Change s a s'
  /-- Requests are taken over. -/
  | handle : Change s .handle s.handlePendingAspiredVersionsRequests

variable (h : s.Coherent)
include h

theorem Coherent.change_flush (hs : s.flush = some s') : Change s .flush s' := by
  rcases flush_cases hs with ⟨names, id, ids, hthread, rfl⟩ | ⟨thread, rfl, -, -⟩
  · refine .act (h.steady.invariant.effect (advance_stop s id)) rfl ?_ nofun
    rintro id' heq
    cases heq
    exact h.stopping id (by rw [hthread]; exact mem_cons_self)
  · exact .none rfl rfl

theorem Coherent.change_invoke {pick : Nat} (hs : s.invoke pick = some s') :
    Change s (.invoke pick) s' := by
  rcases invoke_cases hs with ⟨a, hthread, rfl⟩ | ⟨thread, rfl, -, -⟩
  · refine .act (h.steady.invariant.effect (advance_performAction s a)) rfl nofun ?_
    intro id heq
    injection heq with hkind hid
    refine h.unloads id ?_
    rw [hthread, ← hkind, ← hid]
    exact mem_singleton_self _
  · exact .none rfl rfl

/-- Every move makes one of the changes. -/
theorem Coherent.change {a : Move} (ha : s.step a = some s') : Change s a s' := by
  cases a with
  | enqueue name versions =>
    cases ha
    rw [enqueueAspiredVersionsRequest]
    split <;> exact .none rfl rfl
  | flush => exact h.change_flush ha
  | handle =>
    rw [AspiredVersionsManager.step] at ha
    split at ha
    · cases ha
      exact .handle
    · cases ha
  | invoke pick => exact h.change_invoke ha
  | decide task reservation =>
    obtain ⟨m, hm, rfl⟩ := map_eq_some_iff.mp ha
    exact .act (h.steady.invariant.effect hm) rfl nofun nofun
  | execute task outcome =>
    obtain ⟨m, hm, rfl⟩ := map_eq_some_iff.mp ha
    exact .act (h.steady.invariant.effect hm) rfl nofun nofun

end AspiredVersionsManager

/-! ## Availability -/

namespace Manager

variable {m m' : Manager} {a : Action}

/-- The name has a ready version. -/
def Provides (m : Manager) (name : String) : Prop :=
  ∃ r ∈ m.managed, (m.harness r).id.name = name ∧ (m.harness r).state = .ready

/-- The handles map resolves the latest version of the name. -/
def Resolves (m : Manager) (name : String) : Prop :=
  ∃ r, (ServableRequest.latest name, r) ∈ m.handles

/-- A ready version whose unload is not requested stays ready. -/
theorem Effect.provides (he : Effect m a m') (h : m.Steady) {name : String} {r : Ref}
    (hr : r ∈ m.managed) (hname : (m.harness r).id.name = name)
    (hready : (m.harness r).state = .ready) (ha : a ≠ .request .unload (m.harness r).id) :
    m'.Provides name := by
  have hlt := h.invariant.fresh r hr
  refine ⟨r, he.mem_of_ready hr hready, ?_, he.ready hlt hready ha⟩
  rw [he.id_eq hlt]
  exact hname

/-- A rebuilt map resolves every name that has a ready version. -/
theorem Provides.resolves_updateServingMap {name : String} (h : m.Provides name) :
    m.updateServingMap.Resolves name := by
  obtain ⟨r, hr, rfl, hready⟩ := h
  refine exists_latest_buildHandles (a := ((m.harness r).id, r)) (mem_sorted.mpr ?_)
  exact mem_map_of_mem (mem_filter.mpr ⟨hr, decide_eq_true hready⟩)

/-- A name with a ready version stays resolved. -/
theorem Effect.resolves (he : Effect m a m') {name : String} (hprovides : m.Provides name)
    (h : m.Resolves name) : m'.Resolves name := by
  rcases he.handles with heq | heq
  · obtain ⟨r, hr⟩ := h
    exact ⟨r, heq ▸ hr⟩
  · obtain ⟨r, hr⟩ := hprovides.resolves_updateServingMap
    exact ⟨r, heq ▸ hr⟩

/-- Lookups find the entries of the handles map. -/
theorem mem_of_getUntypedServableHandle {request : ServableRequest} {r : Ref}
    (h : m.getUntypedServableHandle request = .ok r) : (request, r) ∈ m.handles := by
  rw [getUntypedServableHandle] at h
  split at h
  · cases h
  · next entry hentry =>
    cases h
    have hrequest := find?_some hentry
    rw [← of_decide_eq_true hrequest]
    exact mem_of_find?_eq_some hentry

theorem Resolves.getUntypedServableHandle {name : String} (h : m.Resolves name) :
    ∃ r, m.getUntypedServableHandle (.latest name) = .ok r := by
  obtain ⟨r, hr⟩ := h
  have hfind : (m.handles.find? fun entry => entry.1 = .latest name).isSome :=
    find?_isSome.mpr ⟨_, hr, decide_eq_true rfl⟩
  obtain ⟨entry, hentry⟩ := isSome_iff_exists.mp hfind
  exact ⟨entry.2, by rw [Manager.getUntypedServableHandle, hentry]⟩

end Manager

namespace AspiredVersionsManager

variable {s s' : AspiredVersionsManager} {name : String}

/-- The name has an aspired version. -/
def Aspires (s : AspiredVersionsManager) (name : String) : Prop :=
  ∃ r ∈ s.manager.managed, (s.manager.harness r).id.name = name ∧ s.isAspired r = true

/-- The name is served and will stay so. -/
structure Available (s : AspiredVersionsManager) (name : String) : Prop where
  aspires : s.Aspires name
  provides : s.manager.Provides name
  resolves : s.manager.Resolves name

/-- A step of the basic manager that does not drop a marked version keeps the marks. -/
theorem Aspires.effect {a : Manager.Action} (h : s.Aspires name) (hsteady : s.manager.Steady)
    (he : s.manager.Effect a s'.manager) (hstop : ∀ id, a = .stop id → s.Unaspired id)
    (hmarks : ∀ r ∈ s.manager.managed, s'.isAspired r = s.isAspired r) : s'.Aspires name := by
  obtain ⟨r, hr, hname, haspired⟩ := h
  have hmem : r ∈ s'.manager.managed := by
    refine (he.kept_or_dropped hr).resolve_right ?_
    rintro ⟨hid, -⟩
    rw [hstop _ hid r hr rfl] at haspired
    cases haspired
  refine ⟨r, hmem, ?_, ?_⟩
  · rw [he.id_eq (hsteady.invariant.fresh r hr)]
    exact hname
  · rw [hmarks r hr]
    exact haspired

/-- A step of the basic manager keeps a name available unless it drops a marked version or
requests an unload that is not allowed. -/
theorem Available.effect {a : Manager.Action} (h : s.Available name)
    (hsteady : s.manager.Steady) (he : s.manager.Effect a s'.manager)
    (hstop : ∀ id, a = .stop id → s.Unaspired id)
    (hunload : ∀ id, a = .request .unload id → s.Spared id)
    (hmarks : ∀ r ∈ s.manager.managed, s'.isAspired r = s.isAspired r) : s'.Available name := by
  refine ⟨h.aspires.effect hsteady he hstop hmarks, ?_, he.resolves h.provides h.resolves⟩
  obtain ⟨r, hr, hname, hready⟩ := h.provides
  by_cases ha : a = .request .unload (s.manager.harness r).id
  · -- the version goes, but the name is marked, so another version is ready
    rcases hunload _ ha with hnone | ⟨r', hr', hname', hne, hready'⟩
    · obtain ⟨r', hr', hname', haspired⟩ := h.aspires
      rw [hnone r' hr' (hname'.trans hname.symm)] at haspired
      cases haspired
    · refine he.provides hsteady hr' (hname'.trans hname) hready' ?_
      rw [ha]
      intro heq
      injection heq with _ hid
      exact hne hid.symm
  · exact he.provides hsteady hr hname hready ha

/-- Requests of the name have at least one version when they are taken over. -/
def Requests (name : String) (s : AspiredVersionsManager) : Move → Prop
  | .handle => ∀ p ∈ s.pending, p.1 = name → p.2 ≠ []
  | .enqueue _ _ | .flush | .invoke _ | .decide _ _ | .execute _ _ => True

instance (name : String) (s : AspiredVersionsManager) : DecidablePred (Requests name s)
  | .handle => inferInstanceAs (Decidable (∀ p ∈ s.pending, p.1 = name → p.2 ≠ []))
  | .enqueue _ _ | .flush | .invoke _ | .decide _ _ | .execute _ _ => .isTrue trivial

/-- Taking over the pending requests keeps a name available. -/
theorem Available.handle (h : s.Available name) (hs : s.Coherent)
    (hrequests : ∀ p ∈ s.pending, p.1 = name → p.2 ≠ []) :
    s.handlePendingAspiredVersionsRequests.Available name := by
  refine (handleRequests_induction (s := { s with pending := [] }) (P := fun t => t.Available name)
    hs.steady (fun t p _ ht => ⟨ht.aspires, ht.provides, ht.resolves⟩)
    (fun t p hp hsteady hcontains ht => ?_)
    ⟨h.aspires, h.provides, h.resolves⟩).2
  have hadopts := adopts_process hsteady p.1 p.2
  obtain ⟨⟨r, hr, hrname, haspired⟩, ⟨r', hr', hrname', hready⟩, r'', hr''⟩ := ht
  obtain ⟨hmem, hharness, hmark⟩ := hadopts.kept r hr
  obtain ⟨hmem', hharness', -⟩ := hadopts.kept r' hr'
  refine ⟨?_, ⟨r', hmem', ?_⟩, r'', hadopts.handles ▸ hr''⟩
  · by_cases hname : p.1 = name
    · obtain ⟨v, hv⟩ := exists_mem_of_ne_nil _ (hrequests p hp hname)
      have hvname := hs.named p hp v hv
      obtain ⟨r, hr, hid, haspired⟩ := aspired_process hsteady hv hvname hcontains
      exact ⟨r, hr, by rw [hid, hvname, hname], haspired⟩
    · refine ⟨r, hmem, hharness ▸ hrname, hmark.mpr ⟨haspired, fun heq => ?_⟩⟩
      exact absurd (heq.symm.trans hrname) hname
  · rw [hharness']
    exact ⟨hrname', hready⟩

/-- A move that does not take over an empty request keeps a name available. -/
theorem Available.step (h : s.Available name) (hs : s.Coherent) {a : Move}
    (hrequests : Requests name s a) (ha : s.step a = some s') : s'.Available name := by
  cases hs.change ha with
  | none hmanager hmarks =>
    obtain ⟨haspires, hprovides, hresolves⟩ := h
    refine ⟨?_, hmanager ▸ hprovides, hmanager ▸ hresolves⟩
    rw [Aspires, hmanager, hmarks]
    exact haspires
  | act he hmarks hstop hunload =>
    exact h.effect hs.steady he hstop (fun id hid => (hunload id hid).2)
      fun r _ => congrFun hmarks r
  | handle => exact h.handle hs hrequests

/-- A name that resolves to a ready version and has an aspired version is available. -/
theorem available_of_ready (hs : s.Coherent) {r : Ref}
    (hr : s.manager.getUntypedServableHandle (.latest name) = .ok r)
    (hready : (s.manager.harness r).state = .ready) (haspires : s.Aspires name) :
    s.Available name := by
  have hmem := Manager.mem_of_getUntypedServableHandle hr
  have hmanaged : r ∈ s.manager.managed := by
    by_contra hunmanaged
    have hrest := hs.steady.settled.unmanaged r hunmanaged
    rw [hready] at hrest
    rcases hrest with hrest | hrest | hrest <;> cases hrest
  exact ⟨haspires, ⟨r, hmanaged, (hs.steady.invariant.latest name r hmem).1, hready⟩, r, hmem⟩

/-- Once the latest version of a name resolves to a ready version and some version of the name
is aspired, the latest version resolves in every later state, whatever requests, loads and
unloads follow, as long as no empty request is taken over for the name. -/
theorem latest_resolves_of_run (tracked : Bool) (before after : List Move)
    (s₀ s : AspiredVersionsManager) (name : String) (r : Ref)
    (hbefore : Run.run step (initial tracked) before = some s₀)
    (hr : s₀.manager.getUntypedServableHandle (.latest name) = .ok r)
    (hready : (s₀.manager.harness r).state = .ready) (haspires : s₀.Aspires name)
    (hrequests : Run.Admissible step (Requests name) s₀ after)
    (hafter : Run.run step s₀ after = some s) :
    ∃ r', s.manager.getUntypedServableHandle (.latest name) = .ok r' := by
  have hcoherent := coherent_of_run hbefore
  have hboth : s.Coherent ∧ s.Available name :=
    Run.run_invariant (I := fun s => s.Coherent ∧ s.Available name)
      (fun _ _ _ hs hreq ha => ⟨hs.1.step ha, hs.2.step hs.1 hreq ha⟩)
      ⟨hcoherent, available_of_ready hcoherent hr hready haspires⟩ hrequests hafter
  exact hboth.2.resolves.getUntypedServableHandle

/-- A request for the versions is taken over and the policy's action for it is performed. -/
def aspireTo (versions : List ServableData) : List Move :=
  [.enqueue "model" versions, .handle, .invoke 0, .invoke 0, .invoke 0, .invoke 0]

/-- The first version of a name is loaded and served. -/
def firstVersion : List Move :=
  aspireTo [⟨⟨"model", 1⟩, .ok⟩] ++ [.decide 0 .reserved, .execute 0 .ok, .execute 0 .ok,
    .execute 0 .ok, .execute 0 .ok]

/-- The second version fails to load, and the third one replaces the first. -/
def nextVersions : List Move :=
  aspireTo [⟨⟨"model", 2⟩, .ok⟩] ++ [.decide 1 .reserved, .execute 1 .ok,
    .execute 1 (.internal "load"), .execute 1 .ok] ++
  aspireTo [⟨⟨"model", 3⟩, .ok⟩] ++ [.decide 2 .reserved, .execute 2 .ok, .execute 2 .ok,
    .execute 2 .ok, .execute 2 .ok, .invoke 0, .invoke 0, .invoke 0, .invoke 0,
    .decide 3 .reserved, .execute 3 .ok, .execute 3 .ok, .execute 3 .ok]

/-- The first version is gone, and the stream still resolves. -/
theorem latest_resolves_nextVersions : ∃ s₀ s, Run.run step (initial false) firstVersion = some s₀ ∧
      Run.run step s₀ nextVersions = some s ∧
      (s.manager.harness 0).state = .disabled ∧
      ∃ r', s.manager.getUntypedServableHandle (.latest "model") = .ok r' := by
  refine ⟨_, _, rfl, rfl, by decide, ?_⟩
  exact latest_resolves_of_run false firstVersion nextVersions _ _ "model" 0 rfl rfl (by decide)
    ⟨0, by decide, by decide, by decide⟩ (by decide) rfl

end AspiredVersionsManager

end Tension.Serving
