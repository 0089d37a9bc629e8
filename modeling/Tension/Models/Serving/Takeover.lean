import Mathlib
import Tension.Models.Serving.Availability

/-!
# Aspired versions follow the requests

A pending request is the last one that was enqueued for its name. When it is taken over, either
it stays pending because a version of it is still managed although its mark is cleared, or the
marked versions of the name become the versions of the request. An addition is never managed
already: a marked version is no addition, and an unmarked one postpones the request.
-/

namespace Tension.Serving.AspiredVersionsManager

open List Option

variable {s t u : AspiredVersionsManager} {name : String} {versions : List ServableData}

/-! ## Taking over one request -/

/-- The managed versions of the name with their states and marks are the same. -/
def Untouched (s t : AspiredVersionsManager) (name : String) : Prop :=
  ∀ v, v ∈ t.snapshots name ↔ v ∈ s.snapshots name

/-- Some managed version of the name has the mark and the number. -/
def Marks (s : AspiredVersionsManager) (name : String) (mark : Bool) (version : Int) : Prop :=
  ∃ v ∈ s.snapshots name, v.isAspired = mark ∧ v.id.version = version

theorem Untouched.marks_iff (h : s.Untouched t name) (mark : Bool) (version : Int) :
    t.Marks name mark version ↔ s.Marks name mark version :=
  exists_congr fun v => and_congr_left fun _ => h v

/-- The test that postpones a request. -/
theorem containsAnyReaspiredVersions_iff : s.containsAnyReaspiredVersions name versions = true ↔
    ∃ version ∈ getVersionNumbers versions, s.Marks name false version := by
  simp only [containsAnyReaspiredVersions, List.any_eq_true, Bool.and_eq_true, Bool.not_eq_true',
    decide_eq_true_eq]
  constructor
  · rintro ⟨v, hv, hmark, hversion⟩
    exact ⟨_, hversion, v, hv, hmark, rfl⟩
  · rintro ⟨version, hversion, v, hv, hmark, rfl⟩
    exact ⟨v, hv, hmark, hversion⟩

section

variable (hsteady : s.manager.Steady)
include hsteady

/-- Taking over a request does not touch other names. -/
theorem untouched_process {other : String} (hne : other ≠ name)
    (hnamed : ∀ v ∈ versions, v.id.name = other) :
    s.Untouched (s.processAspiredVersionsRequest other versions) name := by
  have hadopts := adopts_process hsteady other versions
  have hmark : ∀ r ∈ s.manager.managed, (s.manager.harness r).id.name = name →
      (s.processAspiredVersionsRequest other versions).isAspired r = s.isAspired r :=
    fun r hr hname => Bool.eq_iff_iff.mpr ((hadopts.kept r hr).2.2.trans
      (and_iff_left fun heq => absurd (heq.symm.trans hname) hne))
  intro v
  rw [mem_snapshots, mem_snapshots]
  constructor
  · rintro ⟨r, hr, hname, rfl⟩
    rcases hadopts.added r hr with hold | ⟨-, -, -, v, hv, hid⟩
    · rw [(hadopts.kept r hold).2.1] at hname ⊢
      exact ⟨r, hold, hname, by rw [hmark r hold hname]⟩
    · rw [hid, hnamed v hv] at hname
      exact absurd hname hne
  · rintro ⟨r, hr, hname, rfl⟩
    obtain ⟨hmem, hharness, -⟩ := hadopts.kept r hr
    exact ⟨r, hmem, hharness ▸ hname, by rw [hharness, hmark r hr hname]⟩

/-- Taking over a request makes its versions the marked ones of the name. -/
theorem marks_process_iff (hnamed : ∀ v ∈ versions, v.id.name = name)
    (hcontains : s.containsAnyReaspiredVersions name versions = false) (version : Int) :
    (s.processAspiredVersionsRequest name versions).Marks name true version ↔
      version ∈ getVersionNumbers versions := by
  constructor
  · rintro ⟨v, hv, hmark, rfl⟩
    obtain ⟨r, hr, hname, rfl⟩ := mem_snapshots.mp hv
    have hadopts := adopts_process hsteady name versions
    rcases hadopts.added r hr with hold | ⟨-, -, -, v, hv, hid⟩
    · obtain ⟨-, hharness, hmark'⟩ := hadopts.kept r hold
      rw [hharness] at hname ⊢
      exact (hmark'.mp hmark).2 hname
    · rw [hid]
      exact mem_map_of_mem hv
  · intro hversion
    obtain ⟨v, hv, rfl⟩ := mem_map.mp hversion
    obtain ⟨r, hr, hid, hmark⟩ := aspired_process hsteady hv (hnamed v hv) hcontains
    exact ⟨_, snapshot_mem hr (by rw [hid, hnamed v hv]), hmark, congrArg ServableId.version hid⟩

/-- The statuses that the calls of `ManageServableWithAdditionalState` in the last loop of
`ProcessAspiredVersionsRequest` return. -/
def manageStatuses (s : AspiredVersionsManager) (additions : List Int) :
    List ServableData → List Status
  | [] => []
  | v :: versions =>
    if v.id.version ∈ additions then
      (s.manager.manageServable v.id v.status).1 ::
        manageStatuses (s.manageAspired v) additions versions
    else manageStatuses s additions versions

/-- The statuses of the calls while a request is taken over. -/
def processStatuses (s : AspiredVersionsManager) (name : String) (versions : List ServableData) :
    List Status :=
  let next := getVersionNumbers versions
  let current := ((s.snapshots name).filter fun v => v.isAspired).map fun v => v.id.version
  (s.unaspireOthers next (s.snapshots name)).manageStatuses
    (next.filter fun version => version ∉ current) versions

/-- No call fails if the additions are not managed and have distinct versions. -/
theorem manageStatuses_ok {additions : List Int} (hdistinct : (getVersionNumbers versions).Nodup)
    (h : ∀ v ∈ versions, v.id.version ∈ additions →
      ∀ r ∈ s.manager.managed, (s.manager.harness r).id ≠ v.id) :
    ∀ status ∈ s.manageStatuses additions versions, status = .ok := by
  induction versions generalizing s with
  | nil => nofun
  | cons v versions ih =>
    obtain ⟨hv, hdistinct⟩ := nodup_cons.mp hdistinct
    obtain ⟨hhead, htail⟩ := forall_mem_cons.mp h
    rw [manageStatuses]
    split
    · next hadd =>
      refine forall_mem_cons.mpr ⟨?_, ih (steady_manageAspired hsteady v) hdistinct ?_⟩
      · have hnone : s.manager.findHarnessInMap v.id = none :=
          find?_eq_none.mpr fun r hr hid => hhead hadd r hr (of_decide_eq_true hid)
        rw [Manager.manageServable, hnone]
      · have hadopts := adopts_manageAspired hsteady (mem_singleton_self v)
        intro w hw hwadd r hr hid
        rcases hadopts.added r hr with hold | ⟨-, -, -, v', hv', hnew⟩
        · exact htail w hw hwadd r hold ((hadopts.kept r hold).2.1 ▸ hid)
        · -- the new servable has another version
          rw [mem_singleton.mp hv'] at hnew
          rw [hnew] at hid
          exact hv (mem_map.mpr ⟨w, hw, congrArg ServableId.version hid.symm⟩)
    · exact ih hsteady hdistinct htail

/-- An addition is not managed, so no call fails. -/
theorem processStatuses_ok (hnamed : ∀ v ∈ versions, v.id.name = name)
    (hdistinct : (getVersionNumbers versions).Nodup)
    (hcontains : s.containsAnyReaspiredVersions name versions = false) :
    ∀ status ∈ s.processStatuses name versions, status = .ok := by
  have hmanager := manager_unaspireOthers s (getVersionNumbers versions) (s.snapshots name)
  refine manageStatuses_ok (hmanager ▸ hsteady) hdistinct fun v hv hadd r hr hid => ?_
  rw [hmanager] at hr hid
  obtain ⟨hnext, hcurrent⟩ := mem_filter.mp hadd
  have hsnap := snapshot_mem hr ((congrArg ServableId.name hid).trans (hnamed v hv))
  cases hmark : s.isAspired r with
  | true =>
    rw [hmark, hid] at hsnap
    exact of_decide_eq_true hcurrent (mem_map_of_mem (mem_filter.mpr ⟨hsnap, rfl⟩))
  | false =>
    exact absurd (containsAnyReaspiredVersions_iff.mpr ⟨_, hnext, _, hsnap, hmark,
      congrArg ServableId.version hid⟩) (Bool.eq_false_iff.mp hcontains)

end

/-! ## Taking over all pending requests -/

/-- The statuses of the calls while the pending requests are taken over. -/
def handleStatuses (s : AspiredVersionsManager) :
    List (String × List ServableData) → List Status
  | [] => []
  | p :: ps =>
    if s.containsAnyReaspiredVersions p.1 p.2 then handleStatuses s ps
    else s.processStatuses p.1 p.2 ++ handleStatuses (s.processAspiredVersionsRequest p.1 p.2) ps

theorem handleRequests_append (s : AspiredVersionsManager)
    (ps qs : List (String × List ServableData)) :
    s.handleRequests (ps ++ qs) = (s.handleRequests ps).handleRequests qs := by
  induction ps generalizing s with
  | nil => rfl
  | cons p ps ih =>
    rw [cons_append, handleRequests, handleRequests]
    split <;> exact ih _

variable {ps : List (String × List ServableData)}

section

variable (hsteady : s.manager.Steady)
include hsteady

/-- Requests for other names do not touch a name. -/
theorem untouched_handleRequests (hnamed : ∀ p ∈ ps, ∀ v ∈ p.2, v.id.name = p.1)
    (hne : ∀ p ∈ ps, p.1 ≠ name) :
    (s.handleRequests ps).manager.Steady ∧ s.Untouched (s.handleRequests ps) name := by
  refine handleRequests_induction (P := fun t => s.Untouched t name) hsteady (fun t p _ ht => ht)
    (fun t p hp ht _ hsame v => ?_) fun _ => Iff.rfl
  exact (untouched_process ht (hne p hp) (hnamed p hp) v).trans (hsame v)

/-- Each request is postponed, and its name left alone, or taken over. -/
theorem handleRequests_spec (hpending : s.pending = [])
    (hnamed : ∀ p ∈ ps, ∀ v ∈ p.2, v.id.name = p.1) (hnodup : (ps.map Prod.fst).Nodup)
    {p : String × List ServableData} (hp : p ∈ ps) : if s.containsAnyReaspiredVersions p.1 p.2 then
      p ∈ (s.handleRequests ps).pending ∧ s.Untouched (s.handleRequests ps) p.1
    else (∀ q ∈ (s.handleRequests ps).pending, q.1 ≠ p.1) ∧ ∀ version,
      (s.handleRequests ps).Marks p.1 true version ↔ version ∈ getVersionNumbers p.2 := by
  obtain ⟨before, after, rfl⟩ := append_of_mem hp
  rw [map_append, map_cons, nodup_middle, nodup_cons, ← map_append] at hnodup
  have hother : ∀ q ∈ before ++ after, q.1 ≠ p.1 :=
    fun q hq heq => hnodup.1 (mem_map.mpr ⟨q, hq, heq⟩)
  obtain ⟨hbefore, hafter⟩ := forall_mem_append.mp hother
  obtain ⟨hnamed, hnamed'⟩ := forall_mem_append.mp hnamed
  obtain ⟨hvalid, hnamed'⟩ := forall_mem_cons.mp hnamed'
  -- the requests before it leave the name as it was
  obtain ⟨hsteady', hsame⟩ := untouched_handleRequests hsteady hnamed hbefore
  obtain ⟨rest, hrest, hleft, -⟩ := exists_pending_handleRequests s before
  rw [hpending] at hleft
  have htest : (s.handleRequests before).containsAnyReaspiredVersions p.1 p.2 = true ↔
      s.containsAnyReaspiredVersions p.1 p.2 = true := by
    simp [containsAnyReaspiredVersions_iff, hsame.marks_iff]
  rw [handleRequests_append, handleRequests, if_congr htest rfl rfl]
  generalize s.handleRequests before = t at hsteady' hsame hleft htest ⊢
  split
  · obtain ⟨-, hkept⟩ := untouched_handleRequests
      (s := { t with pending := t.pending ++ [p] }) hsteady' hnamed' hafter
    obtain ⟨rest', -, hleft', -⟩ := exists_pending_handleRequests
      { t with pending := t.pending ++ [p] } after
    refine ⟨?_, fun v => (hkept v).trans (hsame v)⟩
    rw [hleft']
    exact mem_append_left _ (mem_append_right _ (mem_singleton_self p))
  · next hcontains =>
    rw [← htest, Bool.not_eq_true] at hcontains
    have hprocess := marks_process_iff hsteady' hvalid hcontains
    obtain ⟨hleft', -⟩ := pending_processAspiredVersionsRequest t p.1 p.2
    obtain ⟨-, hkept⟩ := untouched_handleRequests
      (steady_processAspiredVersionsRequest hsteady' p.1 p.2) hnamed' hafter
    obtain ⟨rest', hrest', hpending', -⟩ := exists_pending_handleRequests
      (t.processAspiredVersionsRequest p.1 p.2) after
    refine ⟨fun q hq => ?_, fun version => (hkept.marks_iff true version).trans (hprocess version)⟩
    rw [hpending', hleft', hleft] at hq
    exact (mem_append.mp hq).elim (fun hq => hbefore q (hrest.subset hq))
      fun hq => hafter q (hrest'.subset hq)

/-- No call of `ManageServableWithAdditionalState` fails. -/
theorem handleStatuses_ok (hnamed : ∀ p ∈ ps, ∀ v ∈ p.2, v.id.name = p.1)
    (hdistinct : ∀ p ∈ ps, (getVersionNumbers p.2).Nodup) :
    ∀ status ∈ s.handleStatuses ps, status = .ok := by
  induction ps generalizing s with
  | nil => nofun
  | cons p ps ih =>
    obtain ⟨hvalid, hnamed⟩ := forall_mem_cons.mp hnamed
    obtain ⟨hdistinct', hdistinct⟩ := forall_mem_cons.mp hdistinct
    rw [handleStatuses]
    split
    · exact ih hsteady hnamed hdistinct
    · next hcontains =>
      exact forall_mem_append.mpr ⟨processStatuses_ok hsteady hvalid hdistinct'
        (Bool.eq_false_iff.mpr hcontains),
        ih (steady_processAspiredVersionsRequest hsteady _ _) hnamed hdistinct⟩

end

/-! ## The requests of a run -/

/-- The latest request of the name after a move; refused requests do not count. -/
def recordRequest (name : String) (latest : Option (List ServableData)) :
    Move → Option (List ServableData)
  | .enqueue name' versions =>
    if name' = name ∧ ∀ v ∈ versions, v.id.name = name' then some versions else latest
  | .flush | .handle | .invoke _ | .decide _ _ | .execute _ _ => latest

/-- The request of the name that was enqueued last. -/
def latestRequest (name : String) (moves : List Move) : Option (List ServableData) :=
  moves.foldl (recordRequest name) none

theorem latestRequest_concat (name : String) (moves : List Move) (a : Move) :
    latestRequest name (moves ++ [a]) = recordRequest name (latestRequest name moves) a := by
  rw [latestRequest, foldl_append]
  rfl

/-- Every name has at most one pending request, its latest one. -/
structure Recorded (moves : List Move) (s : AspiredVersionsManager) : Prop where
  nodup : (s.pending.map Prod.fst).Nodup
  latest : ∀ p ∈ s.pending, latestRequest p.1 moves = some p.2 ∧ .enqueue p.1 p.2 ∈ moves

variable {moves : List Move} {a : Move}

/-- A move that enqueues nothing can only take pending requests away. -/
theorem Recorded.of_sublist (h : Recorded moves s) (hsub : t.pending.Sublist s.pending)
    (hsame : ∀ name latest, recordRequest name latest a = latest) : Recorded (moves ++ [a]) t := by
  refine ⟨h.nodup.sublist (hsub.map _), fun p hp => ?_⟩
  obtain ⟨hlatest, hmem⟩ := h.latest p (hsub.subset hp)
  rw [latestRequest_concat, hsame]
  exact ⟨hlatest, mem_append_left _ hmem⟩

theorem nodup_assign (name : String) (versions : List ServableData)
    {pending : List (String × List ServableData)} (h : (pending.map Prod.fst).Nodup) :
    ((assign name versions pending).map Prod.fst).Nodup := by
  induction pending with
  | nil => exact nodup_singleton name
  | cons q pending ih =>
    obtain ⟨hq, hrest⟩ := nodup_cons.mp h
    rw [assign]
    split
    · next heq => exact heq ▸ h
    · next hne =>
      refine nodup_cons.mpr ⟨fun hq' => ?_, ih hrest⟩
      obtain ⟨p, hp, heq⟩ := mem_map.mp hq'
      rcases mem_assign hp with rfl | ⟨hp, -⟩
      · exact hne heq.symm
      · exact hq (mem_map.mpr ⟨p, hp, heq⟩)

theorem Recorded.enqueue (h : Recorded moves s) (name : String) (versions : List ServableData) :
    Recorded (moves ++ [.enqueue name versions])
      (s.enqueueAspiredVersionsRequest name versions) := by
  rw [enqueueAspiredVersionsRequest]
  split
  · next hvalid =>
    refine ⟨nodup_assign name versions h.nodup, fun p hp => ?_⟩
    rw [latestRequest_concat, recordRequest]
    rcases mem_assign hp with rfl | ⟨hp, hne⟩
    · exact ⟨if_pos ⟨rfl, hvalid⟩, mem_append_right _ (mem_singleton_self _)⟩
    · rw [if_neg fun hsame => hne h.nodup hsame.1.symm]
      exact (h.latest p hp).imp_right (mem_append_left _)
  · next hvalid =>
    refine ⟨h.nodup, fun p hp => ?_⟩
    rw [latestRequest_concat, recordRequest, if_neg fun hsame => hvalid hsame.2]
    exact (h.latest p hp).imp_right (mem_append_left _)

/-- Every move keeps the record. -/
theorem Recorded.step (h : Recorded moves s) (hsteady : s.manager.Steady) (ha : s.step a = some t) :
    Recorded (moves ++ [a]) t := by
  cases a with
  | enqueue name versions =>
    cases ha
    exact h.enqueue name versions
  | flush =>
    refine h.of_sublist ?_ fun _ _ => rfl
    rcases flush_cases ha with ⟨_, id, _, -, rfl⟩ | ⟨_, rfl, -, -⟩
    · exact List.Sublist.refl s.pending
    · exact List.Sublist.refl s.pending
  | handle =>
    refine h.of_sublist ?_ fun _ _ => rfl
    rw [AspiredVersionsManager.step] at ha
    split at ha
    · cases ha
      exact (handle_spec hsteady).2.2
    · cases ha
  | invoke pick =>
    refine h.of_sublist ?_ fun _ _ => rfl
    rcases invoke_cases ha with ⟨a, -, rfl⟩ | ⟨_, rfl, -, -⟩
    · exact List.Sublist.refl s.pending
    · exact List.Sublist.refl s.pending
  | decide task reservation =>
    obtain ⟨m, -, rfl⟩ := map_eq_some_iff.mp ha
    exact h.of_sublist (List.Sublist.refl s.pending) fun _ _ => rfl
  | execute task outcome =>
    obtain ⟨m, -, rfl⟩ := map_eq_some_iff.mp ha
    exact h.of_sublist (List.Sublist.refl s.pending) fun _ _ => rfl

theorem recorded_of_run {tracked : Bool}
    (hrun : Run.run step (initial tracked) moves = some s) : Recorded moves s := by
  induction moves using reverseRecOn generalizing s with
  | nil =>
    cases hrun
    exact ⟨nodup_nil, nofun⟩
  | append_singleton moves a ih =>
    rw [Run.run_append] at hrun
    obtain ⟨s₁, h₁, h₂⟩ := bind_eq_some_iff.mp hrun
    obtain ⟨s₂, h₂, h₃⟩ := bind_eq_some_iff.mp h₂
    cases h₃
    exact (ih h₁).step (coherent_of_run h₁).steady h₂

/-- After every run whose requests have distinct versions, each name has at most one pending
request, the one that was enqueued last. Handling it leaves it pending and its name untouched if a
managed version of it is not marked, and otherwise makes its versions the marked ones of the name.
Names without a pending request are not touched and no call to manage a servable fails. -/
theorem handle_pending_of_run (tracked : Bool) (moves : List Move) (s : AspiredVersionsManager)
    (hdistinct : ∀ name versions, .enqueue name versions ∈ moves →
      (getVersionNumbers versions).Nodup) (hrun : Run.run step (initial tracked) moves = some s) :
    (s.pending.map Prod.fst).Nodup ∧ (∀ p ∈ s.pending, latestRequest p.1 moves = some p.2 ∧
      ((∃ version ∈ getVersionNumbers p.2, s.Marks p.1 false version) ∧
          p ∈ s.handlePendingAspiredVersionsRequests.pending ∧
          s.Untouched s.handlePendingAspiredVersionsRequests p.1 ∨
        (¬ ∃ version ∈ getVersionNumbers p.2, s.Marks p.1 false version) ∧
          (∀ q ∈ s.handlePendingAspiredVersionsRequests.pending, q.1 ≠ p.1) ∧
          ∀ version, s.handlePendingAspiredVersionsRequests.Marks p.1 true version ↔
            version ∈ getVersionNumbers p.2)) ∧ (∀ name, (∀ p ∈ s.pending, p.1 ≠ name) →
      s.Untouched s.handlePendingAspiredVersionsRequests name) ∧
    ∀ status ∈ s.handleStatuses s.pending, status = .ok := by
  have hs := coherent_of_run hrun
  have hrecorded := recorded_of_run hrun
  refine ⟨hrecorded.nodup, fun p hp => ⟨(hrecorded.latest p hp).1, ?_⟩, fun name hne => ?_, ?_⟩
  · have hspec := handleRequests_spec (s := { s with pending := [] }) hs.steady rfl hs.named
      hrecorded.nodup hp
    split at hspec
    · next hcontains =>
      exact .inl ⟨containsAnyReaspiredVersions_iff.mp hcontains, hspec⟩
    · next hcontains =>
      exact .inr ⟨fun h => hcontains (containsAnyReaspiredVersions_iff.mpr h), hspec⟩
  · exact (untouched_handleRequests (s := { s with pending := [] }) hs.steady hs.named hne).2
  · exact handleStatuses_ok hs.steady hs.named fun p hp =>
      hdistinct p.1 p.2 (hrecorded.latest p hp).2

/-- A version is aspired, and two requests follow before the next cycle of the thread. -/
def replacedRequest : List Move :=
  [.enqueue "model" [⟨⟨"model", 1⟩, .ok⟩], .handle,
    .enqueue "model" [⟨⟨"model", 1⟩, .ok⟩, ⟨⟨"model", 2⟩, .ok⟩],
    .enqueue "model" [⟨⟨"model", 2⟩, .ok⟩]]

/-- Only the last request takes effect. -/
theorem handle_pending_replacedRequest : ∃ s, Run.run step (initial true) replacedRequest = some s ∧
    s.pending = [("model", [⟨⟨"model", 2⟩, .ok⟩])] ∧ ∀ version,
      s.handlePendingAspiredVersionsRequests.Marks "model" true version ↔ version ∈ [2] := by
  have hdistinct : ∀ name versions, .enqueue name versions ∈ replacedRequest →
      (getVersionNumbers versions).Nodup := by
    simp only [replacedRequest, mem_cons]
    rintro _ _ (⟨-, rfl⟩ | hfalse | ⟨-, rfl⟩ | ⟨-, rfl⟩ | hfalse) <;> first | decide | cases hfalse
  refine ⟨_, rfl, rfl, ?_⟩
  obtain ⟨-, hrequests, -⟩ := handle_pending_of_run true replacedRequest _ hdistinct rfl
  obtain ⟨-, ⟨⟨version, hversion, v, hv, hmark, rfl⟩, -⟩ | ⟨-, -, hmarks⟩⟩ :=
    hrequests _ (mem_singleton_self _)
  · rw [mem_singleton.mp hv] at hversion
    exact absurd hversion (by decide)
  · exact hmarks

end Tension.Serving.AspiredVersionsManager
