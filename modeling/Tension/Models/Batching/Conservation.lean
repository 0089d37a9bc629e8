import Mathlib.Data.List.Nodup
import Mathlib.Order.Nat
import Tension.Models.Batching.QueueInvariant

/-!
# The scheduler conserves tasks

The invariant of every queue is kept by every move of the clients and of the batch threads.
A scan remembers what it has read of the queue it visits; a queue that is closed stays
closed, and one that is closed and empty stays empty, so that what the scan remembers is
still true when it drops the queue.
-/

namespace Tension.Batching

open Run List Option

variable {τ : Type} [BatchTask τ]

/-! ## Batches in the hands of threads -/

/-- How many batches of a queue are being processed. -/
def active (work : List (Work τ)) (r : Nat) : Nat := work.countP fun w => w.queue = r

/-- The batches of a queue that have not been passed to the callback yet. -/
def waiting (work : List (Work τ)) (r : Nat) : List (Batch τ) :=
  (work.filter fun w => w.queue = r ∧ w.phase ≠ .called).map Work.batch

variable {work : List (Work τ)} {w : Work τ} {r : Nat}

/-- The order of the work does not matter. -/
theorem active_perm {work' : List (Work τ)} (h : work.Perm work') (r : Nat) :
    active work r = active work' r := h.countP_eq _

theorem waiting_perm {work' : List (Work τ)} (h : work.Perm work') (r : Nat) :
    (waiting work r).Perm (waiting work' r) := (h.filter _).map _

/-- A batch of the queue is active. -/
theorem active_cons_self (h : w.queue = r) :
    active (w :: work) r = active work r + 1 := countP_cons_of_pos (by simpa using h)

theorem active_cons_ne (h : w.queue ≠ r) :
    active (w :: work) r = active work r := countP_cons_of_neg (by simpa using h)

/-- A batch whose callback has not run waits. -/
theorem waiting_cons_pos (h : w.queue = r)
    (hphase : w.phase ≠ .called) : waiting (w :: work) r = w.batch :: waiting work r := by
  rw [waiting, filter_cons_of_pos (by simpa using ⟨h, hphase⟩)]
  rfl

/-- Other batches do not wait in the queue. -/
theorem waiting_cons_neg
    (h : ¬(w.queue = r ∧ w.phase ≠ .called)) : waiting (w :: work) r = waiting work r := by
  rw [waiting, filter_cons_of_neg (by simpa using h)]
  rfl

@[simp] theorem queue_release (w : Work τ) : w.release.queue = w.queue := by
  unfold Work.release
  split <;> rfl

@[simp] theorem batch_release (w : Work τ) : w.release.batch = w.batch := by
  unfold Work.release
  split <;> rfl

theorem phase_release (w : Work τ) : w.release.phase = .called ↔ w.phase = .called := by
  unfold Work.release
  split
  · next h => simp [h]
  · exact Iff.rfl

theorem active_release (work : List (Work τ)) (r : Nat) :
    active (work.map Work.release) r = active work r := by
  rw [active, countP_map]
  simp only [Function.comp_def, queue_release]
  rfl

/-- A release ends no wait. -/
theorem waiting_release (work : List (Work τ)) (r : Nat) :
    waiting (work.map Work.release) r = waiting work r := by
  rw [waiting, List.filter_map, List.map_map]
  simp only [Function.comp_def, queue_release, batch_release, ne_eq, phase_release]
  rfl

/-- No thread works for a queue of which no batch is being processed. -/
theorem active_eq_zero : active work r = 0 ↔ ∀ w ∈ work, w.queue ≠ r := by
  simp [active]

/-- A queue without active batches has none that wait. -/
theorem waiting_eq_nil (h : active work r = 0) : waiting work r = [] := by
  rw [waiting, map_eq_nil_iff, filter_eq_nil_iff]
  intro w hw hr
  exact active_eq_zero.mp h w hw (of_decide_eq_true hr).1

/-! ## What a scan remembers -/

/-- What the scan has read of the queue it visits. -/
def Stage.Observed : Stage → Queue τ → Prop
  | .readClosed, _ => True
  | .pull queueClosed, q | .readEmpty queueClosed _, q => queueClosed = true → q.closed = true
  | .advance drop _, q => drop = true → q.closed = true ∧ q.isEmptyInternal = true

/-- A queue that is closed stays closed, and empty if it was. -/
structure Queue.Later (q q' : Queue τ) : Prop where
  closed : q.closed = true → q'.closed = true
  empty : q.closed = true → q.isEmptyInternal = true → q'.isEmptyInternal = true

theorem Queue.Later.of_open {q q' : Queue τ} (h : q.closed = false) : Queue.Later q q' where
  closed hc := by rw [h] at hc; cases hc
  empty hc := by rw [h] at hc; cases hc

/-- What a scan has observed stays true. -/
theorem Stage.Observed.later {stage : Stage} {q q' : Queue τ} (h : stage.Observed q)
    (hl : Queue.Later q q') : stage.Observed q' := by
  cases stage with
  | readClosed => trivial
  | pull queueClosed | readEmpty queueClosed found => exact fun hq => hl.closed (h hq)
  | advance drop found =>
    intro hd
    obtain ⟨hclosed, hempty⟩ := h hd
    exact ⟨hl.closed hclosed, hl.empty hclosed hempty⟩

/-! ## The invariant -/

namespace SharedBatchScheduler

/-- What holds between the sections. -/
structure Inv (s : SharedBatchScheduler τ) (least : Int) : Prop where
  good : ∀ {r : Nat} {c : Cell τ}, s.cells[r]? = some c →
    c.Good least (active s.work r) (waiting s.work r)
  owned : ∀ w ∈ s.work, w.queue < s.cells.length
  listed : ∀ r ∈ s.queues, r < s.cells.length
  nodup : s.queues.Nodup
  pointing : s.nextQueueToSchedule < s.queues.length ∨
    s.queues = [] ∧ s.nextQueueToSchedule = 0
  bounded : ∀ scan ∈ s.scan, scan.numQueuesTried < scan.numQueues ∧
    scan.numQueues ≤ scan.numQueuesTried + s.queues.length
  observed : ∀ scan ∈ s.scan, ∀ (r : Nat) (c : Cell τ), s.queues[s.nextQueueToSchedule]? = some r →
    s.cells[r]? = some c → scan.stage.Observed c.queue

/-- A new scheduler has no queues. -/
theorem inv_initial {least : Int} : (initial : SharedBatchScheduler τ).Inv least where
  good := nofun
  owned := nofun
  listed := nofun
  nodup := nodup_nil
  pointing := .inr ⟨rfl, rfl⟩
  bounded := nofun
  observed := nofun

namespace Inv

variable {least : Int} {s : SharedBatchScheduler τ} {r : Nat} {c c' : Cell τ}

theorem cells_set {cells : List (Cell τ)} {r₁ : Nat} {c₁ : Cell τ} (hc : cells[r]? = some c)
    (hc₁ : (cells.set r c')[r₁]? = some c₁) : r = r₁ ∧ c' = c₁ ∨ r ≠ r₁ ∧ cells[r₁]? = some c₁ := by
  grind

section

variable (h : s.Inv least) (hc : s.cells[r]? = some c)
include h hc

/-- A move at one queue, together with the threads that work for it. -/
theorem setCell (work : List (Work τ)) (hgood : c'.Good least (active work r) (waiting work r))
    (hother : ∀ r', r ≠ r' → active work r' = active s.work r' ∧
      (waiting work r').Perm (waiting s.work r')) (howned : ∀ w ∈ work, w.queue < s.cells.length)
    (hlater : Queue.Later c.queue c'.queue) : { s.setCell r c' with work := work }.Inv least where
  good {r₁ c₁} hc₁ := by
    rcases cells_set hc hc₁ with ⟨rfl, rfl⟩ | ⟨hr, hc₁⟩
    · exact hgood
    · obtain ⟨hactive, hwaiting⟩ := hother r₁ hr
      rw [hactive]
      exact (h.good hc₁).perm hwaiting
  owned w hw := by
    rw [SharedBatchScheduler.setCell, length_set]
    exact howned w hw
  listed r₁ hr₁ := by
    rw [SharedBatchScheduler.setCell, length_set]
    exact h.listed r₁ hr₁
  __ := h
  observed scan hscan r₁ c₁ hr₁ hc₁ := by
    rcases cells_set hc hc₁ with ⟨rfl, rfl⟩ | ⟨-, hc₁⟩
    · exact (h.observed scan hscan r c hr₁ hc).later hlater
    · exact h.observed scan hscan r₁ c₁ hr₁ hc₁

/-- A move at one queue that no thread takes part in. -/
theorem setCell_same (hgood : c'.Good least (active s.work r) (waiting s.work r))
    (hlater : Queue.Later c.queue c'.queue) : (s.setCell r c').Inv least :=
  h.setCell hc s.work hgood (fun _ _ => ⟨rfl, .refl _⟩) h.owned hlater

end

variable {scan : Scan} {s' : SharedBatchScheduler τ} {i : Nat}

section

variable (h : s.Inv least)
include h

/-- The scan goes on at the same queue. -/
theorem setStage (hscan : scan ∈ s.scan) (stage : Stage)
    (hobs : ∀ (r : Nat) (c : Cell τ),
      s.queues[s.nextQueueToSchedule]? = some r → s.cells[r]? = some c →
      stage.Observed c.queue) : { s with scan := some { scan with stage := stage } }.Inv least where
  __ := h
  bounded scan' hscan' := by
    cases hscan'
    exact h.bounded scan hscan
  observed scan' hscan' := by
    cases hscan'
    exact hobs

/-- `AddQueue` keeps the invariant. -/
theorem addQueue {options : QueueOptions}
    (hmax : options.validate.code = .ok → least ≤ options.maxEnqueuedBatches)
    (hs : s.addQueue options = some s') : s'.Inv least := by
  unfold SharedBatchScheduler.addQueue at hs
  split at hs
  · cases hs
    exact h
  · next hvalid =>
    split at hs
    · cases hs
    · next hscan =>
      cases hs
      have hsize : 1 ≤ options.maxBatchSize := by
        by_contra hlt
        refine hvalid ?_
        rw [QueueOptions.validate, if_pos (by omega)]
        exact Code.noConfusion
      have hnone : s.scan = none := by simpa using hscan
      have hlast : active s.work s.cells.length = 0 :=
        active_eq_zero.mpr fun w hw => ne_of_lt (h.owned w hw)
      refine ⟨?_, ?_, ?_, ?_, ?_, ?_, ?_⟩
      · intro r c hc
        rcases lt_or_ge r s.cells.length with hlt | hge
        · rw [getElem?_append_left hlt] at hc
          exact h.good hc
        rw [getElem?_append_right hge, getElem?_singleton] at hc
        split at hc
        · cases hc
          rw [show r = s.cells.length by omega, hlast, waiting_eq_nil hlast]
          exact Cell.Good.new hsize (hmax (not_not.mp hvalid))
        · cases hc
      · intro w hw
        have := h.owned w hw
        simpa using Nat.lt_succ_of_lt this
      · intro r hr
        rw [length_append]
        rcases mem_append.mp hr with hr | hr
        · exact Nat.lt_succ_of_lt (h.listed r hr)
        · rw [mem_singleton.mp hr]
          exact Nat.lt_succ_self _
      · have := h.nodup.concat fun hmem => lt_irrefl _ (h.listed s.cells.length hmem)
        rwa [concat_eq_append] at this
      · rw [length_append, length_singleton]
        have := h.pointing
        dsimp only
        split <;> omega
      · rw [hnone]
        nofun
      · rw [hnone]
        nofun

/-- `Schedule` keeps the invariant. -/
theorem schedule {task : τ} {now later : Nat} (hs : s.schedule r task now later = some s') :
    s'.Inv least := by
  obtain ⟨c, hc, hs⟩ := bind_eq_some_iff.mp hs
  split at hs
  · cases hs
  · next hopen =>
    have hopen := Bool.not_eq_true _ ▸ hopen
    have hgood := h.good hc
    obtain ⟨full, last, hbatches, hf⟩ := hgood.bounded.formed
    rcases Queue.schedule_cases hbatches hf
      (by have := hgood.bounded.positive; omega) task now later with
      ⟨status, hstatus, heq⟩ | ⟨q', heq, haccepted⟩
    · rw [heq] at hs
      cases hs
      rw [if_neg hstatus]
      exact h.setCell_same hc hgood (.of_open hopen)
    · rw [heq] at hs
      cases hs
      exact h.setCell_same hc (hgood.accept hopen haccepted) (.of_open hopen)

/-- Closing a queue keeps the invariant. -/
theorem close (hs : s.close r = some s') : s'.Inv least := by
  obtain ⟨c, hc, hs⟩ := bind_eq_some_iff.mp hs
  split at hs
  · cases hs
  · next hopen =>
    cases hs
    have hopen := Bool.not_eq_true _ ▸ hopen
    exact h.setCell_same hc ((h.good hc).close hopen) (.of_open hopen)

/-- A thread starts to look for a batch. -/
theorem beginScan (hs : s.beginScan = some s') : s'.Inv least := by
  unfold SharedBatchScheduler.beginScan at hs
  split at hs
  · cases hs
  split at hs
  · cases hs
    exact h
  · next hne =>
    cases hs
    refine { h with bounded := ?_, observed := ?_ }
    · intro scan hscan
      cases hscan
      exact ⟨length_pos_iff.mpr hne, by dsimp only; omega⟩
    · intro scan hscan r c _ _
      cases hscan
      trivial

/-- The queue that the scan visits gives a batch away, or declines. -/
theorem pull (hscan : scan ∈ s.scan) (hr : s.queues[s.nextQueueToSchedule]? = some r)
    (hc : s.cells[r]? = some c) {queueClosed : Bool}
    (hobs : queueClosed = true → c.queue.closed = true) (now : Nat) :
    (s.pull scan r c queueClosed now).Inv least := by
  have hgood := h.good hc
  have hlt := (List.getElem?_eq_some_iff.mp hc).1
  obtain ⟨full, last, hbatches, hf⟩ := hgood.bounded.formed
  have hset : ∀ {c' : Cell τ} {r₁ : Nat} {c₁ : Cell τ},
      s.queues[s.nextQueueToSchedule]? = some r₁ → (s.cells.set r c')[r₁]? = some c₁ →
        c₁ = c' := by
    intro c' r₁ c₁ hr₁ hc₁
    cases some.inj (hr.symm.trans hr₁)
    simpa [eq_comm] using cells_set hc hc₁
  rcases Queue.scheduleBatch_cases hbatches hf (by have := hgood.bounded.positive; omega) now with
    ⟨b, q', heq, hpulled⟩ | heq
  · have hlater : Queue.Later c.queue q' :=
      ⟨fun hclosed => hpulled.closed.trans hclosed, fun _ hempty => by
        rw [Queue.isEmptyInternal_eq_false hbatches hpulled.tasks_ne_nil] at hempty
        cases hempty⟩
    have hstep := h.setCell hc (⟨r, b, .picked⟩ :: s.work) (by
        rw [active_cons_self rfl, waiting_cons_pos rfl Phase.noConfusion]
        exact hgood.pull hpulled)
      (fun r' hne => by
        rw [active_cons_ne hne, waiting_cons_neg fun hand => hne hand.1]
        exact ⟨rfl, .refl _⟩)
      (fun w hw => by
        rcases mem_cons.mp hw with rfl | hw
        · exact hlt
        · exact h.owned w hw) hlater
    unfold SharedBatchScheduler.pull
    rw [heq]
    refine hstep.setStage hscan (.readEmpty queueClosed true) ?_
    intro r₁ c₁ hr₁ hc₁ hq
    rw [hset hr₁ hc₁]
    exact hpulled.closed.trans (hobs hq)
  · have hstep := h.setCell_same hc hgood.decline ⟨fun hclosed => hclosed, fun _ hempty => hempty⟩
    unfold SharedBatchScheduler.pull
    rw [heq]
    refine hstep.setStage hscan (.readEmpty queueClosed false) ?_
    intro r₁ c₁ hr₁ hc₁ hq
    rw [hset hr₁ hc₁]
    exact hobs hq

end

/-- The iterator wraps to the first queue at the end of the list. -/
theorem pointing_wrap {queues : List Nat} {next : Nat} (h : next ≤ queues.length) :
    (if next = queues.length ∧ queues ≠ [] then 0 else next) < queues.length ∨
      queues = [] ∧ (if next = queues.length ∧ queues ≠ [] then 0 else next) = 0 := by
  by_cases hnil : queues = []
  · refine .inr ⟨hnil, ?_⟩
    rw [if_neg fun hand => hand.2 hnil]
    rw [hnil] at h
    exact Nat.le_zero.mp h
  · have hpos := length_pos_iff.mpr hnil
    refine .inl ?_
    split
    · exact hpos
    · next hend => exact Nat.lt_of_le_of_ne h fun heq => hend ⟨heq, hnil⟩

/-- The scan moves on. -/
theorem advance (h : s.Inv least) (hscan : scan ∈ s.scan)
    (hr : s.queues[s.nextQueueToSchedule]? = some r) (drop found : Bool) :
    (s.advance scan drop found).Inv least := by
  have hlt := (List.getElem?_eq_some_iff.mp hr).1
  obtain ⟨htried, hnum⟩ := h.bounded scan hscan
  have hsub : (s.advance scan drop found).queues.Sublist s.queues := by
    cases drop with
    | true => exact eraseIdx_sublist _ _
    | false => exact List.Sublist.refl _
  have hlength : s.queues.length ≤ (s.advance scan drop found).queues.length + 1 := by
    cases drop with
    | true =>
      show _ ≤ (s.queues.eraseIdx s.nextQueueToSchedule).length + 1
      rw [length_eraseIdx_of_lt hlt]
      omega
    | false => exact Nat.le_succ _
  have hwork : ∀ r', active (s.advance scan drop found).work r' = active s.work r' ∧
      waiting (s.advance scan drop found).work r' = waiting s.work r' := by
    intro r'
    cases found with
    | true => exact ⟨active_release s.work r', waiting_release s.work r'⟩
    | false => exact ⟨rfl, rfl⟩
  have hscan' : ∀ scan' ∈ (s.advance scan drop found).scan,
      scan' = ⟨scan.numQueues, scan.numQueuesTried + 1, .readClosed⟩ ∧
        scan.numQueuesTried + 1 < scan.numQueues := by
    intro scan' hscan'
    change scan' ∈ (if _ then _ else _) at hscan'
    split at hscan'
    · cases hscan'
    · next hmore =>
      cases hscan'
      simp only [Bool.or_eq_true, decide_eq_true_eq, not_or] at hmore
      exact ⟨rfl, lt_of_not_ge hmore.2⟩
  refine ⟨?_, ?_, ?_, h.nodup.sublist hsub, ?_, ?_, ?_⟩
  · intro r' c' hc'
    rw [(hwork r').1, (hwork r').2]
    exact h.good hc'
  · intro w hw
    cases found with
    | true =>
      obtain ⟨w', hw', rfl⟩ := mem_map.mp hw
      rw [queue_release]
      exact h.owned w' hw'
    | false => exact h.owned w hw
  · exact fun r' hr' => h.listed r' (hsub.subset hr')
  · cases drop with
    | true =>
      refine pointing_wrap ?_
      have := length_eraseIdx_of_lt hlt
      simp only [if_true]
      omega
    | false => exact pointing_wrap hlt
  · intro scan' hs'
    obtain ⟨rfl, hmore⟩ := hscan' scan' hs'
    exact ⟨hmore, by dsimp only; omega⟩
  · intro scan' hs' _ _ _ _
    obtain ⟨rfl, _⟩ := hscan' scan' hs'
    trivial

/-- A thread looks at one more queue. -/
theorem continueScan (h : s.Inv least) {now : Nat}
    (hs : s.continueScan now = some s') : s'.Inv least := by
  obtain ⟨scan, hscan, hs⟩ := bind_eq_some_iff.mp hs
  obtain ⟨r, hr, hs⟩ := bind_eq_some_iff.mp hs
  obtain ⟨c, hc, hs⟩ := bind_eq_some_iff.mp hs
  have hobs := h.observed scan hscan r c hr hc
  have hvisited : ∀ {r₁ : Nat} {c₁ : Cell τ}, s.queues[s.nextQueueToSchedule]? = some r₁ →
      s.cells[r₁]? = some c₁ → c₁ = c := by
    intro r₁ c₁ hr₁ hc₁
    cases some.inj (hr.symm.trans hr₁)
    exact some.inj (hc₁.symm.trans hc)
  split at hs
  · cases hs
    refine h.setStage hscan (.pull c.queue.closed) ?_
    intro r₁ c₁ hr₁ hc₁ hclosed
    rw [hvisited hr₁ hc₁]
    exact hclosed
  · next queueClosed hstage =>
    cases hs
    rw [hstage] at hobs
    exact h.pull hscan hr hc hobs now
  · next queueClosed found hstage =>
    cases hs
    rw [hstage] at hobs
    refine h.setStage hscan (.advance _ found) ?_
    intro r₁ c₁ hr₁ hc₁ hdrop
    rw [hvisited hr₁ hc₁]
    simp only [Bool.and_eq_true] at hdrop
    exact ⟨hobs hdrop.1.1, hdrop.1.2⟩
  · next drop found hstage =>
    cases hs
    exact h.advance hscan hr drop found

/-- A thread takes its batch out of the list of batches and puts it back, or not. -/
theorem work_perm {w : Work τ} (hw : s.work[i]? = some w) :
    s.work.Perm (w :: s.work.eraseIdx i) := by
  obtain ⟨hlt, rfl⟩ := List.getElem?_eq_some_iff.mp hw
  exact (getElem_cons_eraseIdx_perm hlt).symm

/-- The other queues do not see the thread. -/
theorem others {work rest : List (Work τ)} {w : Work τ} (h : work.Perm (w :: rest)) {r' : Nat}
    (hne : w.queue ≠ r') :
    active rest r' = active work r' ∧ (waiting rest r').Perm (waiting work r') := by
  have hactive := active_perm h r'
  have hwaiting := waiting_perm h r'
  rw [active_cons_ne hne] at hactive
  rw [waiting_cons_neg fun hand => hne hand.1] at hwaiting
  exact ⟨hactive.symm, hwaiting.symm⟩

variable (h : s.Inv least)
include h

/-- The callback of a batch runs. -/
theorem callback (hs : s.callback i = some s') : s'.Inv least := by
  obtain ⟨w, hw, hs⟩ := bind_eq_some_iff.mp hs
  obtain ⟨c, hc, hs⟩ := bind_eq_some_iff.mp hs
  split at hs
  · next hphase =>
    cases hs
    have hperm := work_perm hw
    refine h.setCell hc _ ?_ ?_ ?_ ⟨fun hclosed => hclosed, fun _ hempty => hempty⟩
    · rw [waiting_cons_neg fun hand => hand.2 rfl]
      have hactive : active ({ w with phase := .called } :: s.work.eraseIdx i) w.queue =
          active s.work w.queue := by
        rw [active_cons_self rfl, active_perm hperm, active_cons_self rfl]
      rw [hactive]
      refine ((h.good hc).perm ?_).hand
      rw [← waiting_cons_pos rfl (by rw [hphase]; exact Phase.noConfusion)]
      exact waiting_perm hperm.symm _
    · intro r' hne
      rw [active_cons_ne (w := { w with phase := .called }) hne,
        waiting_cons_neg (w := { w with phase := .called }) fun hand => hne hand.1]
      exact others hperm hne
    · intro w' hw'
      rcases mem_cons.mp hw' with rfl | hw'
      · exact (List.getElem?_eq_some_iff.mp hc).1
      · exact h.owned w' (mem_of_mem_eraseIdx hw')
  · cases hs

/-- A batch is finished. -/
theorem finish (hs : s.finish i = some s') : s'.Inv least := by
  obtain ⟨w, hw, hs⟩ := bind_eq_some_iff.mp hs
  obtain ⟨c, hc, hs⟩ := bind_eq_some_iff.mp hs
  split at hs
  · next hphase =>
    cases hs
    have hperm := work_perm hw
    have hgood : c.Good least (active (s.work.eraseIdx i) w.queue + 1)
        (waiting (s.work.eraseIdx i) w.queue) := by
      rw [← active_cons_self rfl, ← active_perm hperm]
      refine (h.good hc).perm ?_
      rw [← waiting_cons_neg fun hand => hand.2 hphase]
      exact waiting_perm hperm.symm _
    refine h.setCell hc _ hgood.finish (fun r' hne => others hperm hne) ?_ ?_
    · exact fun w' hw' => h.owned w' (mem_of_mem_eraseIdx hw')
    · refine ⟨?_, fun _ hempty => ?_⟩
      · unfold Queue.finishBatch
        dsimp only
        split <;> exact fun hclosed => hclosed
      · obtain ⟨full, last, hbatches, _⟩ := hgood.bounded.formed
        have hzero := ((Queue.isEmptyInternal_iff hbatches).mp hempty).1
        rw [hgood.processed] at hzero
        omega
  · cases hs

end Inv

/-! ## Every interleaving -/

/-- Queues are added with room for at least one task and one batch. -/
def Move.Allowed : Move τ → Prop
  | .addQueue options => 1 ≤ options.maxBatchSize ∧ 1 ≤ options.maxEnqueuedBatches
  | _ => True

instance : ∀ m : Move τ, Decidable m.Allowed
  | .addQueue _ => inferInstanceAs (Decidable (_ ∧ _))
  | .schedule _ _ _ _ | .close _ | .beginScan | .continueScan _ | .callback _ | .finish _ =>
    isTrue trivial

variable {least : Int} {s s' : SharedBatchScheduler τ} {m : Move τ}

/-- Every move keeps the invariant. -/
theorem Inv.step (h : s.Inv least)
    (hm : ∀ options, m = .addQueue options → options.validate.code = .ok →
      least ≤ options.maxEnqueuedBatches) (hs : s.step m = some s') : s'.Inv least := by
  cases m with
  | addQueue options => exact h.addQueue (hm options rfl) hs
  | schedule r task now later => exact h.schedule hs
  | close r => exact h.close hs
  | beginScan => exact h.beginScan hs
  | continueScan now => exact h.continueScan hs
  | callback i => exact h.callback hs
  | finish i => exact h.finish hs

/-- A queue that is closed, without tasks, and of which no thread has a batch. -/
structure Removable (s : SharedBatchScheduler τ) (r : Nat) (c : Cell τ) : Prop where
  closed : c.queue.closed = true
  empty : ∀ b ∈ c.queue.batches, b.tasks = []
  processed : c.queue.numBatchesBeingProcessed = 0
  unused : ∀ w ∈ s.work, w.queue ≠ r

/-- The queue that the scan drops is removable. -/
theorem Inv.removable (h : s.Inv least) {r : Nat} {c : Cell τ}
    (hc : s.cells[r]? = some c) (hclosed : c.queue.closed = true)
    (hempty : c.queue.isEmptyInternal = true) : s.Removable r c := by
  have hgood := h.good hc
  obtain ⟨full, last, hbatches, _⟩ := hgood.bounded.formed
  obtain ⟨hzero, rfl, hlast⟩ := (Queue.isEmptyInternal_iff hbatches).mp hempty
  refine ⟨hclosed, ?_, hzero, ?_⟩
  · intro b hb
    rw [hbatches] at hb
    rw [mem_singleton.mp hb]
    exact hlast
  · refine active_eq_zero.mp ?_
    rw [hgood.processed] at hzero
    exact Int.natCast_eq_zero.mp hzero

/-- Only a scan takes queues out of the list. -/
theorem queues_subset_of_step
    (hm : ∀ now, m ≠ .continueScan now) (hs : s.step m = some s') : s.queues ⊆ s'.queues := by
  cases m with
  | addQueue options =>
    change s.addQueue options = some s' at hs
    unfold addQueue at hs
    split at hs
    · cases hs
      exact List.Subset.refl _
    · split at hs
      · cases hs
      · cases hs
        exact subset_append_left _ _
  | schedule _ _ _ _ | close _ =>
    obtain ⟨c, _, hs⟩ := bind_eq_some_iff.mp hs
    split at hs <;> cases hs
    exact List.Subset.refl _
  | beginScan =>
    change s.beginScan = some s' at hs
    unfold beginScan at hs
    split at hs
    · cases hs
    · split at hs <;> cases hs <;> exact List.Subset.refl _
  | continueScan now => exact absurd rfl (hm now)
  | callback i | finish i =>
    obtain ⟨w, _, hs⟩ := bind_eq_some_iff.mp hs
    obtain ⟨c, _, hs⟩ := bind_eq_some_iff.mp hs
    split at hs <;> cases hs
    exact List.Subset.refl _

/-- A queue leaves the list only when it is removable. -/
theorem Inv.removed (h : s.Inv least)
    (hs : s.step m = some s') {r : Nat} (hr : r ∈ s.queues) (hr' : r ∉ s'.queues) :
    ∃ c, s.cells[r]? = some c ∧ s.Removable r c := by
  by_cases hm : ∀ now, m ≠ .continueScan now
  · exact absurd (queues_subset_of_step hm hs hr) hr'
  obtain ⟨now, rfl⟩ : ∃ now, m = .continueScan now := by
    by_contra hne
    exact hm fun now hnow => hne ⟨now, hnow⟩
  obtain ⟨scan, hscan, hs⟩ := bind_eq_some_iff.mp hs
  obtain ⟨r₁, hr₁, hs⟩ := bind_eq_some_iff.mp hs
  obtain ⟨c, hc, hs⟩ := bind_eq_some_iff.mp hs
  have hobs := h.observed scan hscan r₁ c hr₁ hc
  split at hs
  · cases hs
    exact absurd hr hr'
  · cases hs
    refine absurd ?_ hr'
    unfold SharedBatchScheduler.pull
    split <;> exact hr
  · cases hs
    exact absurd hr hr'
  · next drop found hstage =>
    cases hs
    cases drop with
    | false => exact absurd hr hr'
    | true =>
      rw [hstage] at hobs
      obtain ⟨hclosed, hempty⟩ := hobs rfl
      -- the erased position is the only one that holds the queue
      have heq : r = r₁ := by
        by_contra hne
        refine hr' ?_
        refine mem_eraseIdx_iff_getElem?.mpr ?_
        obtain ⟨i, hi⟩ := mem_iff_getElem?.mp hr
        refine ⟨i, fun hin => hne ?_, hi⟩
        rw [hin, hr₁] at hi
        exact (some.inj hi).symm
      subst heq
      exact ⟨c, hc, h.removable hc hclosed hempty⟩

end SharedBatchScheduler

/-- What the batches of a queue and the calls of its callback owe to the accepted tasks. -/
structure Cell.Orderly (c : Cell τ) (waiting : List (Batch τ)) : Prop where
  /-- The batches taken from the queue and those in it, task by task, are the accepted tasks. -/
  tasks : (c.pulled ++ c.queue.batches).flatMap Batch.tasks = c.accepted
  /-- The batches taken have been passed to the callback once, or wait for it. -/
  handed : (c.handed ++ waiting).Perm c.pulled
  /-- Batches passed to the callback are closed, have tasks, and fit. -/
  sound : ∀ b ∈ c.handed, b.closed = true ∧ b.tasks ≠ [] ∧
    ((b.tasks.map BatchTask.size).sum : Int) ≤ c.queue.options.maxBatchSize
  /-- The number of batches is bounded. -/
  few : 1 ≤ c.queue.batches.length ∧
    (c.queue.batches.length : Int) ≤ c.queue.options.maxEnqueuedBatches
  /-- Exactly the last batch is open. -/
  lastOpen : ∃ full last, c.queue.batches = full ++ [last] ∧
    (∀ b ∈ full, b.closed = true) ∧ last.closed = false
  /-- The thread that waits for the queue to become empty is woken once. -/
  notified : c.queue.notified ≤ 1

/-- The tasks of a queue are in order. -/
theorem Cell.Good.orderly {c : Cell τ} {active : Nat} {waiting : List (Batch τ)}
    (h : c.Good 1 active waiting) : c.Orderly waiting := by
  obtain ⟨full, last, hbatches, hf⟩ := h.bounded.formed
  refine ⟨h.tasks, h.handed, ?_, ⟨?_, h.bounded.few.trans (max_le h.bounded.least le_rfl)⟩,
    ⟨full, last, hbatches, fun b hb => (hf.sendable b hb).closed, hf.isOpen⟩, ?_⟩
  · intro b hb
    have hsend := h.sendable b (h.handed.subset (mem_append_left _ hb))
    exact ⟨hsend.closed, hsend.nonempty, b.size_eq ▸ hsend.fits⟩
  · rw [hbatches, length_append]
    exact Nat.le_add_left 1 full.length
  · rcases h.notified with hzero | ⟨hone, _⟩ <;> omega

namespace SharedBatchScheduler

/-- The scheduler between two sections. -/
structure Safe (s : SharedBatchScheduler τ) : Prop where
  /-- The tasks of every queue are conserved. -/
  orderly : ∀ (r : Nat) (c : Cell τ), s.cells[r]? = some c → c.Orderly (waiting s.work r)
  /-- A rejected task stays with the caller, and nothing changes. -/
  rejected : ∀ (r : Nat) (c : Cell τ) (task : τ) (now later : Nat), s.cells[r]? = some c →
    (c.queue.schedule task now later).1.code ≠ .ok →
      (c.queue.schedule task now later).2 = (some task, c.queue) ∧
        ∀ s', s.step (.schedule r task now later) = some s' → s' = s
  /-- A queue leaves the list only when nothing is left to do for it. -/
  removed : ∀ (m : Move τ) (s' : SharedBatchScheduler τ) (r : Nat),
    s.step m = some s' → r ∈ s.queues → r ∉ s'.queues →
    ∃ c, s.cells[r]? = some c ∧ s.Removable r c

/-- A rejected task changes nothing. -/
theorem Inv.rejected {least : Int} {s : SharedBatchScheduler τ} (h : s.Inv least) {r : Nat}
    {c : Cell τ} {task : τ} {now later : Nat} (hc : s.cells[r]? = some c)
    (hcode : (c.queue.schedule task now later).1.code ≠ .ok) :
    (c.queue.schedule task now later).2 = (some task, c.queue) ∧
      ∀ s', s.step (.schedule r task now later) = some s' → s' = s := by
  have hgood := h.good hc
  obtain ⟨full, last, hbatches, hf⟩ := hgood.bounded.formed
  rcases Queue.schedule_cases hbatches hf
    (by have := hgood.bounded.positive; omega) task now later with
    ⟨status, hstatus, heq⟩ | ⟨q', heq, _⟩
  · refine ⟨by rw [heq], ?_⟩
    intro s' hs
    obtain ⟨c₁, hc₁, hs⟩ := bind_eq_some_iff.mp hs
    cases some.inj (hc.symm.trans hc₁)
    split at hs
    · cases hs
    · rw [heq] at hs
      cases hs
      obtain ⟨hlt, rfl⟩ := List.getElem?_eq_some_iff.mp hc
      rw [if_neg hstatus, SharedBatchScheduler.setCell, set_getElem_self]
  · rw [heq] at hcode
    exact absurd rfl hcode

/-- The invariant implies safety. -/
theorem Inv.safe {s : SharedBatchScheduler τ} (h : s.Inv 1) : s.Safe where
  orderly _ _ hc := (h.good hc).orderly
  rejected _ _ _ _ _ hc hcode := h.rejected hc hcode
  removed _ _ _ hs hr hr' := h.removed hs hr hr'

/-- In every interleaving of submissions, pickups, completions and closings, tasks are
neither lost, duplicated nor reordered. -/
theorem tasksSafe_of_run {moves : List (Move τ)} (hm : ∀ m ∈ moves, m.Allowed)
    {s : SharedBatchScheduler τ} (hr : run step initial moves = some s) : s.Safe := by
  have hadm : Admissible step (fun _ m => m.Allowed) initial moves :=
    admissible_of_mem (fun m hmem _ => hm m hmem) initial
  have hstep : ∀ (s : SharedBatchScheduler τ) m s', s.Inv 1 → m.Allowed → s.step m = some s' →
      s'.Inv 1 := by
    intro s m s' h hm hs
    refine h.step ?_ hs
    rintro options rfl -
    exact hm.2
  exact (run_invariant hstep inv_initial hadm hr).safe

/-- Tasks that are nothing but their size. -/
instance : BatchTask Nat := ⟨fun n => n⟩

/-- Two batches are formed, one task too many and one too large are rejected, and the queue
is closed while its first batch is being processed. -/
def twoBatches : List (Move Nat) :=
  [.addQueue ⟨3, 10, 2⟩, .schedule 0 2 0 0, .schedule 0 0 1 1, .schedule 0 2 2 2,
    .schedule 0 3 3 3, .schedule 0 4 4 4, .beginScan, .continueScan 5, .continueScan 5,
    .continueScan 5, .continueScan 5, .callback 0, .close 0, .finish 0, .beginScan,
    .continueScan 6, .continueScan 6, .continueScan 6, .continueScan 6, .callback 0, .finish 0,
    .beginScan, .continueScan 7, .continueScan 7, .continueScan 7, .continueScan 7]

/-- Both batches are processed and the queue is gone. -/
theorem safe_twoBatches : ∃ s, run step initial twoBatches = some s ∧ s.queues = [] ∧
    (s.cells.map fun c => (c.accepted, c.handed.map Batch.tasks, c.queue.notified)) =
      [([2, 0, 2], [[2, 0], [2]], 1)] ∧ s.Safe := by
  refine ⟨_, rfl, rfl, rfl, ?_⟩
  exact tasksSafe_of_run (show ∀ m ∈ twoBatches, m.Allowed by decide) rfl

end SharedBatchScheduler

end Tension.Batching
