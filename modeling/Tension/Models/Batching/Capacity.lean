import Tension.Models.Batching.Conservation

/-!
# The scheduling capacity of a queue

`SchedulingCapacity` promises how many tasks of size one a queue will accept. It counts the
batches that may still be enqueued in the type `int`, also for a queue that may not enqueue any.
-/

namespace Tension.Batching

open Run List Option

variable {τ : Type} [BatchTask τ]

/-- The value of an expression of type `int`, unless it overflows. -/
def intValue (x : Int) : Option Int := if -2 ^ 31 ≤ x ∧ x < 2 ^ 31 then some x else none

theorem QueueOptions.nonneg_of_validate {options : QueueOptions}
    (h : options.validate.code = .ok) : 0 ≤ options.maxEnqueuedBatches := by
  by_contra hneg
  unfold validate at h
  split at h
  · cases h
  · split at h
    · cases h
    · rw [if_pos (by omega)] at h
      cases h

namespace Queue

variable {q : Queue τ} {task : τ}

/-- `Queue::SchedulingCapacity`. -/
def schedulingCapacity (q : Queue τ) : Option Nat :=
  let numNewBatchesSchedulable := q.options.maxEnqueuedBatches - q.batches.length
  let openBatchCapacity := q.options.maxBatchSize - q.back.size
  (intValue (numNewBatchesSchedulable * q.options.maxBatchSize)).bind fun product =>
    (intValue (product + openBatchCapacity)).map fun capacity => (capacity % 2 ^ 64).toNat

theorem schedulingCapacity_eq_some {product capacity : Int} {n : Nat}
    (hproduct : (q.options.maxEnqueuedBatches - q.batches.length) *
      q.options.maxBatchSize = product)
    (hcapacity : product + (q.options.maxBatchSize - q.back.size) = capacity) :
    q.schedulingCapacity = some n ↔ (-2 ^ 31 ≤ product ∧ product < 2 ^ 31) ∧
      (-2 ^ 31 ≤ capacity ∧ capacity < 2 ^ 31) ∧ (capacity % 2 ^ 64).toNat = n := by
  rw [schedulingCapacity, hproduct, intValue]
  split
  · next hfits =>
    rw [bind_some, hcapacity, intValue, and_iff_right hfits]
    split
    · next hfits => rw [and_iff_right hfits, map_some, some.injEq]
    · next hover => simp only [hover, false_and, map_none, reduceCtorEq]
  · next hover => simp only [hover, false_and, bind_none, reduceCtorEq]

/-- Consecutive calls of `Schedule` with their times all return OK. -/
def acceptsAll : Queue τ → List (τ × Nat × Nat) → Bool
  | _, [] => true
  | q, (task, now, later) :: calls =>
    (q.schedule task now later).1.code = .ok && (q.schedule task now later).2.2.acceptsAll calls

/-- The capacity is the largest number of tasks of size one that are all accepted. -/
def CapacityExact (q : Queue τ) : Prop :=
  ∃ capacity, q.schedulingCapacity = some capacity ∧
    ∀ calls : List (τ × Nat × Nat), (∀ call ∈ calls, BatchTask.size call.1 = 1) →
      (q.acceptsAll calls = true ↔ calls.length ≤ capacity)

/-- How many tasks of size one fit into the open batch and the batches that may be enqueued. -/
def room (q : Queue τ) : Nat :=
  (q.options.maxEnqueuedBatches.toNat - q.batches.length) * q.options.maxBatchSize.toNat +
    (q.options.maxBatchSize.toNat - q.back.size)

theorem room_eq {full : List (Batch τ)} {last : Batch τ} (h : q.batches = full ++ [last]) :
    q.room = (q.options.maxEnqueuedBatches.toNat - (full.length + 1)) *
      q.options.maxBatchSize.toNat + (q.options.maxBatchSize.toNat - last.size) := by
  rw [room, back_eq h, h, length_append, length_singleton]

variable {least : Int}

/-- A task of size one is accepted exactly if there is room, and takes one place. -/
theorem schedule_one (h : q.options.Bounded least q.batches) (hone : BatchTask.size task = 1)
    (now later : Nat) : (q.schedule task now later).1.code ≠ .ok ∧ q.room = 0 ∨
      (q.schedule task now later).1.code = .ok ∧
        (q.schedule task now later).2.2.room + 1 = q.room := by
  have hpos := h.positive
  obtain ⟨full, last, hbatches, hf⟩ := h.formed
  have hsize : ∀ b : Batch τ, (b.addTask task).size = b.size + 1 :=
    fun b => congrArg (b.size + ·) hone
  rw [room_eq hbatches]
  unfold Queue.schedule
  rw [back_eq hbatches, if_neg (by omega), hbatches, length_append, length_singleton]
  split
  · split
    · refine .inl ⟨by simp, ?_⟩
      rw [Nat.sub_eq_zero_of_le (by omega)]
      omega
    · refine .inr ⟨rfl, ?_⟩
      rw [room_eq (batches_addTask (batches_startNewBatch hbatches) task now later), hsize,
        (frame_addTask _ task now later).options, length_append, length_singleton]
      obtain ⟨k, hk⟩ : ∃ k, q.options.maxEnqueuedBatches.toNat - (full.length + 1) = k + 1 :=
        Nat.exists_eq_succ_of_ne_zero (by omega)
      have hk' : q.startNewBatch.options.maxEnqueuedBatches.toNat - (full.length + 1 + 1) = k := by
        exact congrArg Nat.pred hk
      rw [hk, hk', Nat.succ_mul]
      show k * q.options.maxBatchSize.toNat + (q.options.maxBatchSize.toNat - 1) + 1 = _
      omega
  · refine .inr ⟨rfl, ?_⟩
    rw [room_eq (batches_addTask hbatches task now later), hsize,
      (frame_addTask _ task now later).options]
    omega

/-- As many tasks of size one are accepted as there is room for. -/
theorem acceptsAll_iff (h : q.options.Bounded least q.batches) {calls : List (τ × Nat × Nat)}
    (hone : ∀ call ∈ calls, BatchTask.size call.1 = 1) :
    q.acceptsAll calls = true ↔ calls.length ≤ q.room := by
  induction calls generalizing q with
  | nil => simp [acceptsAll]
  | cons call calls ih =>
    obtain ⟨task, now, later⟩ := call
    rw [forall_mem_cons] at hone
    obtain ⟨full, last, hbatches, hf⟩ := h.formed
    have hnext := schedule_cases hbatches hf (by have := h.positive; omega) task now later
    rw [acceptsAll, Bool.and_eq_true, decide_eq_true_iff, length_cons]
    rcases schedule_one h (show BatchTask.size task = 1 from hone.1) now later with
      ⟨hbad, hroom⟩ | ⟨hok, hroom⟩
    · rw [iff_false_intro hbad, hroom]
      simp
    · obtain ⟨q', heq, hq⟩ := hnext.resolve_left fun ⟨status, hbad, heq⟩ =>
        hbad ((congrArg (fun r => r.1.code) heq).symm.trans hok)
      rw [heq] at hroom ⊢
      dsimp only at hroom ⊢
      rw [ih (hq.bounded h) hone.2, iff_true_intro Status.code_ok, true_and]
      omega

/-- The formula of the capacity is the room if it does not start from a negative number of batches
and does not overflow. -/
theorem schedulingCapacity_eq_room (h : q.options.Bounded 0 q.batches) :
    q.schedulingCapacity = some q.room ↔ 1 ≤ q.options.maxEnqueuedBatches ∧
      (q.options.maxEnqueuedBatches - q.batches.length) * q.options.maxBatchSize +
        (q.options.maxBatchSize - q.back.size) < 2 ^ 31 := by
  have hpos := h.positive
  have hfew := h.few
  obtain ⟨full, last, hbatches, hf⟩ := h.formed
  have hfits := hf.fits
  have hlength : q.batches.length = full.length + 1 := by rw [hbatches, length_append]; rfl
  have hnonneg := h.least
  obtain ⟨m, hm⟩ := Int.eq_ofNat_of_zero_le (show 0 ≤ q.options.maxBatchSize by omega)
  rw [schedulingCapacity_eq_some rfl rfl, room_eq hbatches, back_eq hbatches, hlength, hm,
    Int.toNat_natCast]
  rcases Int.lt_or_le q.options.maxEnqueuedBatches 1 with hzero | hone
  · -- one batch is more than the queue may enqueue
    obtain ⟨hmax, hfull⟩ : q.options.maxEnqueuedBatches = 0 ∧ full.length = 0 := by omega
    rw [hmax, hfull, Int.toNat_zero]
    omega
  · obtain ⟨k, hk⟩ := Int.eq_ofNat_of_zero_le
      (show 0 ≤ q.options.maxEnqueuedBatches - (full.length + 1 : Nat) by omega)
    have hk' : q.options.maxEnqueuedBatches.toNat - (full.length + 1) = k := by omega
    rw [hk, hk', ← Nat.cast_mul]
    omega

end Queue

namespace SharedBatchScheduler

/-- In every reachable state the capacity of a queue is exact if and only if the queue may enqueue
a batch at all and the number fits into an `int`. -/
theorem capacityExact_iff {moves : List (Move τ)} {s : SharedBatchScheduler τ}
    (hr : run step initial moves = some s) {c : Cell τ} (hc : c ∈ s.cells) {task : τ}
    (hone : BatchTask.size task = 1) :
    c.queue.CapacityExact ↔ 1 ≤ c.queue.options.maxEnqueuedBatches ∧
      (c.queue.options.maxEnqueuedBatches - c.queue.batches.length) * c.queue.options.maxBatchSize +
        (c.queue.options.maxBatchSize - c.queue.back.size) < 2 ^ 31 := by
  have hinv : s.Inv 0 := run_invariant (I := fun s => s.Inv 0)
    (fun _ _ _ h _ hs => h.step (fun _ _ => QueueOptions.nonneg_of_validate) hs) inv_initial
    (admissible_of_forall (fun _ _ => trivial) initial moves) hr
  obtain ⟨r, hc⟩ := getElem?_of_mem hc
  have h := (hinv.good hc).bounded
  rw [← Queue.schedulingCapacity_eq_room h]
  refine ⟨?_, fun heq => ⟨_, heq, fun calls => Queue.acceptsAll_iff h⟩⟩
  rintro ⟨capacity, heq, hexact⟩
  have hlength : ∀ n, n ≤ capacity ↔ n ≤ c.queue.room := by
    intro n
    have hones : ∀ call ∈ replicate n (task, 0, 0), BatchTask.size call.1 = 1 := by
      intro call hcall
      rw [eq_of_mem_replicate hcall]
      exact hone
    have hiff := (hexact _ hones).symm.trans (Queue.acceptsAll_iff h hones)
    rwa [length_replicate] at hiff
  rw [heq, some.injEq]
  exact le_antisymm ((hlength _).mp le_rfl) ((hlength _).mpr le_rfl)

/-- A queue with a task in its open batch. -/
def openBatch : List (Move Nat) := [.addQueue ⟨3, 10, 2⟩, .schedule 0 2 0 0]

/-- There is room for the rest of the open batch and for another one. -/
theorem capacityExact_openBatch : ∃ s, run step initial openBatch = some s ∧
      ∀ c ∈ s.cells, c.queue.schedulingCapacity = some 4 ∧ c.queue.CapacityExact := by
  refine ⟨_, rfl, fun c hc => ?_⟩
  have hiff := capacityExact_iff (show run step initial openBatch = some _ from rfl) hc
    (show BatchTask.size (1 : Nat) = 1 from rfl)
  obtain rfl := mem_singleton.mp hc
  exact ⟨rfl, hiff.mpr (by decide)⟩

/-- A queue that may enqueue no batch accepts a task, although its capacity is zero. -/
theorem capacity_noBatches :
    ∃ s : SharedBatchScheduler Nat, run step initial [.addQueue ⟨1, 0, 0⟩] = some s ∧
      ∀ c ∈ s.cells, c.queue.schedulingCapacity = some 0 ∧
        (c.queue.schedule (1 : Nat) 0 0).1 = .ok ∧ ¬ c.queue.CapacityExact := by
  refine ⟨_, rfl, fun c hc => ?_⟩
  obtain rfl := mem_singleton.mp hc
  refine ⟨rfl, rfl, ?_⟩
  rintro ⟨capacity, heq, hexact⟩
  cases heq
  exact absurd ((hexact [((1 : Nat), 0, 0)] (by decide)).mp rfl) (by decide)

end SharedBatchScheduler

end Tension.Batching
