import Mathlib.Data.List.Perm.Basic
import Tension.Models.Batching.SharedBatchScheduler

/-!
# What a queue keeps

A queue holds full batches that are ready to be sent and, behind them, one open batch.
Together with the batches already taken from it they spell out the accepted tasks.
-/

namespace Tension.Batching

open List

variable {τ : Type} [BatchTask τ]

/-- A batch that may be passed to the callback of a queue with these options. -/
structure QueueOptions.Sendable (options : QueueOptions) (b : Batch τ) : Prop where
  closed : b.closed = true
  nonempty : b.tasks ≠ []
  fits : (b.size : Int) ≤ options.maxBatchSize

/-- The batches of a queue: sendable ones and an open one at the back. -/
structure QueueOptions.Formed (options : QueueOptions) (full : List (Batch τ)) (last : Batch τ) :
    Prop where
  sendable : ∀ b ∈ full, options.Sendable b
  isOpen : last.closed = false
  fits : (last.size : Int) ≤ options.maxBatchSize

/-- The batches of a queue that may enqueue at least a number of them. The open batch of a queue
that may enqueue none is one too many. -/
structure QueueOptions.Bounded (options : QueueOptions) (least : Int) (batches : List (Batch τ)) :
    Prop where
  positive : 1 ≤ options.maxBatchSize
  least : least ≤ options.maxEnqueuedBatches
  formed : ∃ full last, batches = full ++ [last] ∧ options.Formed full last
  few : (batches.length : Int) ≤ max 1 options.maxEnqueuedBatches

/-- All tasks of a list of batches, in order. -/
def tasksOf (batches : List (Batch τ)) : List τ := batches.flatMap Batch.tasks

@[simp] theorem tasksOf_nil : tasksOf ([] : List (Batch τ)) = [] := rfl

@[simp] theorem tasksOf_cons (b : Batch τ) (bs : List (Batch τ)) :
    tasksOf (b :: bs) = b.tasks ++ tasksOf bs := rfl

@[simp] theorem tasksOf_append (bs cs : List (Batch τ)) :
    tasksOf (bs ++ cs) = tasksOf bs ++ tasksOf cs := flatMap_append

namespace Batch

@[simp] theorem tasks_new : (new : Batch τ).tasks = [] := rfl

@[simp] theorem tasks_close (b : Batch τ) : b.close.tasks = b.tasks := rfl

@[simp] theorem tasks_addTask (b : Batch τ) (task : τ) :
    (b.addTask task).tasks = b.tasks ++ [task] := rfl

theorem empty_iff {b : Batch τ} : b.empty = true ↔ b.tasks = [] := isEmpty_iff

/-- A batch without tasks has size zero. -/
theorem tasks_ne_nil_of_size_pos {b : Batch τ} (h : 0 < b.size) : b.tasks ≠ [] := by
  intro hnil
  rw [b.size_eq, hnil] at h
  exact lt_irrefl 0 h

end Batch

/-- Closing an open batch that has tasks makes it sendable. -/
theorem QueueOptions.Formed.startNewBatch {options : QueueOptions} {full : List (Batch τ)}
    {last : Batch τ} (hf : options.Formed full last) (hne : last.tasks ≠ [])
    (hpos : 0 ≤ options.maxBatchSize) : options.Formed (full ++ [last.close]) .new where
  sendable := forall_mem_append.mpr ⟨hf.sendable, forall_mem_singleton.mpr ⟨rfl, hne, hf.fits⟩⟩
  isOpen := rfl
  fits := hpos

namespace Queue

variable {q : Queue τ} {full : List (Batch τ)} {last : Batch τ}

section

variable (h : q.batches = full ++ [last])
include h

theorem back_eq : q.back = last := by
  rw [back, h, getLastD_concat]

theorem batches_setBack (b : Batch τ) : (q.setBack b).batches = full ++ [b] := by
  rw [setBack, h, dropLast_concat]

theorem batches_startNewBatch : q.startNewBatch.batches = (full ++ [last.close]) ++ [.new] := by
  rw [startNewBatch, back_eq h, h, dropLast_concat, append_assoc]
  rfl

end

/-- Only the batches, the start time and the flag that a batch is schedulable differ. -/
structure Frame (q q' : Queue τ) : Prop where
  options : q'.options = q.options
  closed : q'.closed = q.closed
  processed : q'.numBatchesBeingProcessed = q.numBatchesBeingProcessed
  emptyNotification : q'.emptyNotification = q.emptyNotification
  notified : q'.notified = q.notified

theorem Frame.trans {q q' q'' : Queue τ} (h : Frame q q') (h' : Frame q' q'') : Frame q q'' where
  options := h'.options.trans h.options
  closed := h'.closed.trans h.closed
  processed := h'.processed.trans h.processed
  emptyNotification := h'.emptyNotification.trans h.emptyNotification
  notified := h'.notified.trans h.notified

theorem frame_addTask (q : Queue τ) (task : τ) (now later : Nat) :
    Frame q (q.addTask task now later) := by
  unfold addTask setBack
  dsimp only
  constructor <;> split <;> split <;> rfl

theorem batches_addTask (h : q.batches = full ++ [last]) (task : τ) (now later : Nat) :
    (q.addTask task now later).batches = full ++ [last.addTask task] := by
  have hset : ∀ {q' : Queue τ}, q'.batches = full ++ [last] →
      (q'.setBack (q'.back.addTask task)).batches = full ++ [last.addTask task] := by
    intro q' hq'
    rw [batches_setBack hq', back_eq hq']
  unfold addTask
  dsimp only
  split <;> split <;> exact hset h

/-- The queue after it has accepted a task. -/
structure Accepted (q : Queue τ) (task : τ) (q' : Queue τ) : Prop where
  frame : Frame q q'
  formed : ∃ full last, q'.batches = full ++ [last] ∧ q.options.Formed full last
  few : (q'.batches.length : Int) ≤ max (q.batches.length : Int) q.options.maxEnqueuedBatches
  tasks : tasksOf q'.batches = tasksOf q.batches ++ [task]

theorem Accepted.bounded {task : τ} {q' : Queue τ} {least : Int} (hq : Accepted q task q')
    (h : q.options.Bounded least q.batches) : q'.options.Bounded least q'.batches :=
  hq.frame.options ▸
    ⟨h.positive, h.least, hq.formed, hq.few.trans (max_le h.few (le_max_right _ _))⟩

section

variable (h : q.batches = full ++ [last]) (hf : q.options.Formed full last)
include h hf

/-- A task that fits into the open batch is added to it. -/
theorem accepted_addTask {task : τ}
    (hfits : ((last.size + BatchTask.size task : Nat) : Int) ≤ q.options.maxBatchSize)
    (now later : Nat) : Accepted q task (q.addTask task now later) where
  frame := frame_addTask q task now later
  formed := ⟨full, last.addTask task, batches_addTask h task now later,
    hf.sendable, hf.isOpen, hfits⟩
  few := by
    rw [batches_addTask h, h, length_append, length_append]
    exact le_max_left _ _
  tasks := by
    rw [batches_addTask h, h]
    simp

/-- `Schedule` accepts the task, or leaves the task and the queue as they are. -/
theorem schedule_cases (hpos : 0 ≤ q.options.maxBatchSize) (task : τ) (now later : Nat) :
    (∃ status, status.code ≠ .ok ∧ q.schedule task now later = (status, some task, q)) ∨
      ∃ q', q.schedule task now later = (.ok, none, q') ∧ Accepted q task q' := by
  unfold schedule
  rw [back_eq h]
  split
  · exact .inl ⟨_, by simp, rfl⟩
  · split
    · split
      · exact .inl ⟨_, by simp, rfl⟩
      · next hroom =>
        -- the open batch has tasks, since the task alone would fit
        have hne : last.tasks ≠ [] := Batch.tasks_ne_nil_of_size_pos (by omega)
        have hstart := batches_startNewBatch h
        have hfits : (((.new : Batch τ).size + BatchTask.size task : Nat) : Int) ≤
            q.options.maxBatchSize := by
          show ((0 + BatchTask.size task : Nat) : Int) ≤ q.options.maxBatchSize
          omega
        have hadd := accepted_addTask hstart (hf.startNewBatch hne hpos)
          hfits now later
        have hframe : Frame q q.startNewBatch := ⟨rfl, rfl, rfl, rfl, rfl⟩
        refine .inr ⟨_, rfl, hframe.trans hadd.frame, hadd.formed, ?_, ?_⟩
        · refine hadd.few.trans (max_le ?_ (le_max_right _ _))
          have hlength : q.startNewBatch.batches.length = q.batches.length + 1 := by
            rw [hstart, h]
            simp
          omega
        · rw [hadd.tasks, hstart, h]
          simp
    · next hfits => exact .inr ⟨_, rfl, accepted_addTask h hf (by omega) now later⟩

end

/-- The queue after it has given a batch away. -/
structure Pulled (q : Queue τ) (b : Batch τ) (q' : Queue τ) : Prop where
  options : q'.options = q.options
  closed : q'.closed = q.closed
  processed : q'.numBatchesBeingProcessed = q.numBatchesBeingProcessed + 1
  emptyNotification : q'.emptyNotification = q.emptyNotification
  notified : q'.notified = q.notified
  sendable : q.options.Sendable b
  formed : ∃ full last, q'.batches = full ++ [last] ∧ q.options.Formed full last
  few : q'.batches.length ≤ q.batches.length
  tasks : tasksOf q.batches = b.tasks ++ tasksOf q'.batches

theorem Pulled.bounded {b : Batch τ} {q' : Queue τ} {least : Int} (hq : Pulled q b q')
    (h : q.options.Bounded least q.batches) : q'.options.Bounded least q'.batches :=
  hq.options ▸ ⟨h.positive, h.least, hq.formed, (Int.ofNat_le.mpr hq.few).trans h.few⟩

/-- A batch in front of the open one is given away. -/
theorem pulled_cons {b : Batch τ} (h : q.batches = (b :: full) ++ [last])
    (hf : q.options.Formed (b :: full) last) (now : Nat) :
    ∃ q', q.scheduleBatch now = (some b, q') ∧ Pulled q b q' := by
  have hrest : ∃ next rest, full ++ [last] = next :: rest := by
    cases full with
    | nil => exact ⟨last, [], rfl⟩
    | cons next rest => exact ⟨next, rest ++ [last], rfl⟩
  obtain ⟨next, rest, hrest⟩ := hrest
  have hbatches : q.batches = b :: next :: rest := by
    rw [h, cons_append, hrest]
  refine ⟨{ q with
    batches := next :: rest, numBatchesBeingProcessed := q.numBatchesBeingProcessed + 1 }, ?_, ?_⟩
  · have hlength : ¬(decide (q.batches.length = 1) && q.isOpenBatchSchedulable now) = true := by
      rw [hbatches]
      simp
    unfold scheduleBatch
    dsimp only
    rw [if_neg hlength, hbatches]
  · refine ⟨rfl, rfl, rfl, rfl, rfl, hf.sendable b mem_cons_self,
      ⟨full, last, hrest.symm, ⟨fun b' hb' => hf.sendable b' (mem_cons_of_mem _ hb'),
        hf.isOpen, hf.fits⟩⟩, ?_, ?_⟩
    · rw [hbatches]
      exact Nat.le_succ _
    · rw [hbatches]
      rfl

/-- A schedulable open batch without others in front is closed and given away. -/
theorem pulled_singleton (h : q.batches = [last]) (hf : q.options.Formed [] last)
    (hpos : 0 ≤ q.options.maxBatchSize) {now : Nat} (hs : q.isOpenBatchSchedulable now = true) :
    ∃ q', q.scheduleBatch now = (some last.close, q') ∧ Pulled q last.close q' := by
  have hback : q.back = last := back_eq (show q.batches = [] ++ [last] from h)
  have hne : last.tasks ≠ [] := by
    intro hnil
    rw [isOpenBatchSchedulable, hback, Batch.empty_iff.mpr hnil] at hs
    cases hs
  have hdue : (decide (q.batches.length = 1) && q.isOpenBatchSchedulable now) = true := by
    rw [h, hs]
    rfl
  have hstart : q.startNewBatch.batches = last.close :: .new :: [] :=
    batches_startNewBatch (show q.batches = [] ++ [last] from h)
  have hnew := hf.startNewBatch hne hpos
  refine ⟨{ q.startNewBatch with
    batches := [.new], numBatchesBeingProcessed := q.numBatchesBeingProcessed + 1 }, ?_, ?_⟩
  · unfold scheduleBatch
    dsimp only
    rw [if_pos hdue, hstart]
    rfl
  · refine ⟨rfl, rfl, rfl, rfl, rfl, hnew.sendable _ mem_cons_self,
      ⟨[], .new, rfl, nofun, rfl, hpos⟩, ?_, ?_⟩
    · rw [h]
      exact le_refl 1
    · rw [h]
      rfl

/-- `ScheduleBatch` of a queue with work gives a batch away, and otherwise only records that
no batch is schedulable. -/
theorem scheduleBatch_cases (h : q.batches = full ++ [last]) (hf : q.options.Formed full last)
    (hpos : 0 ≤ q.options.maxBatchSize) (now : Nat) :
    (∃ b q', q.scheduleBatch now = (some b, q') ∧ Pulled q b q') ∨
      q.scheduleBatch now = (none, { q with schedulableBatch := false }) := by
  cases full with
  | cons b full => exact .inl ⟨b, pulled_cons h hf now⟩
  | nil =>
    by_cases hs : q.isOpenBatchSchedulable now = true
    · exact .inl ⟨_, pulled_singleton h hf hpos hs⟩
    · refine .inr ?_
      unfold scheduleBatch
      dsimp only
      rw [if_neg fun hdue => hs (Bool.and_eq_true_iff.mp hdue).2, show q.batches = [last] from h]

theorem isEmptyInternal_iff (h : q.batches = full ++ [last]) : q.isEmptyInternal = true ↔
    q.numBatchesBeingProcessed = 0 ∧ full = [] ∧ last.tasks = [] := by
  rw [isEmptyInternal, back_eq h, h, Bool.and_eq_true, Bool.and_eq_true, decide_eq_true_iff,
    decide_eq_true_iff, Batch.empty_iff, length_append, length_singleton,
    Nat.add_eq_right, length_eq_zero_iff, and_assoc]

/-- A queue that gives a batch away had tasks, so that it was not empty. -/
theorem Pulled.tasks_ne_nil {b : Batch τ} {q' : Queue τ} (h : Pulled q b q') :
    tasksOf q.batches ≠ [] := by
  rw [h.tasks]
  exact append_ne_nil_of_left_ne_nil h.sendable.nonempty _

theorem isEmptyInternal_eq_false (h : q.batches = full ++ [last]) (hne : tasksOf q.batches ≠ []) :
    q.isEmptyInternal = false := by
  rw [← Bool.not_eq_true, isEmptyInternal_iff h]
  rintro ⟨_, rfl, hlast⟩
  rw [h] at hne
  exact hne (by simp [hlast])

end Queue

/-! ## Queues and what went through them -/

/-- What holds of a queue of which a number of batches is being processed, some of which
still wait for their callback. -/
structure Cell.Good (c : Cell τ) (least : Int) (active : Nat) (waiting : List (Batch τ)) :
    Prop where
  bounded : c.queue.options.Bounded least c.queue.batches
  tasks : tasksOf (c.pulled ++ c.queue.batches) = c.accepted
  sendable : ∀ b ∈ c.pulled, c.queue.options.Sendable b
  handed : (c.handed ++ waiting).Perm c.pulled
  processed : c.queue.numBatchesBeingProcessed = active
  closed : c.queue.emptyNotification = true → c.queue.closed = true
  notified : c.queue.notified = 0 ∨
    c.queue.notified = 1 ∧ c.queue.closed = true ∧ c.queue.isEmptyInternal = true

namespace Cell.Good

variable {c : Cell τ} {least : Int} {active : Nat} {waiting : List (Batch τ)}

/-- The order of the threads does not matter. -/
theorem perm (h : c.Good least active waiting) {waiting' : List (Batch τ)}
    (hw : waiting'.Perm waiting) :
    c.Good least active waiting' :=
  { h with handed := (hw.append_left c.handed).trans h.handed }

/-- A new queue. -/
theorem new {options : QueueOptions} (hsize : 1 ≤ options.maxBatchSize)
    (hmax : least ≤ options.maxEnqueuedBatches) :
    (⟨.new options, [], [], []⟩ : Cell τ).Good least 0 [] where
  bounded := ⟨hsize, hmax, ⟨[], .new, rfl, nofun, rfl, Int.le_trans Int.one_nonneg hsize⟩,
    le_max_left _ _⟩
  tasks := rfl
  sendable := nofun
  handed := .refl _
  processed := rfl
  closed := nofun
  notified := .inl rfl

section

variable (h : c.Good least active waiting)
include h

/-- A task is accepted while the queue is open. -/
theorem accept (hopen : c.queue.closed = false) {task : τ} {q' : Queue τ}
    (hq : Queue.Accepted c.queue task q') :
    ({ c with queue := q', accepted := c.accepted ++ [task] } : Cell τ).Good least active
      waiting where
  bounded := hq.bounded h.bounded
  tasks := by rw [tasksOf_append, hq.tasks, ← append_assoc, ← tasksOf_append, h.tasks]
  sendable := hq.frame.options ▸ h.sendable
  handed := h.handed
  processed := hq.frame.processed.trans h.processed
  closed hset := hq.frame.closed.trans (h.closed (hq.frame.emptyNotification.symm.trans hset))
  notified := by
    refine h.notified.elim (fun h₀ => .inl (hq.frame.notified.trans h₀)) fun ⟨_, hclosed, _⟩ => ?_
    rw [hopen] at hclosed
    cases hclosed

/-- A batch is taken by a thread. -/
theorem pull {b : Batch τ} {q' : Queue τ} (hq : Queue.Pulled c.queue b q') :
    ({ c with queue := q', pulled := c.pulled ++ [b] } : Cell τ).Good least (active + 1)
      (b :: waiting)
    where
  bounded := hq.bounded h.bounded
  tasks := by
    rw [← h.tasks, append_assoc, tasksOf_append, tasksOf_append c.pulled, hq.tasks]
    rfl
  sendable b' hb' := by
    rw [hq.options]
    rcases mem_append.mp hb' with hb' | hb'
    · exact h.sendable b' hb'
    · rw [mem_singleton.mp hb']
      exact hq.sendable
  handed := perm_middle.trans
    ((List.Perm.cons b h.handed).trans (perm_append_singleton b c.pulled).symm)
  processed := by
    rw [hq.processed, h.processed]
    rfl
  closed hset := hq.closed.trans (h.closed (hq.emptyNotification.symm.trans hset))
  notified := by
    refine h.notified.elim (fun h₀ => .inl (hq.notified.trans h₀)) fun ⟨_, _, hempty⟩ => ?_
    obtain ⟨full, last, hbatches, _⟩ := h.bounded.formed
    rw [Queue.isEmptyInternal_eq_false hbatches hq.tasks_ne_nil] at hempty
    cases hempty

/-- The flag that a batch is schedulable plays no part. -/
theorem decline :
    ({ c with queue := { c.queue with schedulableBatch := false } } : Cell τ).Good least active
      waiting :=
  { h with }

end

/-- A waiting batch is passed to the callback. -/
theorem hand {b : Batch τ} (h : c.Good least active (b :: waiting)) :
    ({ c with handed := c.handed ++ [b] } : Cell τ).Good least active waiting :=
  { h with handed := by simpa using h.handed }

/-- The queue is closed. -/
theorem close (h : c.Good least active waiting) (hopen : c.queue.closed = false) :
    ({ c with queue := c.queue.close } : Cell τ).Good least active waiting := by
  have hzero : c.queue.notified = 0 := by
    refine h.notified.elim (fun h₀ => h₀) fun ⟨_, hclosed, _⟩ => ?_
    rw [hopen] at hclosed
    cases hclosed
  unfold Queue.close
  dsimp only
  split
  · exact { h with closed := fun _ => rfl, notified := .inl hzero }
  · exact { h with closed := fun _ => rfl, notified := .inl hzero }

variable (h : c.Good least (active + 1) waiting)
include h

/-- A queue with a batch being processed has not been notified. -/
theorem notified_eq_zero : c.queue.notified = 0 := by
  refine h.notified.elim (fun h₀ => h₀) fun ⟨_, _, hempty⟩ => ?_
  obtain ⟨full, last, hbatches, _⟩ := h.bounded.formed
  have hzero := ((Queue.isEmptyInternal_iff hbatches).mp hempty).1
  rw [h.processed] at hzero
  omega

/-- A batch has been processed. The notification is sent for the last one of a closed queue
only. -/
theorem finish : ({ c with queue := c.queue.finishBatch } : Cell τ).Good least active waiting := by
  have hprocessed : c.queue.numBatchesBeingProcessed - 1 = active := by
    rw [h.processed]
    omega
  unfold Queue.finishBatch
  dsimp only
  split
  · next hnotify =>
    rw [Bool.and_eq_true] at hnotify
    exact { h with
      processed := hprocessed
      notified := .inr ⟨by rw [h.notified_eq_zero], h.closed hnotify.1, hnotify.2⟩ }
  · exact { h with processed := hprocessed, notified := .inl h.notified_eq_zero }

end Cell.Good

end Tension.Batching
