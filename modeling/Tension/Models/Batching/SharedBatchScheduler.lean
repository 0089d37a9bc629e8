import Mathlib
import Tension.Core.Run
import Tension.Models.Status

/-!
# The shared batch scheduler

Clients submit tasks to queues, which collect them into batches; the batch threads take
batches from the queues in turn and pass them to a callback. Every section under the mutex
of a queue is one step. The scan of the batch threads holds the mutex of the scheduler from
its start to its end, but takes the mutex of a queue three times for each queue it visits,
so that submissions, completions and closings fall between.
-/

namespace Tension.Batching

/-- `BatchTask`: what a task contributes to the size of its batch. -/
class BatchTask (τ : Type) where
  size : τ → Nat

variable {τ : Type} [BatchTask τ]

/-! ## Batches -/

/-- `Batch`. -/
structure Batch (τ : Type) [BatchTask τ] where
  tasks : List τ
  /-- `size_`, the running sum of the task sizes. -/
  size : Nat
  closed : Bool
  size_eq : size = (tasks.map BatchTask.size).sum
  deriving DecidableEq

namespace Batch

/-- A new batch is open and has no tasks. -/
def new : Batch τ := ⟨[], 0, false, rfl⟩

/-- `Batch::AddTask`. -/
def addTask (b : Batch τ) (task : τ) : Batch τ where
  tasks := b.tasks ++ [task]
  size := b.size + BatchTask.size task
  closed := b.closed
  size_eq := by rw [List.map_append, List.sum_append, ← b.size_eq]; simp

/-- `Batch::Close`. -/
def close (b : Batch τ) : Batch τ := { b with closed := true }

/-- `Batch::empty`. -/
def empty (b : Batch τ) : Bool := b.tasks.isEmpty

end Batch

/-! ## Queues -/

/-- `QueueOptions`. -/
structure QueueOptions where
  maxBatchSize : Int := 1000
  batchTimeoutMicros : Int := 0
  maxEnqueuedBatches : Int := 10
  deriving DecidableEq, Repr

/-- The checks of `AddQueue`. -/
def QueueOptions.validate (options : QueueOptions) : Status :=
  if options.maxBatchSize ≤ 0 then
    .invalidArgument s!"max_batch_size must be positive; was {options.maxBatchSize}"
  else if options.batchTimeoutMicros < 0 then
    .invalidArgument
      s!"batch_timeout_micros must be non-negative; was {options.batchTimeoutMicros}"
  else if options.maxEnqueuedBatches < 0 then
    .invalidArgument
      s!"max_enqueued_batches must be non-negative; was {options.maxEnqueuedBatches}"
  else .ok

/-- `Queue`. -/
structure Queue (τ : Type) [BatchTask τ] where
  options : QueueOptions
  closed : Bool
  /-- `batches_`, the front first. -/
  batches : List (Batch τ)
  openBatchStartTimeMicros : Nat
  schedulableBatch : Bool
  numBatchesBeingProcessed : Int
  /-- Whether `empty_notification_` points to a notification. -/
  emptyNotification : Bool
  /-- How often `empty_notification_` has been notified. -/
  notified : Nat
  deriving DecidableEq

namespace Queue

/-- The constructor puts one open batch into the queue. -/
def new (options : QueueOptions) : Queue τ where
  options := options
  closed := false
  batches := [.new]
  openBatchStartTimeMicros := 0
  schedulableBatch := false
  numBatchesBeingProcessed := 0
  emptyNotification := false
  notified := 0

variable (q : Queue τ)

/-- `batches_.back()`; a queue is never without a batch. -/
def back : Batch τ := q.batches.getLastD .new

/-- Replace `batches_.back()`. -/
def setBack (b : Batch τ) : Queue τ :=
  { q with batches := q.batches.dropLast ++ [b] }

/-- `Queue::StartNewBatch`. -/
def startNewBatch : Queue τ :=
  { q with batches := q.batches.dropLast ++ [q.back.close, .new] }

/-- `Queue::IsOpenBatchSchedulable` at a time. The deadline is computed in `uint64`. -/
def isOpenBatchSchedulable (now : Nat) : Bool :=
  !q.back.empty &&
    (q.closed || decide (q.options.maxBatchSize ≤ q.back.size) ||
      decide ((q.openBatchStartTimeMicros + q.options.batchTimeoutMicros.toNat) % 2 ^ 64 ≤ now))

/-- `Queue::IsEmptyInternal`. -/
def isEmptyInternal : Bool :=
  q.numBatchesBeingProcessed = 0 && q.batches.length = 1 && q.back.empty

/-- The open batch takes a task, whose batch may become schedulable by it. -/
def addTask (task : τ) (now later : Nat) : Queue τ :=
  let started := if q.back.empty then { q with openBatchStartTimeMicros := now } else q
  let q := started.setBack (started.back.addTask task)
  if !q.schedulableBatch && (decide (1 < q.batches.length) || q.isOpenBatchSchedulable later) then
    { q with schedulableBatch := true }
  else q

/-- `Queue::Schedule`: its result, what is left in `*task`, and the queue after it. The
clock is read before the task is added and again after it. -/
def schedule (task : τ) (now later : Nat) : Status × Option τ × Queue τ :=
  if q.options.maxBatchSize < (BatchTask.size task : Int) then
    (.invalidArgument s!"Task size {BatchTask.size task} is larger than maximum batch size {
      q.options.maxBatchSize}", some task, q)
  else if q.options.maxBatchSize < (q.back.size + BatchTask.size task : Nat) then
    if q.options.maxEnqueuedBatches ≤ (q.batches.length : Int) then
      (.unavailable "The batch scheduling queue to which this task was submitted is full",
        some task, q)
    else (.ok, none, q.startNewBatch.addTask task now later)
  else (.ok, none, q.addTask task now later)

/-- `Queue::ScheduleBatch`: the batch that is ready, if there is one, and the queue. -/
def scheduleBatch (now : Nat) : Option (Batch τ) × Queue τ :=
  let q := if q.batches.length = 1 && q.isOpenBatchSchedulable now then q.startNewBatch else q
  match q.batches with
  | b :: next :: rest =>
    (some b, { q with
      batches := next :: rest
      numBatchesBeingProcessed := q.numBatchesBeingProcessed + 1 })
  | _ => (none, { q with schedulableBatch := false })

/-- The section of `Queue::ProcessBatch` after the callback. -/
def finishBatch : Queue τ :=
  let q := { q with numBatchesBeingProcessed := q.numBatchesBeingProcessed - 1 }
  if q.emptyNotification && q.isEmptyInternal then { q with notified := q.notified + 1 } else q

/-- The section of `Queue::CloseAndWaitUntilEmpty`. -/
def close : Queue τ :=
  let q := { q with closed := true }
  if q.isEmptyInternal then q else { q with emptyNotification := true }

end Queue

/-! ## The scheduler -/

/-- A queue object with the record of what went through it. -/
structure Cell (τ : Type) [BatchTask τ] where
  queue : Queue τ
  /-- The tasks for which `Schedule` returned OK, in the order of the calls. -/
  accepted : List τ
  /-- The batches that `ScheduleBatch` returned, in the order of the calls. -/
  pulled : List (Batch τ)
  /-- The batches passed to the callback, in the order of the calls. -/
  handed : List (Batch τ)
  deriving DecidableEq

/-- How far a batch thread is with its batch. -/
inductive Phase where
  /-- The thread still holds the mutex of the scheduler. -/
  | picked
  /-- The thread is about to call the callback. -/
  | released
  /-- The callback has been called. -/
  | called
  deriving DecidableEq, Repr

/-- A batch that a thread is processing for a queue. -/
structure Work (τ : Type) [BatchTask τ] where
  queue : Nat
  batch : Batch τ
  phase : Phase
  deriving DecidableEq

/-- The thread that has found a batch releases the mutex of the scheduler. -/
def Work.release (w : Work τ) : Work τ :=
  if w.phase = .picked then { w with phase := .released } else w

/-- Where a scan of the queues is with the queue it visits. -/
inductive Stage where
  /-- About to call `closed()`. -/
  | readClosed
  /-- About to call `ScheduleBatch()`. -/
  | pull (queueClosed : Bool)
  /-- About to call `IsEmpty()`. -/
  | readEmpty (queueClosed found : Bool)
  /-- About to move `next_queue_to_schedule_`. -/
  | advance (drop found : Bool)
  deriving DecidableEq, Repr

/-- The scan of the thread that holds the mutex of the scheduler. -/
structure Scan where
  numQueues : Nat
  numQueuesTried : Nat
  stage : Stage
  deriving DecidableEq, Repr

/-- `SharedBatchScheduler` with its queues and its batch threads. -/
structure SharedBatchScheduler (τ : Type) [BatchTask τ] where
  /-- All queue objects, by the order of their creation. -/
  cells : List (Cell τ)
  queues : List Nat
  /-- The position of `next_queue_to_schedule_`, which is `queues_.end()` at the length. -/
  nextQueueToSchedule : Nat
  /-- The scan under way. -/
  scan : Option Scan
  /-- The batches in the hands of the batch threads. -/
  work : List (Work τ)
  deriving DecidableEq

namespace SharedBatchScheduler

/-- A new scheduler. -/
def initial : SharedBatchScheduler τ := ⟨[], [], 0, none, []⟩

variable (s : SharedBatchScheduler τ)

/-- Replace a queue object. -/
def setCell (r : Nat) (c : Cell τ) : SharedBatchScheduler τ :=
  { s with cells := s.cells.set r c }

/-- `AddQueue`. The queue is listed under the mutex of the scheduler. -/
def addQueue (options : QueueOptions) :
    Option (SharedBatchScheduler τ) :=
  if options.validate.code ≠ .ok then some s
  else if s.scan.isSome then none
  else
    some { s with
      cells := s.cells ++ [⟨.new options, [], [], []⟩]
      queues := s.queues ++ [s.cells.length]
      nextQueueToSchedule :=
        if s.nextQueueToSchedule = s.queues.length then 0 else s.nextQueueToSchedule }

/-- `QueueHandle::Schedule`. A handle is not used once its destructor has closed the queue. -/
def schedule (s : SharedBatchScheduler τ) (r : Nat) (task : τ) (now later : Nat) :
    Option (SharedBatchScheduler τ) :=
  (s.cells[r]?).bind fun c =>
    if c.queue.closed then none
    else
      match c.queue.schedule task now later with
      | (status, _, q) =>
        some (s.setCell r { c with
          queue := q
          accepted := if status.code = .ok then c.accepted ++ [task] else c.accepted })

/-- The destructor of a `QueueHandle` closes its queue. -/
def close (r : Nat) : Option (SharedBatchScheduler τ) :=
  (s.cells[r]?).bind fun c =>
    if c.queue.closed then none else some (s.setCell r { c with queue := c.queue.close })

/-- A batch thread locks the mutex of the scheduler and begins to scan. -/
def beginScan : Option (SharedBatchScheduler τ) :=
  if s.scan.isSome then none
  else if s.queues = [] then some s
  else some { s with scan := some ⟨s.queues.length, 0, .readClosed⟩ }

/-- The scan calls `ScheduleBatch()` of the queue it visits. -/
def pull (s : SharedBatchScheduler τ) (scan : Scan) (r : Nat) (c : Cell τ) (queueClosed : Bool)
    (now : Nat) : SharedBatchScheduler τ :=
  match c.queue.scheduleBatch now with
  | (some b, q) =>
    { s.setCell r { c with queue := q, pulled := c.pulled ++ [b] } with
      work := ⟨r, b, .picked⟩ :: s.work
      scan := some { scan with stage := .readEmpty queueClosed true } }
  | (none, q) =>
    { s.setCell r { c with queue := q } with
      scan := some { scan with stage := .readEmpty queueClosed false } }

/-- The scan moves on to the next queue, or ends. -/
def advance (scan : Scan) (drop found : Bool) :
    SharedBatchScheduler τ :=
  let queues := if drop then s.queues.eraseIdx s.nextQueueToSchedule else s.queues
  let next := if drop then s.nextQueueToSchedule else s.nextQueueToSchedule + 1
  { s with
    queues := queues
    nextQueueToSchedule := if next = queues.length ∧ queues ≠ [] then 0 else next
    scan :=
      if found || decide (scan.numQueues ≤ scan.numQueuesTried + 1) then none
      else some ⟨scan.numQueues, scan.numQueuesTried + 1, .readClosed⟩
    work := if found then s.work.map Work.release else s.work }

/-- The next section of the scan in `ThreadLogic`. -/
def continueScan (now : Nat) : Option (SharedBatchScheduler τ) :=
  s.scan.bind fun scan =>
    -- `DCHECK(next_queue_to_schedule_ != queues_.end())`
    (s.queues[s.nextQueueToSchedule]?).bind fun r =>
      (s.cells[r]?).bind fun c =>
        match scan.stage with
        | .readClosed => some { s with scan := some { scan with stage := .pull c.queue.closed } }
        | .pull queueClosed => some (s.pull scan r c queueClosed now)
        | .readEmpty queueClosed found =>
          some { s with scan := some { scan with
            stage := .advance (queueClosed && c.queue.isEmptyInternal && !found) found } }
        | .advance drop found => some (s.advance scan drop found)

/-- `ProcessBatch` passes the batch to the callback. -/
def callback (i : Nat) : Option (SharedBatchScheduler τ) :=
  (s.work[i]?).bind fun w =>
    (s.cells[w.queue]?).bind fun c =>
      if w.phase = .released then
        some { s.setCell w.queue { c with handed := c.handed ++ [w.batch] } with
          work := { w with phase := .called } :: s.work.eraseIdx i }
      else none

/-- `ProcessBatch` enters its section once the callback has returned. -/
def finish (i : Nat) : Option (SharedBatchScheduler τ) :=
  (s.work[i]?).bind fun w =>
    (s.cells[w.queue]?).bind fun c =>
      if w.phase = .called then
        some { s.setCell w.queue { c with queue := c.queue.finishBatch } with
          work := s.work.eraseIdx i }
      else none

/-- What clients and batch threads can do next, with the times they read. -/
inductive Move (τ : Type) where
  | addQueue (options : QueueOptions)
  | schedule (r : Nat) (task : τ) (now later : Nat)
  | close (r : Nat)
  | beginScan
  | continueScan (now : Nat)
  | callback (i : Nat)
  | finish (i : Nat)
  deriving DecidableEq, Repr

/-- Perform a move, if it is possible. -/
def step : Move τ → Option (SharedBatchScheduler τ)
  | .addQueue options => s.addQueue options
  | .schedule r task now later => s.schedule r task now later
  | .close r => s.close r
  | .beginScan => s.beginScan
  | .continueScan now => s.continueScan now
  | .callback i => s.callback i
  | .finish i => s.finish i

end SharedBatchScheduler

end Tension.Batching
