import Mathlib
import Tension.Core.Run
import Tension.Core.Slots
import Tension.Models.Status

/-!
# The FIFO queue

Operations are recorded as attempts and flushed in order. A dequeue of many elements takes
them as they arrive and keeps them in the tuple of its attempt. An element stands for one
tuple of tensors, so that the queues of the components are one queue. Every section under the
mutex is one step. Two histories are added to the state: the elements that were accepted, and
the operations that were finished with what was delivered to them.
-/

namespace Tension.Queues

open Slots Run

/-- What an attempt to enqueue does. `Close` waits in the same line. -/
inductive EnqueueAction (α : Type) where
  | enqueue (tuple : α)
  | enqueueMany (tuple : List α)
  | close
  deriving DecidableEq

/-- An entry of `enqueue_attempts_`. `Close` cannot be cancelled. -/
structure EnqueueAttempt (α : Type) where
  elementsRequested : Int
  token : Option Nat
  isCancelled : Bool
  action : EnqueueAction α
  deriving DecidableEq

/-- What an attempt to dequeue does. -/
inductive DequeueAction where
  | dequeue
  | dequeueMany (allowSmallBatch : Bool)
  deriving DecidableEq

/-- An entry of `dequeue_attempts_`. The tuple has one slot for each element of the batch. -/
structure DequeueAttempt (α : Type) where
  elementsRequested : Int
  token : Nat
  isCancelled : Bool
  action : DequeueAction
  tuple : List (Option α)
  deriving DecidableEq

/-- An operation whose callback runs, with its status and what it delivers. -/
structure Finished (α : Type) where
  token : Option Nat
  status : Status
  elements : List α
  deriving DecidableEq

/-- `FIFOQueue`. -/
structure FIFOQueue (α : Type) where
  name : String
  capacity : Nat
  /-- `specified_shapes()`. -/
  specifiedShapes : Bool
  closed : Bool
  queue : List α
  enqueueAttempts : List (EnqueueAttempt α)
  dequeueAttempts : List (DequeueAttempt α)
  /-- The elements that were put into the queue, in order. -/
  accepted : List α
  /-- The operations that were finished, in order. -/
  finished : List (Finished α)
  deriving DecidableEq

/-- `RunResult`. A completed attempt has a status and delivers elements. -/
inductive RunResult (α : Type) where
  | noProgress
  | progress
  | complete (status : Status) (elements : List α)

/-- `Action`. -/
inductive Action where
  | enqueue
  | dequeue
  deriving DecidableEq

namespace FIFOQueue

variable {α : Type}

/-- A new queue. -/
def new (name : String) (capacity : Nat) (specifiedShapes : Bool) : FIFOQueue α :=
  ⟨name, capacity, specifiedShapes, false, [], [], [], [], []⟩

variable (q : FIFOQueue α)

/-- Elements are put into the queue. -/
def push (elements : List α) : FIFOQueue α :=
  { q with queue := q.queue ++ elements, accepted := q.accepted ++ elements }

/-- An operation is finished. -/
def finish (token : Option Nat) (status : Status) (elements : List α) :
    FIFOQueue α :=
  { q with finished := q.finished ++ [⟨token, status, elements⟩] }

/-! ## Enqueueing -/

/-- The loop of `TryEnqueueMany`, which runs as long as the queue has room. It returns whether
the attempt is complete, the number of elements that are left and the elements accepted. -/
def enqueueLoop (tuple : List α) : Nat → Int → Option (Bool × Int × List α)
  | 0, requested => some (false, requested, [])
  | room + 1, requested =>
    if (tuple.length : Int) < requested then none
    else
      match tuple[((tuple.length : Int) - requested).toNat]? with
      | none => none
      | some element =>
        if requested - 1 = 0 then some (true, 0, [element])
        else
          (enqueueLoop tuple room (requested - 1)).map fun (complete, left, elements) =>
            (complete, left, element :: elements)

/-- The callback of an attempt to enqueue. -/
def runEnqueue (attempt : EnqueueAttempt α) :
    Option (RunResult α × FIFOQueue α × EnqueueAttempt α) :=
  match attempt.action with
  | .close =>
    if q.closed then
      some (.complete (.cancelled ("Queue '" ++ q.name ++ "' is already closed.")) [], q, attempt)
    else some (.complete .ok [], { q with closed := true }, attempt)
  | .enqueue tuple =>
    if q.closed then
      some (.complete (.cancelled ("FIFOQueue '" ++ q.name ++ "' is closed.")) [], q, attempt)
    else if q.queue.length < q.capacity then some (.complete .ok [], q.push [tuple], attempt)
    else some (.noProgress, q, attempt)
  | .enqueueMany tuple =>
    if q.closed then
      some (.complete (.cancelled ("FIFOQueue '" ++ q.name ++ "' is closed.")) [], q, attempt)
    else
      match enqueueLoop tuple (q.capacity - q.queue.length) attempt.elementsRequested with
      | none => none
      | some (complete, left, elements) =>
        let attempt := { attempt with elementsRequested := left }
        if complete then some (.complete .ok [], q.push elements, attempt)
        else if elements = [] then some (.noProgress, q, attempt)
        else some (.progress, q.push elements, attempt)

/-- `TryAttemptLocked(kEnqueue)`. It returns whether progress was made. -/
def tryEnqueueAttempts : List (EnqueueAttempt α) → FIFOQueue α → Bool →
    Option (Bool × FIFOQueue α)
  | [], q, progress => some (progress, { q with enqueueAttempts := [] })
  | attempt :: rest, q, progress =>
    if attempt.isCancelled then tryEnqueueAttempts rest q progress
    else
      match runEnqueue q attempt with
      | none => none
      | some (.noProgress, q', attempt') =>
        some (progress, { q' with enqueueAttempts := attempt' :: rest })
      | some (.progress, q', attempt') =>
        some (true, { q' with enqueueAttempts := attempt' :: rest })
      | some (.complete status elements, q', _) =>
        tryEnqueueAttempts rest (q'.finish attempt.token status elements) true

/-! ## Dequeueing -/

/-- Elements of the tuple are put back, the last one first. -/
def restore (tuple : List (Option α)) : Nat → List α → Option (List α)
  | 0, queue => some queue
  | i + 1, queue =>
    match tuple[i]? with
    | some (some element) => restore tuple i (element :: queue)
    | _ => none

/-- The loop of `TryDequeueMany` over the elements in the queue. The tuple is allocated for the
first element. It returns whether the attempt is complete, the number of elements that are
left, the tuple and the queue. -/
def dequeueLoop : Nat → Int → List (Option α) → List α →
    Option (Bool × Int × List (Option α) × List α)
  | 0, requested, tuple, queue => some (false, requested, tuple, queue)
  | _ + 1, _, _, [] => none
  | queueSize + 1, requested, tuple, element :: queue =>
    let tuple := allocate tuple requested.toNat
    if (tuple.length : Int) < requested ∨ requested ≤ 0 then none
    else
      let tuple := tuple.set ((tuple.length : Int) - requested).toNat (some element)
      if requested - 1 = 0 then some (true, 0, tuple, queue)
      else dequeueLoop queueSize (requested - 1) tuple queue

/-- The loop of `TryDequeueMany` and what follows it. A tuple that is delivered must have been
written completely. -/
def takeElements (attempt : DequeueAttempt α) (queueSize : Nat) :
    Option (RunResult α × FIFOQueue α × DequeueAttempt α) :=
  match dequeueLoop queueSize attempt.elementsRequested attempt.tuple q.queue with
  | none => none
  | some (complete, left, tuple, queue) =>
    let attempt := { attempt with elementsRequested := left, tuple := tuple }
    if complete then
      (tuple.mapM id).map fun elements =>
        (.complete .ok elements, { q with queue := queue }, attempt)
    else if queueSize = 0 then some (.noProgress, { q with queue := queue }, attempt)
    else some (.progress, { q with queue := queue }, attempt)

/-- The status of an attempt that a closed queue has not enough elements for. -/
def insufficient (q : FIFOQueue α) (requested : Int) (queueSize : Nat) : Status :=
  .outOfRange ("FIFOQueue '" ++ q.name ++ "' is closed and has insufficient elements (requested " ++
    toString requested ++ ", current size " ++ toString queueSize ++ ")")

/-- The callback of `TryDequeueMany`. -/
def runDequeueMany (attempt : DequeueAttempt α) (allowSmallBatch : Bool) :
    Option (RunResult α × FIFOQueue α × DequeueAttempt α) :=
  let queueSize := q.queue.length
  if q.closed ∧ (queueSize : Int) < attempt.elementsRequested then
    let restored := if attempt.tuple.isEmpty then some q.queue
      else restore attempt.tuple
        ((attempt.tuple.length : Int) - attempt.elementsRequested).toNat q.queue
    match restored with
    | none => none
    | some queue =>
      let q' := { q with queue := queue }
      if allowSmallBatch ∧ queue ≠ [] then
        -- All elements that remain are requested.
        takeElements q' { attempt with tuple := [], elementsRequested := queue.length }
          queue.length
      else if allowSmallBatch ∧ q.enqueueAttempts ≠ [] then some (.progress, q', attempt)
      else
        some (.complete (q.insufficient attempt.elementsRequested queueSize) [], q', attempt)
  else takeElements q attempt queueSize

/-- The callback of an attempt to dequeue. -/
def runDequeue (q : FIFOQueue α) (attempt : DequeueAttempt α) :
    Option (RunResult α × FIFOQueue α × DequeueAttempt α) :=
  match attempt.action with
  | .dequeue =>
    match q.queue with
    | [] =>
      if q.closed then some (.complete (q.insufficient 1 0) [], q, attempt)
      else some (.noProgress, q, attempt)
    | element :: queue => some (.complete .ok [element], { q with queue := queue }, attempt)
  | .dequeueMany allowSmallBatch => runDequeueMany q attempt allowSmallBatch

/-- `TryAttemptLocked(kDequeue)`. It returns whether progress was made. -/
def tryDequeueAttempts : List (DequeueAttempt α) → FIFOQueue α → Bool →
    Option (Bool × FIFOQueue α)
  | [], q, progress => some (progress, { q with dequeueAttempts := [] })
  | attempt :: rest, q, progress =>
    if attempt.isCancelled then tryDequeueAttempts rest q progress
    else
      match runDequeue q attempt with
      | none => none
      | some (.noProgress, q', attempt') =>
        some (progress, { q' with dequeueAttempts := attempt' :: rest })
      | some (.progress, q', attempt') =>
        some (true, { q' with dequeueAttempts := attempt' :: rest })
      | some (.complete status elements, q', _) =>
        tryDequeueAttempts rest (q'.finish (some attempt.token) status elements) true

/-! ## The locked sections -/

/-- One round of `FlushUnlocked`. -/
def flushRound : Option (Bool × FIFOQueue α) :=
  match tryEnqueueAttempts q.enqueueAttempts q false with
  | none => none
  | some (enqueued, q₁) =>
    (tryDequeueAttempts q₁.dequeueAttempts q₁ false).map fun (dequeued, q₂) =>
      (dequeued || enqueued, q₂)

/-- A bound on the rounds of a flush: attempts and the elements they wait for. -/
def work : Nat :=
  (q.enqueueAttempts.map fun a => a.elementsRequested.toNat + 1).sum +
    (q.dequeueAttempts.map fun a => a.elementsRequested.toNat + 1).sum

/-- The locked section of `FlushUnlocked`. -/
def flushUnlocked : Option (FIFOQueue α) :=
  untilStable flushRound (q.work + 1) q

/-- An operation that was cancelled before its attempt was recorded. -/
def refuse (token : Nat) (operation : String) : FIFOQueue α :=
  q.finish (some token) (.cancelled (operation ++ " operation was cancelled")) []

/-- `TryEnqueue`. `registered` is the answer of `RegisterCallback`. -/
def tryEnqueue (token : Nat) (registered : Bool) (tuple : α) : FIFOQueue α :=
  if registered then
    { q with enqueueAttempts := q.enqueueAttempts ++ [⟨1, some token, false, .enqueue tuple⟩] }
  else q.refuse token "Enqueue"

/-- `TryEnqueueMany`. The number of elements is converted to `int32`. -/
def tryEnqueueMany (token : Nat) (registered : Bool) (tuple : List α) :
    FIFOQueue α :=
  if tuple = [] then q.finish (some token) .ok []
  else if registered then
    { q with
      enqueueAttempts := q.enqueueAttempts ++
        [⟨(tuple.length : Int).bmod (2 ^ 32), some token, false, .enqueueMany tuple⟩] }
  else q.refuse token "Enqueue"

/-- `TryDequeue`. -/
def tryDequeue (token : Nat) (registered : Bool) : FIFOQueue α :=
  if registered then
    { q with dequeueAttempts := q.dequeueAttempts ++ [⟨1, token, false, .dequeue, []⟩] }
  else q.refuse token "Dequeue"

/-- `TryDequeueMany`. -/
def tryDequeueMany (token : Nat) (registered : Bool) (numElements : Nat)
    (allowSmallBatch : Bool) : FIFOQueue α :=
  if !q.specifiedShapes then
    q.finish (some token) (.invalidArgument ("FIFOQueue's DequeueMany and DequeueUpTo require " ++
      "the components to have specified shapes.")) []
  else if numElements = 0 then q.finish (some token) .ok []
  else if registered then
    { q with
      dequeueAttempts := q.dequeueAttempts ++
        [⟨numElements, token, false, .dequeueMany allowSmallBatch, []⟩] }
  else q.refuse token "Dequeue"

/-- `Close` without cancellation. -/
def close : FIFOQueue α :=
  { q with enqueueAttempts := q.enqueueAttempts ++ [⟨0, none, false, .close⟩] }

/-- `CloseAndCancel`. -/
def closeAndCancel : FIFOQueue α :=
  { q with
    closed := true
    enqueueAttempts := q.enqueueAttempts.map fun a => { a with isCancelled := true }
    finished := q.finished ++ (q.enqueueAttempts.filter fun a => !a.isCancelled).map fun a =>
      ⟨a.token, .cancelled "Enqueue operation was cancelled", []⟩ }

/-- The first attempt that a token matches is cancelled, unless it already is. -/
def cancelFirst {β : Type} (matches_ isCancelled : β → Bool) (cancel : β → β) :
    List β → Option (List β)
  | [] => none
  | a :: rest =>
    if matches_ a then if isCancelled a then none else some (cancel a :: rest)
    else (cancelFirst matches_ isCancelled cancel rest).map (a :: ·)

/-- The locked section of `Cancel`. -/
def cancel (q : FIFOQueue α) (action : Action) (token : Nat) : FIFOQueue α :=
  match action with
  | .enqueue =>
    match cancelFirst (fun a => decide (a.token = some token)) EnqueueAttempt.isCancelled
        (fun a => { a with isCancelled := true }) q.enqueueAttempts with
    | none => q
    | some attempts => { q with enqueueAttempts := attempts }.refuse token "Enqueue"
  | .dequeue =>
    match cancelFirst (fun a => decide (a.token = token)) DequeueAttempt.isCancelled
        (fun a => { a with isCancelled := true }) q.dequeueAttempts with
    | none => q
    | some attempts => { q with dequeueAttempts := attempts }.refuse token "Dequeue"

/-- The locked sections. -/
inductive Move (α : Type) where
  | tryEnqueue (token : Nat) (registered : Bool) (tuple : α)
  | tryEnqueueMany (token : Nat) (registered : Bool) (tuple : List α)
  | tryDequeue (token : Nat) (registered : Bool)
  | tryDequeueMany (token : Nat) (registered : Bool) (numElements : Nat) (allowSmallBatch : Bool)
  | cancel (action : Action) (token : Nat)
  | close
  | closeAndCancel
  | flushUnlocked

/-- One locked section. -/
def step : Move α → Option (FIFOQueue α)
  | .tryEnqueue token registered tuple => some (q.tryEnqueue token registered tuple)
  | .tryEnqueueMany token registered tuple => some (q.tryEnqueueMany token registered tuple)
  | .tryDequeue token registered => some (q.tryDequeue token registered)
  | .tryDequeueMany token registered numElements allowSmallBatch =>
    some (q.tryDequeueMany token registered numElements allowSmallBatch)
  | .cancel action token => some (q.cancel action token)
  | .close => some q.close
  | .closeAndCancel => some q.closeAndCancel
  | .flushUnlocked => q.flushUnlocked

end FIFOQueue

end Tension.Queues
