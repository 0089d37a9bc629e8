import Tension.Models.Executor.Frame

/-!
# The executor on a graph without loops

Nodes of the root frame are processed by threads. A thread takes nodes from its own queue, and a
kernel may finish asynchronously. Everything between two steps of a thread may be interleaved
with the steps of others. All kernels succeed. The histories of ready, dispatched, propagated
and processed nodes are kept in addition to the state of the executor.
-/

namespace Tension.Executor

variable {V α : Type}

/-- How far a thread is with a node. -/
inductive Phase (V : Type) where
  /-- The thread is at the head of its loop. -/
  | idle
  /-- The kernel of the node is running. -/
  | running (t : TaggedNode V)
  /-- `PropagateOutputs` has returned the nodes that became ready. -/
  | propagated (t : TaggedNode V) (ready : List (TaggedNode V))
  /-- `NodeDone` has adjusted the number of outstanding operations. -/
  | counted (ready : List (TaggedNode V))
  deriving DecidableEq

/-- A call of `Process`, with its queue, or of the callback of an asynchronous kernel, without
one. -/
structure Activity (V : Type) where
  inlineReady : Option (List (TaggedNode V))
  phase : Phase V
  completed : Bool
  deriving DecidableEq

/-- `ExecutorState` with the calls that are active. The root frame is missing after it was
deleted. -/
structure ExecutorState (V α : Type) where
  rootFrame : Option (FrameState V α)
  numOutstandingOps : Int
  /-- The nodes that were given to the runner. -/
  pool : List (TaggedNode V)
  activities : List (Activity V)
  /-- The number of calls of `Finish`. -/
  finished : Nat
  readied : List (TaggedNode V)
  dispatched : List (TaggedNode V)
  propagated : List (TaggedNode V × List (Option α))
  processed : List (TaggedNode V)

variable (g : GraphView V)

/-- Dead nodes are not executed, except for transfer nodes. -/
def GraphView.executes (t : TaggedNode V) : Bool :=
  !t.isDead || (g.item t.node).nodeClass = .transfer

/-- The kernel of the node runs asynchronously. -/
def GraphView.launches (t : TaggedNode V) : Bool :=
  g.executes t && (g.item t.node).kernelIsAsync

/-- The outputs that a node may have. A node that is not executed has outputs without values. -/
def GraphView.IsOutput (t : TaggedNode V) (outputs : List (Option α)) : Prop :=
  outputs.length = (g.item t.node).numOutputs ∧
    (g.executes t = false → ∀ x ∈ outputs, x = none)

/-- The loop of `ScheduleReady`: the nodes for the runner, the queue of the thread, and the
expensive node that is kept back. -/
def scheduleLoop (g : GraphView V) : List (TaggedNode V) → List (TaggedNode V) →
    List (TaggedNode V) → Option (TaggedNode V) →
      List (TaggedNode V) × List (TaggedNode V) × Option (TaggedNode V)
  | [], toRunner, inlineReady, expensive => (toRunner, inlineReady, expensive)
  | t :: ready, toRunner, inlineReady, expensive =>
    if t.isDead || !(g.item t.node).kernelIsExpensive then
      scheduleLoop g ready toRunner (inlineReady ++ [t]) expensive
    else scheduleLoop g ready (toRunner ++ expensive.toList) inlineReady (some t)

/-- `ScheduleReady`: the nodes for the runner, and the queue of the thread. -/
def scheduleReady (ready : List (TaggedNode V)) :
    Option (List (TaggedNode V)) → List (TaggedNode V) × List (TaggedNode V)
  | none => (ready, [])
  | some inlineReady =>
    match scheduleLoop g ready [] inlineReady none with
    | (toRunner, inlineReady, none) => (toRunner, inlineReady)
    | (toRunner, inlineReady, some t) =>
      if inlineReady.isEmpty then (toRunner, [t]) else (toRunner ++ [t], inlineReady)

/-- A step of the runner or of an activity. -/
inductive ExecutorMove (V α : Type) where
  /-- The runner calls `Process`. -/
  | start (t : TaggedNode V)
  /-- The next node of the queue is taken. -/
  | pop (a : Activity V)
  /-- The kernel is left to run asynchronously. -/
  | launch (a : Activity V)
  /-- The kernel is done, and its outputs are propagated. -/
  | propagate (a : Activity V) (outputs : List (Option α))
  /-- The number of outstanding operations is adjusted. -/
  | count (a : Activity V)
  /-- The ready nodes are scheduled. -/
  | schedule (a : Activity V)
  /-- The queue is empty. -/
  | finish (a : Activity V)

namespace ExecutorState

variable [DecidableEq V]

variable (g : GraphView V)

/-- The nodes without in edges. -/
def rootNodes : List (TaggedNode V) :=
  (g.nodes.filter fun v => (g.inEdges v).isEmpty).map fun v => ⟨v, 0, false⟩

/-- The root frame with the state of its only iteration. -/
def rootFrameOf (st : IterationState V α) : FrameState V α where
  maxParallelIterations := 1
  numPendingInputs := 0
  iterationCount := 0
  numOutstandingIterations := 1
  iterations := [some (0, st)]
  nextIterRoots := []
  invValues := []
  deadExits := []

/-- `RunAsync`. -/
def new : ExecutorState V α where
  rootFrame := some (rootFrameOf { IterationState.new g with
    outstandingOps := (rootNodes g).length })
  numOutstandingOps := (rootNodes g).length
  pool := (scheduleReady g (rootNodes g) none).1
  activities := []
  finished := 0
  readied := rootNodes g
  dispatched := (scheduleReady g (rootNodes g) none).1
  propagated := []
  processed := []

/-- An activity is replaced. -/
def become (s : ExecutorState V α) (a : Activity V) (as : List (Activity V)) :
    ExecutorState V α :=
  { s with activities := as ++ s.activities.erase a }

/-- `PropagateOutputs`. A frame that is done is deleted. -/
def propagate (s : ExecutorState V α) (a : Activity V) (t : TaggedNode V)
    (outputs : List (Option α)) : Option (ExecutorState V α) :=
  s.rootFrame.bind fun f =>
    (f.propagateOutputs g t outputs []).map fun x =>
      { s.become a [{ a with phase := .propagated t x.2.1 }] with
        rootFrame := if x.2.2 then none else some x.1
        readied := s.readied ++ x.2.1
        propagated := s.propagated ++ [(t, outputs)] }

/-- The first part of `NodeDone`. -/
def count (s : ExecutorState V α) (a : Activity V) (t : TaggedNode V)
    (ready : List (TaggedNode V)) : ExecutorState V α :=
  let completed : Bool := ready.isEmpty && s.numOutstandingOps = 1
  { s.become a [{ a with phase := .counted ready, completed := completed }] with
    numOutstandingOps :=
      if ready.isEmpty then s.numOutstandingOps - 1
      else if 1 < ready.length then s.numOutstandingOps + (ready.length - 1 : Nat)
      else s.numOutstandingOps
    processed := s.processed ++ [t] }

/-- The second part of `NodeDone`. The callback of an asynchronous kernel is then over. -/
def schedule (g : GraphView V) (s : ExecutorState V α) (a : Activity V)
    (ready : List (TaggedNode V)) : ExecutorState V α :=
  match a.inlineReady with
  | none =>
    let scheduled := scheduleReady g ready none
    { s.become a [] with
      pool := s.pool ++ scheduled.1
      dispatched := s.dispatched ++ scheduled.1
      finished := s.finished + if a.completed then 1 else 0 }
  | some queue =>
    let scheduled := scheduleReady g ready (some queue)
    { s.become a [{ a with inlineReady := some scheduled.2, phase := .idle }] with
      pool := s.pool ++ scheduled.1
      dispatched := s.dispatched ++ (scheduled.1 ++ scheduled.2.drop queue.length) }

/-- One step. -/
def step (s : ExecutorState V α) :
    ExecutorMove V α → Option (ExecutorState V α)
  | .start t =>
    some { s with
      pool := s.pool.erase t
      activities := ⟨some [t], .idle, false⟩ :: s.activities }
  | .pop a =>
    match a.phase, a.inlineReady with
    | .idle, some (t :: queue) =>
      some (s.become a [{ a with inlineReady := some queue, phase := .running t }])
    | _, _ => none
  | .launch a =>
    match a.phase with
    | .running t => some (s.become a [⟨none, .running t, false⟩, { a with phase := .idle }])
    | _ => none
  | .propagate a outputs =>
    match a.phase with
    | .running t => s.propagate g a t outputs
    | _ => none
  | .count a =>
    match a.phase with
    | .propagated t ready => some (s.count a t ready)
    | _ => none
  | .schedule a =>
    match a.phase with
    | .counted ready => some (s.schedule g a ready)
    | _ => none
  | .finish a =>
    some { s.become a [] with finished := s.finished + if a.completed then 1 else 0 }

/-- The steps that are possible. -/
inductive Enabled (g : GraphView V) (s : ExecutorState V α) : ExecutorMove V α → Prop where
  | start {t : TaggedNode V} (h : t ∈ s.pool) : Enabled g s (.start t)
  | pop {t : TaggedNode V} {queue : List (TaggedNode V)} {completed : Bool}
      (h : ⟨some (t :: queue), .idle, completed⟩ ∈ s.activities) :
      Enabled g s (.pop ⟨some (t :: queue), .idle, completed⟩)
  | launch {t : TaggedNode V} {queue : List (TaggedNode V)} {completed : Bool}
      (h : ⟨some queue, .running t, completed⟩ ∈ s.activities) (ht : g.launches t = true) :
      Enabled g s (.launch ⟨some queue, .running t, completed⟩)
  | propagate {t : TaggedNode V} {inlineReady : Option (List (TaggedNode V))} {completed : Bool}
      {outputs : List (Option α)} (h : ⟨inlineReady, .running t, completed⟩ ∈ s.activities)
      (ht : inlineReady.isSome = true → g.launches t = false) (houtputs : g.IsOutput t outputs) :
      Enabled g s (.propagate ⟨inlineReady, .running t, completed⟩ outputs)
  | count {t : TaggedNode V} {ready : List (TaggedNode V)}
      {inlineReady : Option (List (TaggedNode V))} {completed : Bool}
      (h : ⟨inlineReady, .propagated t ready, completed⟩ ∈ s.activities) :
      Enabled g s (.count ⟨inlineReady, .propagated t ready, completed⟩)
  | schedule {ready : List (TaggedNode V)} {inlineReady : Option (List (TaggedNode V))}
      {completed : Bool} (h : ⟨inlineReady, .counted ready, completed⟩ ∈ s.activities) :
      Enabled g s (.schedule ⟨inlineReady, .counted ready, completed⟩)
  | finish {completed : Bool} (h : ⟨some [], .idle, completed⟩ ∈ s.activities) :
      Enabled g s (.finish ⟨some [], .idle, completed⟩)

end ExecutorState

end Tension.Executor
