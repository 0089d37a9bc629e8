import Tension.Core.RingBuffer
import Tension.Models.Executor.Activation

/-!
# Frames and their iterations

A frame keeps the iterations of a loop that are not done in a circular buffer. The buffer stores
with each iteration its number, which the executor does not. A call that dereferences the slot
of an iteration that is not there, or that overwrites an iteration, does not return. Every
function appends to the list of ready nodes that it is given.
-/

namespace Tension.Executor

variable {V α : Type}

/-- `FrameState`, without its place in the tree of frames. -/
structure FrameState (V α : Type) where
  maxParallelIterations : Nat
  numPendingInputs : Int
  iterationCount : Nat
  numOutstandingIterations : Int
  iterations : List (Option (Nat × IterationState V α))
  nextIterRoots : List (V × Option α)
  invValues : List (V × Option α)
  deadExits : List V

namespace FrameState

variable (f : FrameState V α)

/-- `GetIteration`. -/
def getIteration (iter : Nat) : Option (Nat × IterationState V α) :=
  RingBuffer.get f.iterations iter

/-- The state of an iteration. -/
def derefIteration (iter : Nat) : Option (IterationState V α) :=
  (f.getIteration iter).bind fun x => if x.1 = iter then some x.2 else none

/-- The state of an iteration is changed in place. -/
def modifyIteration (iter : Nat) (s : IterationState V α) : FrameState V α :=
  { f with iterations := RingBuffer.set f.iterations iter (some (iter, s)) }

/-- `SetIteration` for a new iteration. -/
def setIteration (iter : Nat) (s : IterationState V α) :
    Option (FrameState V α) :=
  if (f.getIteration iter).isNone then some (f.modifyIteration iter s) else none

/-- `SetIteration` for an iteration that is deleted. -/
def clearIteration (iter : Nat) : FrameState V α :=
  { f with iterations := RingBuffer.set f.iterations iter none }

/-- `IsFrameDone`. -/
def isFrameDone : Bool :=
  f.numPendingInputs = 0 && f.numOutstandingIterations = 0

/-- `IsIterationDone`. The slot of the preceding iteration is only compared with null. -/
def isIterationDone (iter : Nat) : Option Bool :=
  (f.derefIteration iter).map fun s =>
    s.outstandingOps = 0 && s.outstandingFrameCount = 0 &&
      if iter = 0 then f.numPendingInputs = 0 else (f.getIteration (iter - 1)).isNone

/-- Nodes are activated in an iteration. -/
def activateIn (iter : Nat)
    (activate : IterationState V α → IterationState V α × List (TaggedNode V))
    (f : FrameState V α) (ready : List (TaggedNode V)) :
    Option (FrameState V α × List (TaggedNode V)) :=
  (f.derefIteration iter).map fun s =>
    (f.modifyIteration iter (activate s).1, ready ++ (activate s).2)

variable [DecidableEq V]

variable (g : GraphView V)

/-- `FrameState::ActivateNodes`. -/
def activateNodes (u : V) (isDead : Bool) (iter : Nat)
    (outputs : List (Option α)) (f : FrameState V α) (ready : List (TaggedNode V)) :
    Option (FrameState V α × List (TaggedNode V)) :=
  f.activateIn iter (Executor.activateNodes g u isDead iter outputs) ready

/-- The values of nodes are made available to an iteration. -/
def activateValues (g : GraphView V) (iter : Nat) : List (V × Option α) → FrameState V α →
    List (TaggedNode V) → Option (FrameState V α × List (TaggedNode V))
  | [], f, ready => some (f, ready)
  | (u, entry) :: values, f, ready =>
    (f.activateNodes g u entry.isNone iter [entry] ready).bind fun x =>
      activateValues g iter values x.1 x.2

/-- `ActivateNexts`. -/
def activateNexts (iter : Nat) (f : FrameState V α)
    (ready : List (TaggedNode V)) : Option (FrameState V α × List (TaggedNode V)) :=
  (activateValues g iter f.nextIterRoots f ready).map fun x =>
    ({ x.1 with nextIterRoots := [] }, x.2)

/-- `ActivateLoopInvs`. -/
def activateLoopInvs (iter : Nat) (f : FrameState V α)
    (ready : List (TaggedNode V)) : Option (FrameState V α × List (TaggedNode V)) :=
  activateValues g iter f.invValues f ready

/-- The loop of `AddLoopInv`. -/
def activateInAll (g : GraphView V) (u : V) (entry : Option α) : List Nat → FrameState V α →
    List (TaggedNode V) → Option (FrameState V α × List (TaggedNode V))
  | [], f, ready => some (f, ready)
  | iter :: iters, f, ready =>
    (f.activateNodes g u entry.isNone iter [entry] ready).bind fun x =>
      activateInAll g u entry iters x.1 x.2

/-- `AddLoopInv`. -/
def addLoopInv (u : V) (entry : Option α) (f : FrameState V α)
    (ready : List (TaggedNode V)) : Option (FrameState V α × List (TaggedNode V)) :=
  activateInAll g u entry (List.range (f.iterationCount + 1))
    { f with invValues := f.invValues ++ [(u, entry)] } ready

/-- `IncrementIteration`. -/
def incrementIteration (f : FrameState V α) (ready : List (TaggedNode V)) :
    Option (FrameState V α × List (TaggedNode V)) :=
  let nextIter := f.iterationCount + 1
  ({ f with iterationCount := nextIter }.setIteration nextIter (.new g)).bind fun f =>
    let f := { f with
      numOutstandingIterations := f.numOutstandingIterations + 1
      deadExits := [] }
    (f.activateNexts g nextIter ready).bind fun x => x.1.activateLoopInvs g nextIter x.2

/-- The body of the loop of `CleanupIterations`. -/
def deleteIteration (iter : Nat) (f : FrameState V α)
    (ready : List (TaggedNode V)) : Option (FrameState V α × List (TaggedNode V)) :=
  let f := { f.clearIteration iter with
    numOutstandingIterations := f.numOutstandingIterations - 1 }
  if f.nextIterRoots.isEmpty then some (f, ready) else f.incrementIteration g ready

/-- The loop of `CleanupIterations`. -/
def cleanupFrom (g : GraphView V) : Nat → Nat → FrameState V α → List (TaggedNode V) →
    Option (FrameState V α × List (TaggedNode V))
  | 0, _, _, _ => none
  | fuel + 1, iter, f, ready =>
    if iter ≤ f.iterationCount then
      (f.isIterationDone iter).bind fun done =>
        if done then
          (f.deleteIteration g iter ready).bind fun x => cleanupFrom g fuel (iter + 1) x.1 x.2
        else some (f, ready)
    else some (f, ready)

/-- `CleanupIterations`. At most one iteration is started on the way. Whether the frame is done
can be read off the result. -/
def cleanupIterations (iter : Nat) (f : FrameState V α)
    (ready : List (TaggedNode V)) : Option (FrameState V α × List (TaggedNode V)) :=
  cleanupFrom g (f.iterationCount + 3) iter f ready

/-- `DecrementOutstandingOps`. Whether the frame is done is returned. -/
def decrementOutstandingOps (iter : Nat) (f : FrameState V α)
    (ready : List (TaggedNode V)) : Option (FrameState V α × List (TaggedNode V) × Bool) :=
  (f.derefIteration iter).bind fun s =>
    let s := { s with outstandingOps := s.outstandingOps - 1 }
    let f := f.modifyIteration iter s
    if s.outstandingOps ≠ 0 then some (f, ready, false)
    else (f.cleanupIterations g iter ready).map fun x => (x.1, x.2, x.1.isFrameDone)

/-- `PropagateOutputs` in the frame of a next-iteration node. A dead node and a node that has to
wait for an iteration to be done activate nothing. -/
def propagateNextIteration (t : TaggedNode V) (outputs : List (Option α))
    (f : FrameState V α) (ready : List (TaggedNode V)) :
    Option (FrameState V α × List (TaggedNode V)) :=
  if t.isDead then some (f, ready)
  else if t.inputIter = f.iterationCount ∧ f.numOutstandingIterations = f.maxParallelIterations then
    some ({ f with nextIterRoots := f.nextIterRoots ++ [(t.node, (outputs[0]?).join)] }, ready)
  else
    (if t.inputIter = f.iterationCount then f.incrementIteration g ready
      else some (f, ready)).bind fun x =>
        x.1.activateNodes g t.node t.isDead (t.inputIter + 1) outputs x.2

/-- What a node activates in its frame. The outputs of an enter node go to the child frame, and
those of an exit node to the parent frame. -/
def activateSuccessors (t : TaggedNode V) (outputs : List (Option α))
    (f : FrameState V α) (ready : List (TaggedNode V)) :
    Option (FrameState V α × List (TaggedNode V)) :=
  match (g.item t.node).nodeClass with
  | .enter _ => some (f, ready)
  | .exit =>
    if t.isDead ∧ t.inputIter = f.iterationCount then
      some ({ f with deadExits := f.deadExits ++ [t.node] }, ready)
    else some (f, ready)
  | .nextIteration => f.propagateNextIteration g t outputs ready
  | _ => f.activateNodes g t.node t.isDead t.inputIter outputs ready

/-- `PropagateOutputs` in the frame of a node. -/
def propagateOutputs (t : TaggedNode V) (outputs : List (Option α))
    (f : FrameState V α) (ready : List (TaggedNode V)) :
    Option (FrameState V α × List (TaggedNode V) × Bool) :=
  (f.activateSuccessors g t outputs ready).bind fun x =>
    x.1.decrementOutstandingOps g t.inputIter x.2

/-- What an enter node activates in the frame that it enters. -/
def activateEntered (u : V) (isDead : Bool) (outputs : List (Option α))
    (f : FrameState V α) (ready : List (TaggedNode V)) :
    Option (FrameState V α × List (TaggedNode V)) :=
  if (g.item u).nodeClass = .enter true then f.addLoopInv g u (outputs[0]?).join ready
  else f.activateNodes g u isDead 0 outputs ready

/-- `PropagateOutputs` of an enter node in the frame that it enters. -/
def enter (u : V) (isDead : Bool) (outputs : List (Option α))
    (f : FrameState V α) (ready : List (TaggedNode V)) :
    Option (FrameState V α × List (TaggedNode V)) :=
  (f.activateEntered g u isDead outputs ready).map fun x =>
    ({ x.1 with numPendingInputs := x.1.numPendingInputs - 1 }, x.2)

/-- `FindOrCreateChildFrame` in the parent frame, if the child frame is not there. -/
def addChildFrame (iter : Nat) (f : FrameState V α) : Option (FrameState V α) :=
  (f.derefIteration iter).map fun s =>
    f.modifyIteration iter { s with outstandingFrameCount := s.outstandingFrameCount + 1 }

/-- `DeleteFrame` in the parent frame. -/
def deleteChildFrame (iter : Nat) (deadExits : List V) (f : FrameState V α)
    (ready : List (TaggedNode V)) : Option (FrameState V α × List (TaggedNode V)) :=
  f.activateIn iter
    (propagateDeadExits g iter (deadExits.flatMap fun u => (g.item u).outputEdges)) ready

/-- `CleanupFramesIterations` in the parent frame. -/
def cleanupFramesIterations (iter : Nat) (f : FrameState V α)
    (ready : List (TaggedNode V)) : Option (FrameState V α × List (TaggedNode V) × Bool) :=
  (f.derefIteration iter).bind fun s =>
    let f :=
      f.modifyIteration iter { s with outstandingFrameCount := s.outstandingFrameCount - 1 }
    (f.cleanupIterations g iter ready).map fun x => (x.1, x.2, x.1.isFrameDone)

end FrameState

end Tension.Executor
