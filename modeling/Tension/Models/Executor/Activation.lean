import Mathlib.Data.List.Basic
import Mathlib.Logic.Function.Basic

/-!
# Activation of nodes

Every node of a graph has a count of the inputs it waits for and a count of its dead inputs.
Counts that are small enough have three bits. Large counts are exact below `2 ^ 31`. The outputs
of a node are delivered along its output edges, and nodes that wait for nothing else become ready.
An entry without a tensor has no value. Entries are copied; moving the last copy makes no
difference.
-/

namespace Tension.Executor

/-- `PendingCounts::NodeState`. -/
inductive NodeState where
  | pendingNotReady
  | pendingReady
  | started
  | completed
  deriving DecidableEq, Repr

/-- `kMaxCountForPackedCounts`. -/
def maxCountForPackedCounts : Nat := 7

/-- `PendingCounts::Handle`. The counts of a node are found by the node. -/
structure Handle where
  isLarge : Bool
  deriving DecidableEq, Repr

/-- `Layout::CreateHandle`. -/
def createHandle (maxPendingCount maxDeadCount : Nat) : Handle :=
  ⟨maxCountForPackedCounts < maxPendingCount || maxCountForPackedCounts < maxDeadCount⟩

/-- What a field holds after a number was stored. -/
def Handle.field (h : Handle) (n : Int) : Int := if h.isLarge then n else n % 8

/-- `PackedCounts` and `LargeCounts`. -/
structure Counts where
  pending : Int
  deadCount : Int
  hasStarted : Bool
  deriving DecidableEq, Repr

namespace Counts

variable (h : Handle)

/-- `set_initial_count`. -/
def setInitialCount (pendingCount : Nat) : Counts := ⟨h.field pendingCount, 0, false⟩

/-- `NodeStateForStruct`. -/
def nodeState (c : Counts) : NodeState :=
  if c.hasStarted then if c.pending = 0 then .started else .completed
  else if c.pending = 0 then .pendingReady else .pendingNotReady

/-- `pending`. -/
def pendingCount (c : Counts) : Int := if c.nodeState = .pendingNotReady then c.pending else 0

/-- `decrement_pending`. -/
def decrementPending (v : Int) (c : Counts) : Counts :=
  { c with pending := h.field (c.pending - v) }

/-- `mark_live`. The lowest bit of the pending count is cleared. -/
def markLive (c : Counts) : Counts :=
  if c.nodeState = .pendingNotReady then { c with pending := c.pending - c.pending % 2 } else c

/-- `increment_dead_count`. -/
def incrementDeadCount (c : Counts) : Counts :=
  if c.nodeState = .pendingNotReady then { c with deadCount := h.field (c.deadCount + 1) } else c

/-- `adjust_for_activation`. -/
def adjustForActivation (incrementDead : Bool) (c : Counts) : Counts :=
  (if incrementDead then c.incrementDeadCount h else c).decrementPending h 1

end Counts

/-! ## Counts within their bounds -/

/-- A count within the limits of its node survives the fields of the handle. -/
theorem field_createHandle {p d : Nat} {n : Int} (hn : 0 ≤ n) (h : n ≤ p ∨ n ≤ d) :
    (createHandle p d).field n = n := by
  rw [Handle.field]
  split
  · rfl
  · rename_i hsmall
    obtain ⟨hp, hd⟩ := Bool.or_eq_false_iff.mp (eq_false_of_ne_true hsmall)
    have hp := of_decide_eq_false hp
    have hd := of_decide_eq_false hd
    rw [maxCountForPackedCounts] at hp hd
    omega

namespace Counts

variable {c : Counts}

section

variable (h : c.hasStarted = false)
include h

/-- A node waits as long as it has inputs pending. -/
theorem nodeState_eq_pendingNotReady : c.nodeState = .pendingNotReady ↔ c.pending ≠ 0 := by
  rw [nodeState]
  split <;> simp_all

/-- Before a node has started, its pending count is the number that is stored. -/
theorem pendingCount_eq : c.pendingCount = c.pending := by
  rw [pendingCount]
  split
  · rfl
  · rename_i hstate
    rw [nodeState_eq_pendingNotReady h] at hstate
    omega

/-- `MarkLive` clears the low bit of a merge node's count. -/
theorem markLive_eq : c.markLive = { c with pending := c.pending - c.pending % 2 } := by
  rw [markLive]
  split
  · rfl
  · rename_i hstate
    rw [nodeState_eq_pendingNotReady h, Decidable.not_not] at hstate
    rw [hstate]
    exact congrArg (fun p => (⟨p, c.deadCount, c.hasStarted⟩ : Counts)) hstate

end

/-- Before the node starts, a dead input is counted. -/
theorem incrementDeadCount_eq (handle : Handle) (h : c.hasStarted = false) (hp : c.pending ≠ 0) :
    c.incrementDeadCount handle = { c with deadCount := handle.field (c.deadCount + 1) } := by
  rw [incrementDeadCount, if_pos ((nodeState_eq_pendingNotReady h).mpr hp)]

end Counts

/-! ## Activation -/

variable {V α : Type}

/-- The kinds of nodes that the executor treats differently. -/
inductive NodeClass where
  | other
  | merge
  | enter (isConstant : Bool)
  | exit
  | nextIteration
  | controlTrigger
  | transfer
  | sink
  deriving DecidableEq, Repr

/-- `EdgeInfo`. A control edge has no output slot. -/
structure EdgeInfo (V : Type) where
  dst : V
  outputSlot : Option Nat
  inputSlot : Nat
  deriving DecidableEq, Repr

/-- `NodeItem`. -/
structure NodeItem (V : Type) where
  nodeClass : NodeClass
  numInputs : Nat
  numOutputs : Nat
  inputStart : Nat
  kernelIsExpensive : Bool
  kernelIsAsync : Bool
  outputEdges : List (EdgeInfo V)

/-- `is_enter`. -/
def NodeItem.isEnter (item : NodeItem V) : Bool :=
  match item.nodeClass with
  | .enter _ => true
  | _ => false

/-- `GraphView`: all nodes and their items. -/
structure GraphView (V : Type) where
  nodes : List V
  nodup : nodes.Nodup
  complete : ∀ v, v ∈ nodes
  item : V → NodeItem V

namespace GraphView

variable [DecidableEq V]

variable (g : GraphView V)

/-- `in_edges`: the edges to a node with their sources. -/
def inEdges (v : V) : List (V × EdgeInfo V) :=
  g.nodes.flatMap fun u => ((g.item u).outputEdges.filter fun e => e.dst = v).map fun e => (u, e)

/-- `IsControlEdge`. -/
def isControlEdge (e : V × EdgeInfo V) : Bool := e.2.outputSlot.isNone

/-- The first result of `GetMaxPendingCounts`. The lowest bit of the count of a merge node says
that no live input has arrived. -/
def maxPending (v : V) : Nat :=
  if (g.item v).nodeClass = .merge then 1 + 2 * (g.inEdges v).countP isControlEdge
  else (g.inEdges v).length

/-- The second result of `GetMaxPendingCounts`. -/
def maxDeadCount (v : V) : Nat := (g.inEdges v).length

/-- The `pending_id` of a node. -/
def pendingId (v : V) : Handle := createHandle (g.maxPending v) (g.maxDeadCount v)

end GraphView

/-- `TaggedNode`. The frame of the node is left to the reader of the list. -/
structure TaggedNode (V : Type) where
  node : V
  inputIter : Nat
  isDead : Bool
  deriving DecidableEq, Repr

/-- `IterationState`. -/
structure IterationState (V α : Type) where
  inputTensors : Nat → Option α
  outstandingOps : Int
  outstandingFrameCount : Int
  counts : V → Counts

/-- A new iteration has the counts of `InitializePending`. -/
def IterationState.new [DecidableEq V] (g : GraphView V) : IterationState V α where
  inputTensors _ := none
  outstandingOps := 0
  outstandingFrameCount := 0
  counts v := .setInitialCount (g.pendingId v) (g.maxPending v)

/-- What `ActivateNodes` finds out about the destination of an edge. -/
structure Activation where
  counts : Counts
  dstDead : Bool
  dstReady : Bool
  dstNeedInput : Bool

/-- An input of a merge node arrives. -/
def activateMerge (numInputs : Nat) (h : Handle) (isControlEdge hasValue isEnter : Bool)
    (c : Counts) : Activation :=
  if isControlEdge then
    let c := c.decrementPending h 2
    let dstDead : Bool := c.deadCount = numInputs
    ⟨c, dstDead, c.pendingCount = 0 || c.pendingCount = 1 && dstDead, false⟩
  else if hasValue then
    let count := c.pendingCount
    ⟨c.markLive, false, count = 1, count % 2 = 1⟩
  else
    let c := c.incrementDeadCount h
    let dstDead : Bool := c.deadCount = numInputs || isEnter
    ⟨c, dstDead, c.pendingCount = 1 && dstDead, false⟩

/-- An input of another node arrives. -/
def activateOther (h : Handle) (isControlEdge hasValue isDead : Bool) (c : Counts) : Activation :=
  let incrementDead := isDead || !isControlEdge && !hasValue
  let c := c.adjustForActivation h incrementDead
  ⟨c, 0 < c.deadCount, c.pending = 0, !isControlEdge⟩

/-- The counts of a node are stored, and the node is pushed if it is ready. -/
def IterationState.settle [DecidableEq V] (g : GraphView V) (iter : Nat) (s : IterationState V α)
    (dst : V) (a : Activation) : IterationState V α × List (TaggedNode V) :=
  let s := { s with counts := Function.update s.counts dst a.counts }
  if a.dstReady then
    let dstDead := if (g.item dst).nodeClass = .controlTrigger then false else a.dstDead
    ({ s with outstandingOps := s.outstandingOps + 1 }, [⟨dst, iter, dstDead⟩])
  else (s, [])

/-- What is delivered along an edge. -/
structure Delivery (V α : Type) where
  src : V
  isDead : Bool
  edge : EdgeInfo V
  entry : Option α

namespace Delivery

/-- The edge is a control edge. -/
def isControlEdge (d : Delivery V α) : Bool := d.edge.outputSlot.isNone

variable [DecidableEq V]

/-- What happens to the counts of the destination. -/
def activation (g : GraphView V) (d : Delivery V α) (c : Counts) : Activation :=
  let dstItem := g.item d.edge.dst
  let h := g.pendingId d.edge.dst
  if dstItem.nodeClass = .merge then
    activateMerge dstItem.numInputs h d.isControlEdge d.entry.isSome (g.item d.src).isEnter c
  else activateOther h d.isControlEdge d.entry.isSome d.isDead c

/-- The body of the loop of `ActivateNodes`, with the nodes that become ready. -/
def activate (g : GraphView V) (iter : Nat) (s : IterationState V α) (d : Delivery V α) :
    IterationState V α × List (TaggedNode V) :=
  let dstItem := g.item d.edge.dst
  if dstItem.nodeClass = .sink then (s, [])
  else
    let a := d.activation g (s.counts d.edge.dst)
    let inputTensors :=
      if a.dstNeedInput then
        Function.update s.inputTensors (dstItem.inputStart + d.edge.inputSlot) d.entry
      else s.inputTensors
    { s with inputTensors := inputTensors }.settle g iter d.edge.dst a

/-- Deliveries one after the other. -/
def activateAll (g : GraphView V) (iter : Nat) (s : IterationState V α) :
    List (Delivery V α) → IterationState V α × List (TaggedNode V)
  | [] => (s, [])
  | d :: ds =>
    let first := d.activate g iter s
    let rest := activateAll g iter first.1 ds
    (rest.1, first.2 ++ rest.2)

end Delivery

/-- What a node delivers. -/
def GraphView.deliveries (g : GraphView V) (u : V) (isDead : Bool) (outputs : List (Option α)) :
    List (Delivery V α) :=
  (g.item u).outputEdges.map fun e => ⟨u, isDead, e, (e.outputSlot.bind (outputs[·]?)).join⟩

/-- `ActivateNodes`. -/
def activateNodes [DecidableEq V] (g : GraphView V) (u : V) (isDead : Bool) (iter : Nat)
    (outputs : List (Option α)) (s : IterationState V α) :
    IterationState V α × List (TaggedNode V) :=
  Delivery.activateAll g iter s (g.deliveries u isDead outputs)

/-- A dead exit is an input of a node in the parent frame, as in `DeleteFrame`. -/
def deadExitActivation [DecidableEq V] (g : GraphView V) (e : EdgeInfo V) (c : Counts) :
    Activation :=
  let h := g.pendingId e.dst
  if (g.item e.dst).nodeClass = .merge then
    activateMerge (g.item e.dst).numInputs h e.outputSlot.isNone false false c
  else
    let c := (c.incrementDeadCount h).decrementPending h 1
    ⟨c, true, c.pending = 0, false⟩

/-- The loops of `DeleteFrame` over the out edges of dead exits. -/
def propagateDeadExits [DecidableEq V] (g : GraphView V) (iter : Nat) :
    List (EdgeInfo V) → IterationState V α → IterationState V α × List (TaggedNode V)
  | [], s => (s, [])
  | e :: es, s =>
    let first :=
      if (g.item e.dst).nodeClass = .sink then (s, [])
      else s.settle g iter e.dst (deadExitActivation g e (s.counts e.dst))
    let rest := propagateDeadExits g iter es first.1
    (rest.1, first.2 ++ rest.2)

namespace Delivery

variable [DecidableEq V] {g : GraphView V} {iter : Nat} {s : IterationState V α}

/-- Deliveries are made one after the other. -/
theorem activateAll_append (ds es : List (Delivery V α)) : activateAll g iter s (ds ++ es) =
      ((activateAll g iter (activateAll g iter s ds).1 es).1,
        (activateAll g iter s ds).2 ++ (activateAll g iter (activateAll g iter s ds).1 es).2) := by
  induction ds generalizing s with
  | nil => rfl
  | cons d ds ih => simp [activateAll, ih]

end Delivery

/-! ## Nodes that are pushed are counted -/

/-- An activation counts the nodes that it pushes. -/
structure Counted (iter : Nat)
    (activate : IterationState V α → IterationState V α × List (TaggedNode V)) : Prop where
  ops : ∀ s, (activate s).1.outstandingOps = s.outstandingOps + (activate s).2.length
  frames : ∀ s, (activate s).1.outstandingFrameCount = s.outstandingFrameCount
  iter : ∀ s, ∀ t ∈ (activate s).2, t.inputIter = iter

/-- An activation that makes nothing ready counts. -/
theorem counted_nil (iter : Nat) :
    Counted iter fun s : IterationState V α => (s, ([] : List (TaggedNode V))) :=
  ⟨fun _ => by simp, fun _ => rfl, fun _ _ h => absurd h List.not_mem_nil⟩

/-- One activation after the other. -/
theorem Counted.andThen {iter : Nat}
    {first second : IterationState V α → IterationState V α × List (TaggedNode V)}
    (h₁ : Counted iter first) (h₂ : Counted iter second) :
    Counted iter fun s => ((second (first s).1).1, (first s).2 ++ (second (first s).1).2) where
  ops s := by
    rw [h₂.ops, h₁.ops, List.length_append]
    omega
  frames s := by rw [h₂.frames, h₁.frames]
  iter s t ht := (List.mem_append.mp ht).elim (h₁.iter s t) (h₂.iter _ t)

section Activations

variable [DecidableEq V] (g : GraphView V) (iter : Nat)

/-- Settling a node counts it exactly if it becomes ready. -/
theorem counted_settle (dst : V) (a : IterationState V α → Activation)
    (tensors : IterationState V α → Nat → Option α) :
    Counted iter fun s => { s with inputTensors := tensors s }.settle g iter dst (a s) := by
  constructor
  · intro s
    rw [IterationState.settle]
    split <;> simp
  · intro s
    rw [IterationState.settle]
    split <;> rfl
  · intro s t ht
    rw [IterationState.settle] at ht
    split at ht
    · rw [List.mem_singleton.mp ht]
    · cases ht

/-- Every delivery counts the node that it makes ready. -/
theorem counted_activate (d : Delivery V α) : Counted iter fun s => d.activate g iter s := by
  by_cases hsink : (g.item d.edge.dst).nodeClass = .sink
  · simp only [Delivery.activate, hsink]
    exact counted_nil iter
  · simp only [Delivery.activate, hsink]
    exact counted_settle g iter d.edge.dst _ _

/-- `ActivateNodes` counts what it makes ready. -/
theorem counted_activateNodes (u : V) (isDead : Bool) (outputs : List (Option α)) :
    Counted iter (activateNodes g u isDead iter outputs) := by
  unfold activateNodes
  induction g.deliveries u isDead outputs with
  | nil => exact counted_nil iter
  | cons d ds ih => exact (counted_activate g iter d).andThen ih

/-- The dead exits of a frame count what they make ready. -/
theorem counted_propagateDeadExits (es : List (EdgeInfo V)) :
    Counted iter (propagateDeadExits (α := α) g iter es) := by
  induction es with
  | nil => exact counted_nil iter
  | cons e es ih =>
    have hfirst : Counted iter fun s : IterationState V α =>
        if (g.item e.dst).nodeClass = .sink then (s, [])
        else s.settle g iter e.dst (deadExitActivation g e (s.counts e.dst)) := by
      split
      · exact counted_nil iter
      · exact counted_settle g iter e.dst _ fun s => s.inputTensors
    exact hfirst.andThen ih

end Activations

end Tension.Executor
