import Mathlib
import Tension.Core.UnorderedSet

/-!
# Cycle detection on a changing graph

Nodes are numbered and carry a rank that is consistent with a topological order of the
graph. An edge against the order starts two searches from its ends, limited to the ranks
between them, and hands out the ranks of what they find again. The vectors for temporary
results are arguments and results here; the order in which a node set is iterated is left
to the set.
-/

namespace Tension.GraphCycles

open UnorderedSet

/-- `Node`. -/
structure Node (S : Type*) where
  /-- The rank assigned by the algorithm. -/
  rank : Nat
  /-- The marker of the depth-first searches. -/
  visited : Bool
  /-- The pointer of the user, if it is not null. -/
  data : Option Nat
  /-- Immediate predecessors. -/
  ins : S
  /-- Immediate successors. -/
  outs : S

/-- `GraphCycles::Rep`. -/
structure Rep (S : Type*) where
  nodes : List (Node S)
  /-- `free_nodes_`, its back first. -/
  freeNodes : List Nat

variable {S : Type*} [UnorderedSet S Nat]

/-- A new node. -/
def Node.create (rank : Nat) : Node S := ⟨rank, false, none, empty, empty⟩

namespace Rep

/-- The graph without nodes. -/
def initial : Rep S := ⟨[], []⟩

variable (r : Rep S)

/-- `nodes_[i]`. -/
def node (i : Nat) : Node S := r.nodes.getD i (.create 0)

omit [UnorderedSet S Nat] in
/-- Assign to fields of `nodes_[i]`. -/
def modify (i : Nat) (f : Node S → Node S) : Rep S :=
  { r with nodes := r.nodes.modify i f }

omit [UnorderedSet S Nat] in
/-- Change the predecessors of a node. -/
def updateIns (i : Nat) (f : S → S) : Rep S :=
  r.modify i fun n => { n with ins := f n.ins }

omit [UnorderedSet S Nat] in
/-- Change the successors of a node. -/
def updateOuts (i : Nat) (f : S → S) : Rep S :=
  r.modify i fun n => { n with outs := f n.outs }

/-- `NewNode`. -/
def newNode : Nat × Rep S :=
  match r.freeNodes with
  | [] => (r.nodes.length, { r with nodes := r.nodes ++ [.create r.nodes.length] })
  | n :: rest => (n, { r.modify n fun x => { x with data := none } with freeNodes := rest })

/-- Erase a node from the sets of its successors and of its predecessors. -/
def unlink (node : Nat) (outs ins : S) : Rep S :=
  let r := (toList outs).foldl (fun r y => r.updateIns y (erase node)) r
  (toList ins).foldl (fun r y => r.updateOuts y (erase node)) r

/-- Clear both sets of a node. -/
def clearNode (node : Nat) : Rep S :=
  (r.updateIns node clear).updateOuts node clear

/-- `RemoveNode`. -/
def removeNode (node : Nat) : Rep S :=
  let x := r.node node
  let r := (r.unlink node x.outs x.ins).clearNode node
  { r with freeNodes := node :: r.freeNodes }

omit [UnorderedSet S Nat] in
/-- `SetNodeData`. -/
def setNodeData (node : Nat) (data : Option Nat) : Rep S :=
  r.modify node fun n => { n with data := data }

/-- `HasEdge`. -/
def hasEdge (x y : Nat) : Bool := y ∈ toList (r.node x).outs

/-- `RemoveEdge`. -/
def removeEdge (x y : Nat) : Rep S :=
  (r.updateOuts x (erase y)).updateIns y (erase x)

/-! ## Depth-first search -/

/-- The two directions of search. -/
inductive Direction where
  | forward
  | backward

/-- The neighbors of a node in a direction. -/
def neighbors (n : Node S) : Direction → S
  | .forward => n.outs
  | .backward => n.ins

omit [UnorderedSet S Nat] in
/-- Set the marker of a node. -/
def setVisited (i : Nat) (visited : Bool) : Rep S :=
  r.modify i fun n => { n with visited := visited }

/-- The loop over the neighbors of a node: `none` if one of them has a rank to stop at. -/
def expand (r : Rep S) (stop pursue : Nat → Bool) : List Nat → List Nat → Option (List Nat)
  | [], stack => some stack
  | w :: ws, stack =>
    let nw := r.node w
    if stop nw.rank then none
    else expand r stop pursue ws
      (if !nw.visited && pursue nw.rank then w :: stack else stack)

/-- What the nodes without a mark can still put on the stack. -/
def pending (d : Direction) : Nat :=
  (r.nodes.map fun n => if n.visited then 0 else (toList (neighbors n d)).length).sum

theorem length_expand {r : Rep S} {stop pursue : Nat → Bool} {ws stack stack' : List Nat}
    (h : r.expand stop pursue ws stack = some stack') :
    stack'.length ≤ ws.length + stack.length := by
  induction ws generalizing stack with
  | nil =>
    cases h
    simp
  | cons w ws ih =>
    simp only [expand] at h
    split at h
    · cases h
    · have hle := ih h
      rw [List.length_cons]
      split at hle
      · rw [List.length_cons] at hle
        omega
      · omega

theorem pending_setVisited (d : Direction) (n : Nat) (hn : (r.node n).visited = false) :
    (r.setVisited n true).pending d + (toList (neighbors (r.node n) d)).length =
      r.pending d := by
  obtain ⟨nodes, free⟩ := r
  simp only [setVisited, modify, pending, node] at hn ⊢
  induction nodes generalizing n with
  | nil => cases d <;> simp [neighbors, Node.create]
  | cons x xs ih =>
    cases n with
    | zero =>
      have hx : x.visited = false := hn
      simp [hx]
      omega
    | succ n =>
      have hrec := ih n hn
      simp only [List.modify_succ_cons, List.map_cons, List.sum_cons, List.getD_cons_succ]
      omega

/-- The loop of the depth-first searches: the result, the graph and the visited nodes. -/
def search (d : Direction) (stop pursue : Nat → Bool) (r : Rep S) (stack delta : List Nat) :
    Bool × Rep S × List Nat :=
  match stack with
  | [] => (true, r, delta)
  | n :: stack =>
    if _hn : (r.node n).visited then search d stop pursue r stack delta
    else
      match _hs : (r.setVisited n true).expand stop pursue
          (toList (neighbors (r.node n) d)) stack with
      | none => (false, r.setVisited n true, delta ++ [n])
      | some stack' => search d stop pursue (r.setVisited n true) stack' (delta ++ [n])
termination_by r.pending d + stack.length
decreasing_by
  · simp
  · have hlen := length_expand _hs
    have hpending := r.pending_setVisited d n (by simpa using _hn)
    simp only [List.length_cons]
    omega

/-- `ForwardDFS` with `deltaf_`. -/
def forwardDFS (n upperBound : Nat) : Bool × Rep S × List Nat :=
  search .forward (· == upperBound) (· < upperBound) r [n] []

/-- `BackwardDFS` with `deltab_`. -/
def backwardDFS (n lowerBound : Nat) : Rep S × List Nat :=
  (search .backward (fun _ => false) (lowerBound < ·) r [n] []).2

omit [UnorderedSet S Nat] in
/-- `ClearVisitedBits`. -/
def clearVisitedBits (nodes : List Nat) : Rep S :=
  nodes.foldl (fun r n => r.setVisited n false) r

/-! ## Reordering -/

/-- `Sort`. -/
def sort (delta : List Nat) : List Nat :=
  delta.insertionSort fun a b => (r.node a).rank ≤ (r.node b).rank

/-- `MoveToList`: the graph, the source with its entries replaced by their ranks, and the
destination. -/
def moveToList (r : Rep S) : List Nat → List Nat → Rep S × List Nat × List Nat
  | [], dst => (r, [], dst)
  | w :: src, dst =>
    let rank := (r.node w).rank
    let p := moveToList (r.setVisited w false) src (dst ++ [w])
    (p.1, rank :: p.2.1, p.2.2)

/-- `Reorder`. -/
def reorder (deltab deltaf : List Nat) : Rep S :=
  let deltab := r.sort deltab
  let deltaf := r.sort deltaf
  let b := r.moveToList deltab []
  let f := b.1.moveToList deltaf b.2.2
  let merged := b.2.1.merge f.2.1
  (f.2.2.zip merged).foldl (fun r p => r.modify p.1 fun n => { n with rank := p.2 }) f.1

/-- `InsertEdge`. -/
def insertEdge (x y : Nat) : Bool × Rep S :=
  if x = y then (false, r)
  else if r.hasEdge x y then (true, r)
  else
    let r := (r.updateOuts x (insert y)).updateIns y (insert x)
    if (r.node x).rank ≤ (r.node y).rank then (true, r)
    else
      let f := r.forwardDFS y (r.node x).rank
      let r := f.2.1
      if !f.1 then
        let r := (r.updateOuts x (erase y)).updateIns y (erase x)
        (false, r.clearVisitedBits f.2.2)
      else
        let b := r.backwardDFS x (r.node y).rank
        (true, b.1.reorder b.2 f.2.2)

/-- `IsReachableNonConst`. -/
def isReachableNonConst (x y : Nat) : Bool × Rep S :=
  if x = y then (true, r)
  else if (r.node x).rank ≥ (r.node y).rank then (false, r)
  else
    let f := r.forwardDFS x (r.node y).rank
    (!f.1, f.2.1.clearVisitedBits f.2.2)

/-- `ContractEdge`; `none` if its check for the edge fails. -/
def contractEdge (a b : Nat) : Option (Bool × Rep S) :=
  if r.hasEdge a b then
    let p := (r.removeEdge a b).isReachableNonConst a b
    let r := p.2
    if p.1 then some (false, (r.insertEdge a b).2)
    else
      let nb := r.node b
      let r := (r.clearNode b).unlink b nb.outs nb.ins
      let r := { r with freeNodes := b :: r.freeNodes }
      let r := (toList nb.outs).foldl (fun r y => (r.insertEdge a y).2) r
      some (true, (toList nb.ins).foldl (fun r y => (r.insertEdge y a).2) r)
  else none

/-! ## Runs -/

/-- The calls on a graph. -/
inductive Call where
  | newNode
  | removeNode (node : Nat)
  | setNodeData (node : Nat) (data : Option Nat)
  | insertEdge (x y : Nat)
  | removeEdge (x y : Nat)
  | contractEdge (a b : Nat)
  | isReachableNonConst (x y : Nat)
  deriving DecidableEq, Repr

/-- The graph after a call; `none` if the call does not return. -/
def call : Call → Option (Rep S)
  | .newNode => some r.newNode.2
  | .removeNode node => some (r.removeNode node)
  | .setNodeData node data => some (r.setNodeData node data)
  | .insertEdge x y => some (r.insertEdge x y).2
  | .removeEdge x y => some (r.removeEdge x y)
  | .contractEdge a b => (r.contractEdge a b).map Prod.snd
  | .isReachableNonConst x y => some (r.isReachableNonConst x y).2

omit [UnorderedSet S Nat] in
/-- The node has been allocated and not been removed since. -/
def Live (n : Nat) : Prop := n < r.nodes.length ∧ n ∉ r.freeNodes

omit [UnorderedSet S Nat] in
/-- The arguments of the call are live. -/
def OnLiveNodes : Call → Prop
  | .newNode => True
  | .removeNode n | .setNodeData n _ => r.Live n
  | .insertEdge x y | .removeEdge x y | .contractEdge x y | .isReachableNonConst x y =>
    r.Live x ∧ r.Live y

end Rep

end Tension.GraphCycles
