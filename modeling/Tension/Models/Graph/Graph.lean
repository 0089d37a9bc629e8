import Mathlib.Logic.Function.Basic
import Tension.Core.ObjectTable
import Tension.Models.Framework.Tensor
import Tension.Models.Graph.EdgeSet
import Tension.Models.Status

/-!
# Graphs of nodes and edges

Nodes and edges are objects at addresses. Objects that are removed are recycled. A call whose
`CHECK` fails, or that writes outside of a list, does not return. The checks of debug builds are
left out.
-/

namespace Tension.Graphs

open Framework (DataType)

/-- `Graph::kControlSlot`. -/
def kControlSlot : Int := -1

/-- `NodeDef`, with the attributes and the requested device in `attr`. -/
structure NodeDef (A : Type) where
  name : String
  op : String
  input : List String
  attr : A

/-- The type of an input or an output, which may be a reference type. -/
structure ArgType where
  type : DataType
  isRef : Bool
  deriving DecidableEq

/-- `NodeProperties`. -/
structure NodeProperties (A OpDef : Type) where
  opDef : OpDef
  nodeDef : NodeDef A
  inputTypes : List ArgType
  outputTypes : List ArgType

/-- `Node`. Properties are shared between nodes until they are written, so that every node has its
own. -/
structure Node (A OpDef : Type) where
  id : Int
  costId : Int
  props : Option (NodeProperties A OpDef)
  assignedDeviceName : String
  inEdges : EdgeSet
  outEdges : EdgeSet

/-- `Edge`. -/
structure Edge where
  src : Option Nat
  dst : Option Nat
  id : Int
  srcOutput : Int
  dstInput : Int
  deriving DecidableEq

/-- `IsControlEdge`. -/
def Edge.isControlEdge (e : Edge) : Bool := e.srcOutput = kControlSlot

/-- What the graph asks of the op registry, and how it shows nodes. Errors of
`InOutTypesForNode` come with the node definition attached. -/
structure Registry (A OpDef : Type) where
  lookUpOpDef : String → Except Status OpDef
  inOutTypesForNode : NodeDef A → OpDef → Except Status (List ArgType × List ArgType)
  opName : OpDef → String
  debugString : Node A OpDef → String

namespace Node

variable {A OpDef : Type}

/-- The constructor, and `Clear`. -/
def new : Node A OpDef where
  id := -1
  costId := -1
  props := none
  assignedDeviceName := ""
  inEdges := .empty
  outEdges := .empty

variable (n : Node A OpDef)

/-- `IsSource`. -/
def isSource : Bool := n.id = 0

/-- `IsSink`. -/
def isSink : Bool := n.id = 1

/-- The inputs of the node definition are changed. -/
def modifyInput (f : List String → List String) : Node A OpDef :=
  { n with
    props := n.props.map fun p =>
      { p with nodeDef := { p.nodeDef with input := f p.nodeDef.input } } }

end Node

/-- `Graph`: `nodes_` with `free_nodes_` and `num_nodes_`, the same for edges, and the objects. -/
structure Graph (A OpDef : Type) where
  nodes : ObjectTable
  edges : ObjectTable
  node : Nat → Node A OpDef
  edge : Nat → Edge

namespace Graph

variable {A OpDef : Type}

variable (g : Graph A OpDef)

/-- A node is changed in place. -/
def modifyNode (n : Nat) (f : Node A OpDef → Node A OpDef) : Graph A OpDef :=
  { g with node := Function.update g.node n (f (g.node n)) }

/-- `AllocateNode`, with the address of the node. A new object is placed at the address
`fresh`. -/
def allocateNode (props : NodeProperties A OpDef) (costNode : Option Int)
    (fresh : Nat) : Graph A OpDef × Nat :=
  let n := g.nodes.next fresh
  let object := if g.nodes.free.isEmpty then Node.new else g.node n
  let id := g.nodes.entries.length
  ({ g with
      nodes := g.nodes.add fresh
      node := Function.update g.node n
        { object with id, costId := costNode.getD id, props := some props } }, n)

/-- `ReleaseNode`. -/
def releaseNode (n : Nat) : Graph A OpDef :=
  { g with
    nodes := g.nodes.remove (g.node n).id.toNat n
    node := Function.update g.node n .new }

variable (reg : Registry A OpDef)

/-- `AddNode`. -/
def addNode (g : Graph A OpDef) (nodeDef : NodeDef A) (fresh : Nat) :
    Graph A OpDef × Except Status Nat :=
  match reg.lookUpOpDef nodeDef.op with
  | .error status => (g, .error status)
  | .ok opDef =>
    match reg.inOutTypesForNode nodeDef opDef with
    | .error status => (g, .error status)
    | .ok (inputs, outputs) =>
      let (g, n) := g.allocateNode ⟨opDef, nodeDef, inputs, outputs⟩ none fresh
      (g, .ok n)

/-- `CopyNode` of a node that may belong to another graph. -/
def copyNode (g : Graph A OpDef) (node : Node A OpDef) (fresh : Nat) :
    Option (Graph A OpDef × Nat) :=
  node.props.bind fun props =>
    match reg.lookUpOpDef props.nodeDef.op with
    | .error _ => none
    | .ok opDef =>
      let (g, n) := g.allocateNode { props with opDef } (some node.costId) fresh
      some (g.modifyNode n fun copy =>
        { copy with assignedDeviceName := node.assignedDeviceName }, n)

/-- `AddEdge`, with the address of the edge. -/
def addEdge (source : Nat) (x : Int) (dest : Nat) (y : Int) (fresh : Nat) :
    Option (Graph A OpDef × Nat) :=
  let e := g.edges.next fresh
  let edge : Edge := ⟨some source, some dest, g.edges.entries.length, x, y⟩
  let (outEdges, isNew) := (g.node source).outEdges.insert e
  if isNew then
    let g := g.modifyNode source fun n => { n with outEdges }
    let (inEdges, isNew) := (g.node dest).inEdges.insert e
    if isNew then
      let g := g.modifyNode dest fun n => { n with inEdges }
      some ({ g with edges := g.edges.add fresh, edge := Function.update g.edge e edge }, e)
    else none
  else none

/-- `RemoveEdge`. -/
def removeEdge (e : Nat) : Option (Graph A OpDef) :=
  match (g.edge e).src, (g.edge e).dst with
  | some src, some dst =>
    let (outEdges, erased) := (g.node src).outEdges.erase e
    if erased = 1 then
      let g := g.modifyNode src fun n => { n with outEdges }
      let (inEdges, erased) := (g.node dst).inEdges.erase e
      if erased = 1 then
        let g := g.modifyNode dst fun n => { n with inEdges }
        let id := (g.edge e).id.toNat
        if g.edges.entries[id]? = some (some e) ∧ 0 < g.edges.count then
          some { g with
            edges := g.edges.remove id e
            edge := Function.update g.edge e
              ⟨none, none, -1, kControlSlot - 1, kControlSlot - 1⟩ }
        else none
      else none
    else none
  | _, _ => none

/-- A loop of `RemoveNode`, over the in edges or the out edges. -/
def removeEdges (edgeSet : Node A OpDef → EdgeSet) (n : Nat) :
    Nat → Graph A OpDef → Option (Graph A OpDef)
  | 0, g => if (edgeSet (g.node n)).isEmpty then some g else none
  | fuel + 1, g =>
    if (edgeSet (g.node n)).isEmpty then some g
    else ((edgeSet (g.node n)).begin?.bind g.removeEdge).bind (removeEdges edgeSet n fuel)

/-- `RemoveNode`. No loop can remove more edges than there are. -/
def removeNode (n : Nat) : Option (Graph A OpDef) :=
  (removeEdges Node.inEdges n g.edges.count.toNat g).bind fun g =>
    (removeEdges Node.outEdges n g.edges.count.toNat g).map fun g => g.releaseNode n

/-- The name of a node. -/
def name (n : Nat) : Option String := (g.node n).props.map (·.nodeDef.name)

/-- `AddControlEdge`. No edge is returned if there is one. -/
def addControlEdge (source dest : Nat) (allowDuplicates : Bool) (fresh : Nat) :
    Option (Graph A OpDef × Option Nat) :=
  if !allowDuplicates && (g.node dest).inEdges.elems.any fun e =>
      (g.edge e).isControlEdge && (g.edge e).src = some source then
    some (g, none)
  else
    let changed :=
      if !(g.node source).isSource && !(g.node dest).isSink && !allowDuplicates then
        (g.name source).map fun name =>
          g.modifyNode dest fun n => n.modifyInput fun input =>
            if "^" ++ name ∈ input then input else input ++ ["^" ++ name]
      else some g
    changed.bind fun g =>
      (g.addEdge source kControlSlot dest kControlSlot fresh).map fun r => (r.1, some r.2)

/-- `RemoveControlEdge`. -/
def removeControlEdge (e : Nat) : Option (Graph A OpDef) :=
  match (g.edge e).src, (g.edge e).dst with
  | some src, some dst =>
    if !(g.node src).isSource && !(g.node dst).isSink then
      (g.name src).bind fun name =>
        (g.modifyNode dst fun n =>
          n.modifyInput fun input => input.erase ("^" ++ name)).removeEdge e
    else g.removeEdge e
  | _, _ => none

/-- `IsValidNode`. -/
def isValidNode (n : Nat) : Status :=
  let id := (g.node n).id
  if id < 0 then .invalidArgument ("node id " ++ toString id ++ " is less than zero")
  else if (g.nodes.entries.length : Int) ≤ id then
    .invalidArgument ("node id " ++ toString id ++ " is >= than number of nodes in graph " ++
      toString g.nodes.entries.length)
  else if g.nodes.entries[id.toNat]? ≠ some (some n) then
    .invalidArgument ("Node with id " ++ toString id ++ " is different from the passed in node. " ++
      "Does it belong to a different graph?")
  else .ok

/-- The texts of `IsValidOutputTensor` and `IsValidInputTensor`. -/
def missingTensor (p : NodeProperties A OpDef) (what : String)
    (size : Nat) (idx : Int) : Status :=
  .outOfRange ("Node '" ++ p.nodeDef.name ++ "' (type: '" ++ reg.opName p.opDef ++ "', num of " ++
    what ++ "s: " ++ toString size ++ ") does not have " ++ what ++ " " ++ toString idx)

/-- `IsValidOutputTensor` and `IsValidInputTensor`, with the types that they look at. -/
def isValidTensor (g : Graph A OpDef)
    (types : NodeProperties A OpDef → List ArgType) (what : String) (n : Nat) (idx : Int) :
    Option Status :=
  if (g.isValidNode n).code ≠ .ok then some (g.isValidNode n)
  else (g.node n).props.map fun p =>
    if ((types p).length : Int) ≤ idx then missingTensor reg p what (types p).length idx else .ok

/-- `IsValidOutputTensor`. -/
def isValidOutputTensor (g : Graph A OpDef) (n : Nat) (idx : Int) :
    Option Status := g.isValidTensor reg NodeProperties.outputTypes "output" n idx

/-- `IsValidInputTensor`. -/
def isValidInputTensor (g : Graph A OpDef) (n : Nat) (idx : Int) :
    Option Status := g.isValidTensor reg NodeProperties.inputTypes "input" n idx

/-- `FindEdge`. -/
def findEdge (dst : Nat) (index : Int) : Option Nat :=
  (g.edges.entries.filterMap id).find? fun e =>
    (g.edge e).dst = some dst && (g.edge e).dstInput = index

/-- An input of a node definition is overwritten. -/
def setInput (n : Nat) (index : Int) (value : String) :
    Option (Graph A OpDef) :=
  (g.node n).props.bind fun p =>
    if 0 ≤ index ∧ index < p.nodeDef.input.length then
      some (g.modifyNode n fun n => n.modifyInput fun input => input.set index.toNat value)
    else none

/-- `UpdateEdge`. -/
def updateEdge (g : Graph A OpDef) (newSrc : Nat) (newSrcIndex : Int)
    (dst : Nat) (dstIndex : Int) (fresh : Nat) : Option (Graph A OpDef × Status) :=
  (g.isValidOutputTensor reg newSrc newSrcIndex).bind fun status =>
    if status.code ≠ .ok then some (g, status)
    else (g.isValidInputTensor reg dst dstIndex).bind fun status =>
      if status.code ≠ .ok then some (g, status)
      else
        match g.findEdge dst dstIndex with
        | none =>
          some (g, .invalidArgument ("Couldn't find edge to " ++ reg.debugString (g.node dst)))
        | some e =>
          (g.removeEdge e).bind fun g =>
            (g.addEdge newSrc newSrcIndex dst dstIndex fresh).bind fun r =>
              (r.1.name newSrc).bind fun name =>
                (r.1.setInput dst dstIndex (name ++ ":" ++ toString newSrcIndex)).map fun g =>
                  (g, .ok)

/-- The graph before the source and the sink are added. -/
def empty : Graph A OpDef where
  nodes := .empty
  edges := .empty
  node _ := .new
  edge _ := ⟨none, none, -1, kControlSlot - 1, kControlSlot - 1⟩

/-- The constructor. Source and sink are placed at the addresses that are given, and the edge
between them as well. -/
def new (attr : A) (source sink edge : Nat) : Option (Graph A OpDef) :=
  match addNode reg empty ⟨"_SOURCE", "NoOp", [], attr⟩ source with
  | (_, .error _) => none
  | (g, .ok source) =>
    if (g.node source).id = 0 then
      match g.addNode reg ⟨"_SINK", "NoOp", [], attr⟩ sink with
      | (_, .error _) => none
      | (g, .ok sink) =>
        if (g.node sink).id = 1 then (g.addControlEdge source sink false edge).map (·.1) else none
    else none

end Graph

/-- A call of a graph, with the address of a new object. -/
inductive GraphCall (A OpDef : Type) where
  | addNode (nodeDef : NodeDef A) (fresh : Nat)
  | copyNode (node : Node A OpDef) (fresh : Nat)
  | removeNode (n : Nat)
  | addEdge (source : Nat) (x : Int) (dest : Nat) (y : Int) (fresh : Nat)
  | removeEdge (e : Nat)
  | addControlEdge (source dest : Nat) (allowDuplicates : Bool) (fresh : Nat)
  | removeControlEdge (e : Nat)
  | updateEdge (newSrc : Nat) (newSrcIndex : Int) (dst : Nat) (dstIndex : Int) (fresh : Nat)

/-- The graph after a call. -/
def Graph.call {A OpDef : Type} (reg : Registry A OpDef) (g : Graph A OpDef) :
    GraphCall A OpDef → Option (Graph A OpDef)
  | .addNode nodeDef fresh => some (g.addNode reg nodeDef fresh).1
  | .copyNode node fresh => (g.copyNode reg node fresh).map (·.1)
  | .removeNode n => g.removeNode n
  | .addEdge source x dest y fresh => (g.addEdge source x dest y fresh).map (·.1)
  | .removeEdge e => g.removeEdge e
  | .addControlEdge source dest allowDuplicates fresh =>
    (g.addControlEdge source dest allowDuplicates fresh).map (·.1)
  | .removeControlEdge e => g.removeControlEdge e
  | .updateEdge newSrc newSrcIndex dst dstIndex fresh =>
    (g.updateEdge reg newSrc newSrcIndex dst dstIndex fresh).map (·.1)

end Tension.Graphs
