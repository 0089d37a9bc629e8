import Tension.Core.Run
import Tension.Models.Graph.Graph

/-!
# The structure of graphs

The tables of a graph are in order, and the edge sets of its nodes contain the edges between
them, after every call.
-/

namespace Tension.Graphs

open List Option Function
open ObjectTable (extends_add extends_remove live_add unused_add valid_empty)

variable {A OpDef : Type} {reg : Registry A OpDef} {g g' : Graph A OpDef} {n e fresh : Nat}

/-- The node has properties, and its op is registered. -/
def Copyable (reg : Registry A OpDef) (n : Node A OpDef) : Prop :=
  ∃ p opDef, n.props = some p ∧ reg.lookUpOpDef p.nodeDef.op = .ok opDef

/-- The edge sets contain the live edges with that end, for nodes that are live or removed. -/
def Adjacent (g : Graph A OpDef) (edgeSet : Node A OpDef → EdgeSet) (endpoint : Edge → Option Nat) :
    Prop :=
  ∀ n e, ¬g.nodes.Unused n →
    (e ∈ (edgeSet (g.node n)).elems ↔ g.edges.Live e ∧ endpoint (g.edge e) = some n)

/-- The structure of a graph is in order. -/
structure WellFormed (reg : Registry A OpDef) (g : Graph A OpDef) : Prop where
  nodes : g.nodes.Valid fun n => (g.node n).id
  edges : g.edges.Valid fun e => (g.edge e).id
  src : ∀ e, g.edges.Live e → ∃ n, (g.edge e).src = some n ∧ g.nodes.Live n
  dst : ∀ e, g.edges.Live e → ∃ n, (g.edge e).dst = some n ∧ g.nodes.Live n
  outEdges : Adjacent g Node.outEdges Edge.src
  inEdges : Adjacent g Node.inEdges Edge.dst
  copyable : ∀ n, g.nodes.Live n → Copyable reg (g.node n)

/-- Numbers of nodes and of edges are not reused. -/
structure Later (g g' : Graph A OpDef) : Prop where
  nodes : g.nodes.Extends g'.nodes
  edges : g.edges.Extends g'.edges

theorem Later.refl (g : Graph A OpDef) : Later g g := ⟨.refl _, .refl _⟩

theorem Later.trans {g'' : Graph A OpDef} (h₁ : Later g g') (h₂ : Later g' g'') : Later g g'' :=
  ⟨h₁.nodes.trans h₂.nodes, h₁.edges.trans h₂.edges⟩

/-! ## The two sides -/

/-- One side of a graph: every live edge ends at a live node there, and the edge sets agree. -/
structure Side (g : Graph A OpDef) (edgeSet : Node A OpDef → EdgeSet)
    (endpoint : Edge → Option Nat) :
    Prop where
  ends : ∀ e, g.edges.Live e → ∃ n, endpoint (g.edge e) = some n ∧ g.nodes.Live n
  adjacent : Adjacent g edgeSet endpoint

theorem WellFormed.outSide (h : WellFormed reg g) : Side g Node.outEdges Edge.src :=
  ⟨h.src, h.outEdges⟩

theorem WellFormed.inSide (h : WellFormed reg g) : Side g Node.inEdges Edge.dst :=
  ⟨h.dst, h.inEdges⟩

section Sides

variable {edgeSet : Node A OpDef → EdgeSet} {endpoint : Edge → Option Nat}

/-- A node that no edge ends at has an empty edge set. -/
theorem Adjacent.eq_nil (h : Adjacent g edgeSet endpoint) (hn : ¬g.nodes.Unused n)
    (hnone : ∀ e, g.edges.Live e → endpoint (g.edge e) ≠ some n) :
    (edgeSet (g.node n)).elems = [] := by
  refine eq_nil_iff_forall_not_mem.mpr fun e he => ?_
  obtain ⟨hlive, hend⟩ := (h n e hn).mp he
  exact hnone e hlive hend

/-- No edge ends at a node with an empty edge set. -/
theorem Adjacent.ne_of_eq_nil (h : Adjacent g edgeSet endpoint) (hn : g.nodes.Live n)
    (hempty : (edgeSet (g.node n)).elems = []) (he : g.edges.Live e) :
    endpoint (g.edge e) ≠ some n := by
  intro hend
  have hmem := (h n e fun hunused => hunused.1 hn).mpr ⟨he, hend⟩
  rw [hempty] at hmem
  cases hmem

variable (h : Side g edgeSet endpoint)
include h

theorem Side.ne_of_not_live (hn : ¬g.nodes.Live n) (he : g.edges.Live e) :
    endpoint (g.edge e) ≠ some n := by
  intro hend
  obtain ⟨m, hm, hlive⟩ := h.ends e he
  exact hn (some.inj (hend.symm.trans hm) ▸ hlive)

/-- A node is added without edges. -/
theorem Side.add (hnext : ¬g.nodes.Live (g.nodes.next fresh)) {node : Nat → Node A OpDef}
    (hempty : (edgeSet (node (g.nodes.next fresh))).elems = [])
    (hother : ∀ m, m ≠ g.nodes.next fresh → node m = g.node m) :
    Side { g with nodes := g.nodes.add fresh, node } edgeSet endpoint where
  ends e he := by
    obtain ⟨n, hn, hlive⟩ := h.ends e he
    exact ⟨n, hn, live_add.mpr (.inl hlive)⟩
  adjacent m e hm := by
    dsimp only at hm ⊢
    rcases eq_or_ne m (g.nodes.next fresh) with rfl | hne
    · rw [hempty]
      exact ⟨fun he => absurd he not_mem_nil,
        fun ⟨he, hend⟩ => absurd hend (h.ne_of_not_live hnext he)⟩
    · rw [hother m hne]
      exact h.adjacent m e fun hunused => hm (unused_add.mpr ⟨hunused, hne⟩)

/-- A node without edges is removed. -/
theorem Side.release (hvalid : g.nodes.Valid fun n => (g.node n).id) (hn : g.nodes.Live n)
    (hempty : (edgeSet (g.node n)).elems = []) (hnew : (edgeSet .new).elems = []) :
    Side (g.releaseNode n) edgeSet endpoint where
  ends e he := by
    obtain ⟨m, hm, hlive⟩ := h.ends e he
    refine ⟨m, hm, (hvalid.live_remove hn).mpr ⟨hlive, ?_⟩⟩
    rintro rfl
    exact h.adjacent.ne_of_eq_nil hn hempty he hm
  adjacent m e hm := by
    rcases eq_or_ne m n with rfl | hne
    · simp only [Graph.releaseNode, update_self, hnew]
      exact ⟨fun he => absurd he not_mem_nil,
        fun ⟨he, hend⟩ => absurd hend (h.adjacent.ne_of_eq_nil hn hempty he)⟩
    · simp only [Graph.releaseNode, update_of_ne hne]
      exact h.adjacent m e fun hunused => hm ((hvalid.unused_remove hn).mpr hunused)

/-- An edge is added, and inserted at the node where it ends. -/
theorem Side.insert (hnodes : g'.nodes = g.nodes)
    (hlive : ∀ e', g'.edges.Live e' ↔ g.edges.Live e' ∨ e' = e)
    (hedge : ∀ e', e' ≠ e → g'.edge e' = g.edge e') (hend : endpoint (g'.edge e) = some n)
    (hn : g.nodes.Live n) (he : ¬g.edges.Live e)
    (hset : ∀ m, edgeSet (g'.node m) =
      if m = n then ((edgeSet (g.node n)).insert e).1 else edgeSet (g.node m)) :
    Side g' edgeSet endpoint where
  ends e' he' := by
    rw [hnodes]
    rcases (hlive e').mp he' with hold | rfl
    · rw [hedge e' fun heq => he (heq ▸ hold)]
      exact h.ends e' hold
    · exact ⟨n, hend, hn⟩
  adjacent m e' hm := by
    rw [hnodes] at hm
    have hmem : e' ∈ (edgeSet (g'.node m)).elems ↔
        m = n ∧ e' = e ∨ e' ∈ (edgeSet (g.node m)).elems := by
      rw [hset]
      split
      · rename_i heq
        rw [EdgeSet.mem_insert_iff, heq]
        simp
      · simp [*]
    rw [hmem, h.adjacent m e' hm, hlive]
    rcases eq_or_ne e' e with rfl | hne
    · simp only [hend, he, false_and, or_false, and_true, or_true, true_and, some.injEq]
      exact eq_comm
    · simp [hedge e' hne, hne]

/-- An edge is removed, and erased at the node where it ends. -/
theorem Side.erase (hnodes : g'.nodes = g.nodes)
    (hlive : ∀ e', g'.edges.Live e' ↔ g.edges.Live e' ∧ e' ≠ e)
    (hedge : ∀ e', e' ≠ e → g'.edge e' = g.edge e') (hend : endpoint (g.edge e) = some n)
    (he : e ∈ (edgeSet (g.node n)).elems)
    (hset : ∀ m, edgeSet (g'.node m) =
      if m = n then ((edgeSet (g.node n)).erase e).1 else edgeSet (g.node m)) :
    Side g' edgeSet endpoint where
  ends e' he' := by
    obtain ⟨hold, hne⟩ := (hlive e').mp he'
    rw [hnodes, hedge e' hne]
    exact h.ends e' hold
  adjacent m e' hm := by
    rw [hnodes] at hm
    have hmem : e' ∈ (edgeSet (g'.node m)).elems ↔
        e' ∈ (edgeSet (g.node m)).elems ∧ ¬(m = n ∧ e' = e) := by
      rw [hset]
      split
      · rename_i heq
        rw [EdgeSet.mem_erase_iff _ he, heq]
        simp
      · simp [*]
    rw [hmem, h.adjacent m e' hm, hlive]
    rcases eq_or_ne e' e with rfl | hne
    · simp only [hend, some.injEq, and_true, ne_eq, not_true, and_false, false_and, iff_false]
      rintro ⟨⟨-, heq⟩, hne⟩
      exact hne heq.symm
    · simp [hedge e' hne, hne]

end Sides

/-! ## Nodes -/

/-- Changes of a node that do not concern the structure. -/
structure SameStructure (m m' : Node A OpDef) : Prop where
  id : m'.id = m.id
  inEdges : m'.inEdges = m.inEdges
  outEdges : m'.outEdges = m.outEdges

theorem WellFormed.modifyNode (h : WellFormed reg g) {f : Node A OpDef → Node A OpDef}
    (hf : SameStructure (g.node n) (f (g.node n)))
    (hcopyable : Copyable reg (g.node n) → Copyable reg (f (g.node n))) :
    WellFormed reg (g.modifyNode n f) := by
  have hsame (m : Nat) : SameStructure (g.node m) ((g.modifyNode n f).node m) := by
    rcases eq_or_ne m n with rfl | hne
    · simpa [Graph.modifyNode] using hf
    · simp only [Graph.modifyNode, update_of_ne hne]
      exact ⟨rfl, rfl, rfl⟩
  refine ⟨?_, h.edges, h.src, h.dst, ?_, ?_, ?_⟩
  · have hids : (fun m => ((g.modifyNode n f).node m).id) = fun m => (g.node m).id :=
      funext fun m => (hsame m).id
    rw [hids]
    exact h.nodes
  · intro m e hm
    rw [(hsame m).outEdges]
    exact h.outEdges m e hm
  · intro m e hm
    rw [(hsame m).inEdges]
    exact h.inEdges m e hm
  · intro m hm
    rcases eq_or_ne m n with rfl | hne
    · simpa [Graph.modifyNode] using hcopyable (h.copyable m hm)
    · simp only [Graph.modifyNode, update_of_ne hne]
      exact h.copyable m hm

theorem copyable_modifyInput {m : Node A OpDef} {f : List String → List String}
    (h : Copyable reg m) : Copyable reg (m.modifyInput f) := by
  obtain ⟨p, opDef, hp, hop⟩ := h
  refine ⟨{ p with nodeDef := { p.nodeDef with input := f p.nodeDef.input } }, opDef, ?_, hop⟩
  rw [Node.modifyInput, hp]
  rfl

theorem later_modifyNode (g : Graph A OpDef) (n : Nat) (f : Node A OpDef → Node A OpDef) :
    Later g (g.modifyNode n f) := ⟨.refl _, .refl _⟩

section

variable (h : WellFormed reg g)
include h

theorem WellFormed.modifyInput (f : List String → List String) :
    WellFormed reg (g.modifyNode n fun m => m.modifyInput f) :=
  h.modifyNode ⟨rfl, rfl, rfl⟩ copyable_modifyInput

theorem WellFormed.allocateNode (hfresh : g.nodes.Unused fresh) (props : NodeProperties A OpDef)
    {opDef : OpDef} (hop : reg.lookUpOpDef props.nodeDef.op = .ok opDef) (costNode : Option Int) :
    WellFormed reg (g.allocateNode props costNode fresh).1 ∧
      Later g (g.allocateNode props costNode fresh).1 ∧
      ((g.allocateNode props costNode fresh).1.node (g.nodes.next fresh)).id =
        g.nodes.entries.length := by
  have hnext : ¬g.nodes.Live (g.nodes.next fresh) := h.nodes.next_not_live hfresh
  have hself : (((g.allocateNode props costNode fresh).1.node (g.nodes.next fresh)).id =
        g.nodes.entries.length ∧
      ((g.allocateNode props costNode fresh).1.node (g.nodes.next fresh)).props = some props) ∧
      ((g.allocateNode props costNode fresh).1.node (g.nodes.next fresh)).inEdges.elems = [] ∧
      ((g.allocateNode props costNode fresh).1.node (g.nodes.next fresh)).outEdges.elems = [] := by
    simp only [Graph.allocateNode, update_self, true_and]
    rcases g.nodes.next_cases fresh with ⟨hnil, -⟩ | ⟨-, hmem⟩
    · rw [hnil]
      exact ⟨rfl, rfl⟩
    · rw [if_neg (by simpa using ne_nil_of_mem hmem)]
      have hknown : ¬g.nodes.Unused (g.nodes.next fresh) := fun hunused => hunused.2 hmem
      exact ⟨h.inEdges.eq_nil hknown fun _ => h.inSide.ne_of_not_live hnext,
        h.outEdges.eq_nil hknown fun _ => h.outSide.ne_of_not_live hnext⟩
  have hother (m : Nat) (hm : m ≠ g.nodes.next fresh) :
      (g.allocateNode props costNode fresh).1.node m = g.node m := update_of_ne hm _ _
  have hout := h.outSide.add hnext hself.2.2 hother
  have hin := h.inSide.add hnext hself.2.1 hother
  refine ⟨⟨?_, h.edges, hout.ends, hin.ends, hout.adjacent, hin.adjacent, fun m hm => ?_⟩,
    ⟨extends_add _ _, .refl _⟩, hself.1.1⟩
  · exact h.nodes.add hfresh hself.1.1 fun m hm => by rw [hother m hm]
  · rcases eq_or_ne m (g.nodes.next fresh) with rfl | hne
    · exact ⟨props, opDef, hself.1.2, hop⟩
    · rw [hother m hne]
      exact h.copyable m ((live_add.mp hm).resolve_right hne)

/-- A removed node has an empty place in the table. -/
theorem WellFormed.releaseNode (hn : g.nodes.Live n) (hin : (g.node n).inEdges.elems = [])
    (hout : (g.node n).outEdges.elems = []) :
    WellFormed reg (g.releaseNode n) ∧ Later g (g.releaseNode n) := by
  have hother (m : Nat) (hm : m ≠ n) : (g.releaseNode n).node m = g.node m := update_of_ne hm _ _
  have hself : (g.releaseNode n).node n = .new := update_self ..
  have hout := h.outSide.release h.nodes hn hout rfl
  have hin := h.inSide.release h.nodes hn hin rfl
  refine ⟨⟨?_, h.edges, hout.ends, hin.ends, hout.adjacent, hin.adjacent, fun m hm => ?_⟩,
    extends_remove _ _ _, .refl _⟩
  · exact h.nodes.remove hn (by rw [hself]; rfl) fun m hm => by rw [hother m hm]
  · obtain ⟨hlive, hne⟩ := (h.nodes.live_remove hn).mp hm
    rw [hother m hne]
    exact h.copyable m hlive

end

/-! ## Edges -/

/-- The nodes of two graphs differ in their edge sets only. -/
structure SameNodes (g g' : Graph A OpDef) : Prop where
  nodes : g'.nodes = g.nodes
  id : ∀ m, (g'.node m).id = (g.node m).id
  props : ∀ m, (g'.node m).props = (g.node m).props

theorem SameNodes.trans {g'' : Graph A OpDef} (h₁ : SameNodes g g') (h₂ : SameNodes g' g'') :
    SameNodes g g'' where
  nodes := h₂.nodes.trans h₁.nodes
  id m := (h₂.id m).trans (h₁.id m)
  props m := (h₂.props m).trans (h₁.props m)

theorem SameNodes.valid (h : SameNodes g g') (hg : WellFormed reg g) :
    g'.nodes.Valid fun m => (g'.node m).id := by
  have hids : (fun m => (g'.node m).id) = fun m => (g.node m).id := funext h.id
  rw [hids, h.nodes]
  exact hg.nodes

theorem SameNodes.copyable (h : SameNodes g g') (hg : WellFormed reg g) (m : Nat)
    (hm : g'.nodes.Live m) : Copyable reg (g'.node m) := by
  rw [Copyable, h.props]
  exact hg.copyable m (h.nodes ▸ hm)

/-- The out edges of one node and the in edges of another are replaced. -/
def relink (g : Graph A OpDef) (src : Nat) (outEdges : EdgeSet) (dst : Nat) (inEdges : EdgeSet) :
    Graph A OpDef :=
  (g.modifyNode src fun n => { n with outEdges }).modifyNode dst fun n => { n with inEdges }

section Relink

variable (g) (src : Nat) (outEdges : EdgeSet) (dst : Nat) (inEdges : EdgeSet)

theorem inEdges_modifyNode (m : Nat) :
    ((g.modifyNode src fun n => { n with outEdges }).node m).inEdges = (g.node m).inEdges := by
  rcases eq_or_ne m src with rfl | hne
  · simp [Graph.modifyNode]
  · simp [Graph.modifyNode, hne]

theorem relink_node (m : Nat) : (relink g src outEdges dst inEdges).node m =
    { g.node m with
      outEdges := if m = src then outEdges else (g.node m).outEdges
      inEdges := if m = dst then inEdges else (g.node m).inEdges } := by
  rcases eq_or_ne m dst with rfl | hdst
  · rcases eq_or_ne m src with rfl | hsrc
    · simp [relink, Graph.modifyNode]
    · simp [relink, Graph.modifyNode, hsrc]
  · rcases eq_or_ne m src with rfl | hsrc
    · simp [relink, Graph.modifyNode, hdst]
    · simp [relink, Graph.modifyNode, hdst, hsrc]

/-- Two edge sets are replaced, and an edge is overwritten. -/
theorem exists_relinked (edges : ObjectTable) (e : Nat) (edge : Edge) : ∃ g' : Graph A OpDef,
    g' = { relink g src outEdges dst inEdges with
      edges, edge := Function.update g.edge e edge } ∧
    SameNodes g g' ∧ g'.edges = edges ∧ g'.edge e = edge ∧
    (∀ e', e' ≠ e → g'.edge e' = g.edge e') ∧
    (∀ m, (g'.node m).outEdges = if m = src then outEdges else (g.node m).outEdges) ∧
    ∀ m, (g'.node m).inEdges = if m = dst then inEdges else (g.node m).inEdges := by
  have hnode := relink_node g src outEdges dst inEdges
  refine ⟨_, rfl, ⟨rfl, fun m => ?_, fun m => ?_⟩, rfl, update_self ..,
    fun e' hne => update_of_ne hne _ _, fun m => ?_, fun m => ?_⟩
  · exact (congrArg Node.id (hnode m)).trans rfl
  · exact (congrArg Node.props (hnode m)).trans rfl
  · exact congrArg Node.outEdges (hnode m)
  · exact congrArg Node.inEdges (hnode m)

end Relink

/-- No check of `AddEdge` fails. -/
theorem WellFormed.addEdge (h : WellFormed reg g) {source dest : Nat}
    (hsource : g.nodes.Live source) (hdest : g.nodes.Live dest) (hfresh : g.edges.Unused fresh)
    (x y : Int) : ∃ g' e, g.addEdge source x dest y fresh = some (g', e) ∧
      WellFormed reg g' ∧ Later g g' ∧ SameNodes g g' ∧
      (∀ e', g'.edges.Live e' ↔ g.edges.Live e' ∨ e' = e) ∧
      (∃ id, g'.edge e = ⟨some source, some dest, id, x, y⟩) ∧
      ∀ e', e' ≠ e → g'.edge e' = g.edge e' := by
  obtain ⟨e, he⟩ : ∃ e, g.edges.next fresh = e := ⟨_, rfl⟩
  have hnext : ¬g.edges.Live e := he ▸ h.edges.next_not_live hfresh
  have hout : ((g.node source).outEdges.insert e).2 = true := EdgeSet.insert_new _ fun hmem =>
    hnext ((h.outEdges source e fun hunused => hunused.1 hsource).mp hmem).1
  have hin : ((g.node dest).inEdges.insert e).2 = true := EdgeSet.insert_new _ fun hmem =>
    hnext ((h.inEdges dest e fun hunused => hunused.1 hdest).mp hmem).1
  obtain ⟨g', hg', hsame, hedges, hself, hother, houtEdges, hinEdges⟩ := exists_relinked g source
    ((g.node source).outEdges.insert e).1 dest ((g.node dest).inEdges.insert e).1
    (g.edges.add fresh) e ⟨some source, some dest, g.edges.entries.length, x, y⟩
  have hlive (e' : Nat) : g'.edges.Live e' ↔ g.edges.Live e' ∨ e' = e := by
    rw [hedges, ← he]
    exact live_add
  have houtSide := h.outSide.insert hsame.nodes hlive hother (by rw [hself]) hsource hnext houtEdges
  have hinSide := h.inSide.insert hsame.nodes hlive hother (by rw [hself]) hdest hnext hinEdges
  refine ⟨g', e, ?_, ⟨hsame.valid h, ?_, houtSide.ends, hinSide.ends, houtSide.adjacent,
    hinSide.adjacent, hsame.copyable h⟩, ⟨hsame.nodes ▸ .refl _, ?_⟩, hsame, hlive, ⟨_, hself⟩,
    hother⟩
  · simp only [Graph.addEdge, he, hout, inEdges_modifyNode, hin]
    rw [hg']
    rfl
  · rw [hedges]
    refine h.edges.add hfresh ?_ fun e' hne => ?_
    · rw [he, hself]
    · rw [hother e' (he ▸ hne)]
  · exact hedges ▸ extends_add _ _

/-- No check of `RemoveEdge` fails. -/
theorem WellFormed.removeEdge (h : WellFormed reg g) (he : g.edges.Live e) :
    ∃ g', g.removeEdge e = some g' ∧ WellFormed reg g' ∧ Later g g' ∧ SameNodes g g' ∧
      g'.edges.count = g.edges.count - 1 ∧
      (∀ e', g'.edges.Live e' ↔ g.edges.Live e' ∧ e' ≠ e) ∧
      (∀ e', e' ≠ e → g'.edge e' = g.edge e') ∧
      ∀ e', g'.edges.Unused e' ↔ g.edges.Unused e' := by
  obtain ⟨src, hsrc, hsrcLive⟩ := h.src e he
  obtain ⟨dst, hdst, hdstLive⟩ := h.dst e he
  have hout : e ∈ (g.node src).outEdges.elems :=
    (h.outEdges src e fun hunused => hunused.1 hsrcLive).mpr ⟨he, hsrc⟩
  have hin : e ∈ (g.node dst).inEdges.elems :=
    (h.inEdges dst e fun hunused => hunused.1 hdstLive).mpr ⟨he, hdst⟩
  have hplace := h.edges.getElem?_of_live he
  have hpos := h.edges.count_pos he
  obtain ⟨g', hg', hsame, hedges, hself, hother, houtEdges, hinEdges⟩ := exists_relinked g src
    ((g.node src).outEdges.erase e).1 dst ((g.node dst).inEdges.erase e).1
    (g.edges.remove (g.edge e).id.toNat e) e ⟨none, none, -1, kControlSlot - 1, kControlSlot - 1⟩
  have hlive (e' : Nat) : g'.edges.Live e' ↔ g.edges.Live e' ∧ e' ≠ e := by
    rw [hedges]
    exact h.edges.live_remove he
  have houtSide := h.outSide.erase hsame.nodes hlive hother hsrc hout houtEdges
  have hinSide := h.inSide.erase hsame.nodes hlive hother hdst hin hinEdges
  refine ⟨g', ?_, ⟨hsame.valid h, ?_, houtSide.ends, hinSide.ends, houtSide.adjacent,
    hinSide.adjacent, hsame.copyable h⟩, ⟨hsame.nodes ▸ .refl _, ?_⟩, hsame, ?_, hlive, hother, ?_⟩
  · simp only [Graph.removeEdge, hsrc, hdst, EdgeSet.erase_eq_one _ hout, inEdges_modifyNode,
      EdgeSet.erase_eq_one _ hin, if_true]
    rw [if_pos ⟨hplace, hpos⟩, hg']
    rfl
  · rw [hedges]
    refine h.edges.remove he ?_ fun e' hne => ?_
    · rw [hself]
    · rw [hother e' hne]
  · exact hedges ▸ extends_remove _ _ _
  · rw [hedges]
    rfl
  · intro e'
    rw [hedges]
    exact h.edges.unused_remove he

/-! ## Removal of nodes -/

/-- The edges of one graph are edges of another. -/
def FewerEdges (g g' : Graph A OpDef) : Prop :=
  ∀ e, g'.edges.Live e → g.edges.Live e ∧ g'.edge e = g.edge e

/-- Each loop of `RemoveNode` ends with an empty set. -/
theorem WellFormed.removeEdges (edgeSet : Node A OpDef → EdgeSet) (endpoint : Edge → Option Nat)
    (hadj : ∀ g : Graph A OpDef, WellFormed reg g → Adjacent g edgeSet endpoint) {fuel : Nat}
    (h : WellFormed reg g) (hn : g.nodes.Live n) (hfuel : g.edges.count ≤ fuel) :
    ∃ g', Graph.removeEdges edgeSet n fuel g = some g' ∧ WellFormed reg g' ∧ Later g g' ∧
      SameNodes g g' ∧ FewerEdges g g' ∧ (edgeSet (g'.node n)).elems = [] := by
  induction fuel generalizing g with
  | zero =>
    have hnil : (edgeSet (g.node n)).elems = [] :=
        (hadj g h).eq_nil (fun hu => hu.1 hn) fun e he => by
      have hpos := h.edges.count_pos he
      omega
    refine ⟨g, ?_, h, .refl g, ⟨rfl, fun _ => rfl, fun _ => rfl⟩, fun e he => ⟨he, rfl⟩, hnil⟩
    rw [Graph.removeEdges, if_pos ((EdgeSet.isEmpty_iff _).mpr hnil)]
  | succ fuel ih =>
    rw [Graph.removeEdges]
    split
    · rename_i hempty
      exact ⟨g, rfl, h, .refl g, ⟨rfl, fun _ => rfl, fun _ => rfl⟩, fun e he => ⟨he, rfl⟩,
        (EdgeSet.isEmpty_iff _).mp hempty⟩
    · rename_i hempty
      rw [EdgeSet.isEmpty_iff] at hempty
      obtain ⟨e, rest, hlist⟩ := exists_cons_of_ne_nil hempty
      have hmem : e ∈ (edgeSet (g.node n)).elems := hlist ▸ mem_cons_self
      have he : g.edges.Live e := ((hadj g h n e fun hunused => hunused.1 hn).mp hmem).1
      obtain ⟨g₁, hstep, h₁, hlater₁, hsame₁, hcount₁, hlive₁, hedge₁, -⟩ := h.removeEdge he
      obtain ⟨g₂, hrun, h₂, hlater₂, hsame₂, hfewer₂, hnil⟩ := ih h₁ (hsame₁.nodes ▸ hn) (by omega)
      refine ⟨g₂, ?_, h₂, hlater₁.trans hlater₂, hsame₁.trans hsame₂, fun e' he' => ?_, hnil⟩
      · rw [EdgeSet.begin?_eq, hlist, head?_cons, bind_some, hstep, bind_some, hrun]
      · obtain ⟨hlive, hedge⟩ := hfewer₂ e' he'
        obtain ⟨hold, hne⟩ := (hlive₁ e').mp hlive
        exact ⟨hold, hedge.trans (hedge₁ e' hne)⟩

theorem WellFormed.removeNode (h : WellFormed reg g) (hn : g.nodes.Live n) :
    ∃ g', g.removeNode n = some g' ∧ WellFormed reg g' ∧ Later g g' := by
  have hcount (g : Graph A OpDef) : g.edges.count ≤ g.edges.count.toNat := Int.self_le_toNat _
  obtain ⟨g₁, hrun₁, h₁, hlater₁, hsame₁, -, hin₁⟩ :=
    h.removeEdges Node.inEdges Edge.dst (fun _ => WellFormed.inEdges) hn (hcount g)
  have hn₁ : g₁.nodes.Live n := hsame₁.nodes ▸ hn
  obtain ⟨g₂, hrun₂, h₂, hlater₂, hsame₂, hfewer₂, hout₂⟩ :=
    h₁.removeEdges Node.outEdges Edge.src (fun _ => WellFormed.outEdges) hn₁ (hcount g₁)
  have hn₂ : g₂.nodes.Live n := hsame₂.nodes ▸ hn₁
  -- The second loop removes edges only, so that there are no in edges after it.
  have hin₂ : (g₂.node n).inEdges.elems = [] := by
    refine h₂.inEdges.eq_nil (fun hunused => hunused.1 hn₂) fun e he => ?_
    obtain ⟨hlive, hedge⟩ := hfewer₂ e he
    rw [hedge]
    exact h₁.inEdges.ne_of_eq_nil hn₁ hin₁ hlive
  obtain ⟨h₃, hlater₃⟩ := h₂.releaseNode hn₂ hin₂ hout₂
  refine ⟨_, ?_, h₃, (hlater₁.trans hlater₂).trans hlater₃⟩
  rw [Graph.removeNode, hrun₁, bind_some, hrun₂, map_some]

/-! ## The other calls -/

section

variable (h : WellFormed reg g)
include h

theorem WellFormed.addNode (hfresh : g.nodes.Unused fresh) (nodeDef : NodeDef A) :
    WellFormed reg (g.addNode reg nodeDef fresh).1 ∧ Later g (g.addNode reg nodeDef fresh).1 := by
  rw [Graph.addNode]
  split
  · exact ⟨h, .refl g⟩
  · rename_i opDef hop
    split
    · exact ⟨h, .refl g⟩
    · rename_i inputs outputs hio
      obtain ⟨hwf, hlater, -⟩ := h.allocateNode hfresh ⟨opDef, nodeDef, inputs, outputs⟩ hop none
      exact ⟨hwf, hlater⟩

theorem WellFormed.copyNode {node : Node A OpDef} (hnode : Copyable reg node)
    (hfresh : g.nodes.Unused fresh) :
    ∃ g' n, g.copyNode reg node fresh = some (g', n) ∧ WellFormed reg g' ∧ Later g g' := by
  obtain ⟨p, opDef, hp, hop⟩ := hnode
  obtain ⟨hwf, hlater, -⟩ := h.allocateNode hfresh { p with opDef } hop (some node.costId)
  rw [Graph.copyNode, hp, bind_some, hop]
  exact ⟨_, _, rfl, hwf.modifyNode ⟨rfl, rfl, rfl⟩ id, hlater.trans (later_modifyNode ..)⟩

/-- A live node has a name. -/
theorem WellFormed.name (hn : g.nodes.Live n) : ∃ name, g.name n = some name := by
  obtain ⟨p, opDef, hp, -⟩ := h.copyable n hn
  exact ⟨_, by rw [Graph.name, hp]; rfl⟩

theorem WellFormed.addControlEdge {source dest : Nat} (hsource : g.nodes.Live source)
    (hdest : g.nodes.Live dest) (hfresh : g.edges.Unused fresh) (allowDuplicates : Bool) : ∃ g' r,
      g.addControlEdge source dest allowDuplicates fresh = some (g', r) ∧ WellFormed reg g' ∧
      Later g g' := by
  obtain ⟨name, hname⟩ := h.name hsource
  rw [Graph.addControlEdge]
  split
  · exact ⟨g, none, rfl, h, .refl g⟩
  split
  · rw [hname, map_some, bind_some]
    obtain ⟨g', e, hadd, hwf, hlater, -⟩ := (h.modifyInput fun input =>
      if "^" ++ name ∈ input then input else input ++ ["^" ++ name]).addEdge hsource hdest hfresh
        kControlSlot kControlSlot
    exact ⟨g', _, by rw [hadd]; rfl, hwf, (later_modifyNode ..).trans hlater⟩
  · obtain ⟨g', e, hadd, hwf, hlater, -⟩ := h.addEdge hsource hdest hfresh kControlSlot kControlSlot
    exact ⟨g', _, by rw [bind_some, hadd]; rfl, hwf, hlater⟩

theorem WellFormed.removeControlEdge (he : g.edges.Live e) :
    ∃ g', g.removeControlEdge e = some g' ∧ WellFormed reg g' ∧ Later g g' := by
  obtain ⟨src, hsrc, hsrcLive⟩ := h.src e he
  obtain ⟨dst, hdst, -⟩ := h.dst e he
  obtain ⟨name, hname⟩ := h.name hsrcLive
  rw [Graph.removeControlEdge, hsrc, hdst]
  dsimp only
  split
  · obtain ⟨g', hremove, hwf, hlater, -⟩ :=
      (h.modifyInput fun input => input.erase ("^" ++ name)).removeEdge he
    exact ⟨g', by rw [hname, bind_some, hremove], hwf, (later_modifyNode ..).trans hlater⟩
  · obtain ⟨g', hremove, hwf, hlater, -⟩ := h.removeEdge he
    exact ⟨g', hremove, hwf, hlater⟩

/-- A live node is valid. -/
theorem WellFormed.isValidNode (hn : g.nodes.Live n) : g.isValidNode n = .ok := by
  obtain ⟨i, hi, hentry⟩ := h.nodes.exists_of_live hn
  obtain ⟨hlt, -⟩ := List.getElem?_eq_some_iff.mp hentry
  rw [Graph.isValidNode]
  simp only [hi, Int.toNat_natCast, hentry, ne_eq, not_true, if_false]
  rw [if_neg (by omega), if_neg (by omega)]

theorem WellFormed.isValidTensor (hn : g.nodes.Live n)
    (types : NodeProperties A OpDef → List ArgType) (what : String) (idx : Int) :
    ∃ status, g.isValidTensor reg types what n idx = some status := by
  obtain ⟨p, opDef, hp, -⟩ := h.copyable n hn
  rw [Graph.isValidTensor, h.isValidNode hn, hp]
  exact ⟨_, rfl⟩

end

/-- The edge that is found is live. -/
theorem live_of_findEdge {index : Int} (h : g.findEdge n index = some e) : g.edges.Live e := by
  have hmem := mem_of_find?_eq_some h
  obtain ⟨x, hx, rfl⟩ := mem_filterMap.mp hmem
  exact hx

/-- `UpdateEdge` gets to the point where it changes the graph. -/
def UpdatesEdge (reg : Registry A OpDef) (g : Graph A OpDef) (newSrc : Nat) (newSrcIndex : Int)
    (dst : Nat) (dstIndex : Int) : Prop :=
  ((g.isValidOutputTensor reg newSrc newSrcIndex).map Status.code) = some .ok ∧
    ((g.isValidInputTensor reg dst dstIndex).map Status.code) = some .ok ∧
    (g.findEdge dst dstIndex).isSome

/-- The index is that of an input of the node definition. -/
def NamesInput (g : Graph A OpDef) (n : Nat) (index : Int) : Prop :=
  ∃ p, (g.node n).props = some p ∧ 0 ≤ index ∧ index < p.nodeDef.input.length

theorem SameNodes.namesInput_iff {index : Int} (h : SameNodes g g') :
    NamesInput g' n index ↔ NamesInput g n index := by
  rw [NamesInput, NamesInput, h.props]

theorem setInput_of_namesInput {index : Int} (h : NamesInput g n index) (value : String) :
    g.setInput n index value =
      some (g.modifyNode n fun m => m.modifyInput fun input => input.set index.toNat value) := by
  obtain ⟨p, hp, hrange⟩ := h
  rw [Graph.setInput, hp, bind_some, if_pos hrange]

theorem setInput_of_not_namesInput {index : Int} (h : ¬NamesInput g n index) (value : String) :
    g.setInput n index value = none := by
  rw [Graph.setInput]
  cases hp : (g.node n).props with
  | none => rfl
  | some p => exact if_neg fun hrange => h ⟨p, hp, hrange⟩

/-- One edge is replaced by another, and the other edges stay. -/
def Rewired (g g' : Graph A OpDef) (e newSrc : Nat) (newSrcIndex : Int) (dst : Nat)
    (dstIndex : Int) : Prop :=
  ∃ e' id, g'.edge e' = ⟨some newSrc, some dst, id, newSrcIndex, dstIndex⟩ ∧
    (∀ x, g'.edges.Live x ↔ g.edges.Live x ∧ x ≠ e ∨ x = e') ∧
    ∀ x, x ≠ e → x ≠ e' → g'.edge x = g.edge x

section UpdateEdge

variable {newSrc dst : Nat} {newSrcIndex dstIndex : Int} (h : WellFormed reg g)
  (hsrc : g.nodes.Live newSrc) (hdst : g.nodes.Live dst) (hfresh : g.edges.Unused fresh)
include h hsrc hdst hfresh

/-- `UpdateEdge` fails and changes nothing, or it replaces the edge that it finds and then
overwrites an input. -/
theorem WellFormed.updateEdge_cases :
    (¬UpdatesEdge reg g newSrc newSrcIndex dst dstIndex ∧ ∃ status, status.code ≠ .ok ∧
      g.updateEdge reg newSrc newSrcIndex dst dstIndex fresh = some (g, status)) ∨
    UpdatesEdge reg g newSrc newSrcIndex dst dstIndex ∧ ∃ e g' name,
      g.findEdge dst dstIndex = some e ∧ g.name newSrc = some name ∧ WellFormed reg g' ∧
      Later g g' ∧ SameNodes g g' ∧ Rewired g g' e newSrc newSrcIndex dst dstIndex ∧
      g.updateEdge reg newSrc newSrcIndex dst dstIndex fresh =
        (g'.setInput dst dstIndex (name ++ ":" ++ toString newSrcIndex)).map (·, .ok) := by
  obtain ⟨status₁, h₁⟩ : ∃ status, g.isValidOutputTensor reg newSrc newSrcIndex = some status :=
    h.isValidTensor hsrc _ _ _
  obtain ⟨status₂, h₂⟩ : ∃ status, g.isValidInputTensor reg dst dstIndex = some status :=
    h.isValidTensor hdst _ _ _
  rw [Graph.updateEdge, UpdatesEdge, h₁, h₂, bind_some, bind_some]
  simp only [map_some, some.injEq]
  split
  · next hstatus => exact .inl ⟨fun hupdates => hstatus hupdates.1, status₁, hstatus, rfl⟩
  split
  · next hstatus => exact .inl ⟨fun hupdates => hstatus hupdates.2.1, status₂, hstatus, rfl⟩
  next hok₁ hok₂ =>
  cases hfind : g.findEdge dst dstIndex with
  | none => exact .inl ⟨by simp, _, by simp, rfl⟩
  | some e =>
    obtain ⟨g₁, hremove, hwf₁, hlater₁, hsame₁, -, hlive₁, hedge₁, hunused₁⟩ :=
      h.removeEdge (live_of_findEdge hfind)
    obtain ⟨g₂, e', hadd, hwf₂, hlater₂, hsame₂, hlive₂, ⟨id, hself⟩, hedge₂⟩ :=
      hwf₁.addEdge (hsame₁.nodes ▸ hsrc) (hsame₁.nodes ▸ hdst) ((hunused₁ fresh).mpr hfresh)
        newSrcIndex dstIndex
    have hsame := hsame₁.trans hsame₂
    obtain ⟨name, hname⟩ := h.name hsrc
    have hname₂ : g₂.name newSrc = some name := by rw [Graph.name, hsame.props, ← hname, Graph.name]
    refine .inr ⟨⟨not_not.mp hok₁, not_not.mp hok₂, rfl⟩, e, g₂, name, rfl, hname, hwf₂,
      hlater₁.trans hlater₂, hsame, ⟨e', id, hself, fun x => ?_, fun x hx hx' => ?_⟩, ?_⟩
    · rw [hlive₂, hlive₁]
    · rw [hedge₂ x hx', hedge₁ x hx]
    · simp only [hremove, hadd, hname₂, bind_some]

/-- `UpdateEdge` returns unless it overwrites an input that the node definition does not have. -/
theorem WellFormed.updateEdge :
    ((UpdatesEdge reg g newSrc newSrcIndex dst dstIndex → NamesInput g dst dstIndex) →
      ∃ g' status, g.updateEdge reg newSrc newSrcIndex dst dstIndex fresh = some (g', status) ∧
        WellFormed reg g' ∧ Later g g') ∧
    (UpdatesEdge reg g newSrc newSrcIndex dst dstIndex → ¬NamesInput g dst dstIndex →
      g.updateEdge reg newSrc newSrcIndex dst dstIndex fresh = none) := by
  rcases h.updateEdge_cases hsrc hdst hfresh with
    ⟨hnot, status, -, heq⟩ | ⟨hupdates, e, g', name, -, -, hwf, hlater, hsame, -, heq⟩
  · exact ⟨fun _ => ⟨g, status, heq, h, .refl g⟩, fun hupdates => absurd hupdates hnot⟩
  · refine ⟨fun hcond => ?_, fun _ hnot => ?_⟩
    · rw [heq, setInput_of_namesInput (hsame.namesInput_iff.mpr (hcond hupdates))]
      exact ⟨_, _, rfl, hwf.modifyInput _, hlater.trans (later_modifyNode ..)⟩
    · rw [heq, setInput_of_not_namesInput (hsame.namesInput_iff.not.mpr hnot), map_none]

end UpdateEdge

/-! ## Runs -/

/-- Calls on live nodes and edges. New objects are placed at addresses that are not in use. -/
def Permitted (reg : Registry A OpDef) (g : Graph A OpDef) : GraphCall A OpDef → Prop
  | .addNode _ fresh => g.nodes.Unused fresh
  | .copyNode node fresh => Copyable reg node ∧ g.nodes.Unused fresh
  | .removeNode n => g.nodes.Live n ∧ (g.node n).isSource = false ∧ (g.node n).isSink = false
  | .addEdge source _ dest _ fresh | .addControlEdge source dest _ fresh
  | .updateEdge source _ dest _ fresh =>
    g.nodes.Live source ∧ g.nodes.Live dest ∧ g.edges.Unused fresh
  | .removeEdge e | .removeControlEdge e => g.edges.Live e

/-- The call does not overwrite an input that the node definition does not have. -/
def InBounds (reg : Registry A OpDef) (g : Graph A OpDef) : GraphCall A OpDef → Prop
  | .updateEdge newSrc newSrcIndex dst dstIndex _ =>
    UpdatesEdge reg g newSrc newSrcIndex dst dstIndex → NamesInput g dst dstIndex
  | _ => True

theorem WellFormed.call (h : WellFormed reg g) {c : GraphCall A OpDef} (hc : Permitted reg g c)
    (hbounds : InBounds reg g c) :
    ∃ g', g.call reg c = some g' ∧ WellFormed reg g' ∧ Later g g' := by
  cases c with
  | addNode nodeDef fresh => exact ⟨_, rfl, h.addNode hc nodeDef⟩
  | copyNode node fresh =>
    obtain ⟨g', n, hcall, hwf⟩ := h.copyNode hc.1 hc.2
    exact ⟨g', by rw [Graph.call, hcall]; rfl, hwf⟩
  | removeNode n => exact h.removeNode hc.1
  | addEdge source x dest y fresh =>
    obtain ⟨g', e, hcall, hwf, hlater, -⟩ := h.addEdge hc.1 hc.2.1 hc.2.2 x y
    exact ⟨g', by rw [Graph.call, hcall]; rfl, hwf, hlater⟩
  | removeEdge e =>
    obtain ⟨g', hcall, hwf, hlater, -⟩ := h.removeEdge hc
    exact ⟨g', hcall, hwf, hlater⟩
  | addControlEdge source dest allowDuplicates fresh =>
    obtain ⟨g', r, hcall, hwf⟩ := h.addControlEdge hc.1 hc.2.1 hc.2.2 allowDuplicates
    exact ⟨g', by rw [Graph.call, hcall]; rfl, hwf⟩
  | removeControlEdge e => exact h.removeControlEdge hc
  | updateEdge newSrc newSrcIndex dst dstIndex fresh =>
    obtain ⟨g', status, hcall, hwf⟩ :=
      (h.updateEdge hc.1 hc.2.1 hc.2.2).1 hbounds
    exact ⟨g', by rw [Graph.call, hcall]; rfl, hwf⟩

/-- A permitted call returns exactly if its writes are in bounds. -/
theorem WellFormed.isSome_call (h : WellFormed reg g) {c : GraphCall A OpDef}
    (hc : Permitted reg g c) : (g.call reg c).isSome ↔ InBounds reg g c := by
  constructor
  · intro hsome
    cases c with
    | updateEdge newSrc newSrcIndex dst dstIndex fresh =>
      intro hupdates
      by_contra hnot
      have hnone := (h.updateEdge hc.1 hc.2.1 hc.2.2).2 hupdates hnot
      rw [Graph.call, hnone] at hsome
      cases hsome
    | _ => trivial
  · intro hbounds
    obtain ⟨g', hcall, -⟩ := h.call hc hbounds
    rw [hcall]
    rfl

/-- A graph with its source and its sink, and no other nodes. -/
theorem wellFormed_empty : WellFormed reg (Graph.empty : Graph A OpDef) where
  nodes := valid_empty
  edges := valid_empty
  src := nofun
  dst := nofun
  outEdges _ _ h := absurd ⟨nofun, nofun⟩ h
  inEdges _ _ h := absurd ⟨nofun, nofun⟩ h
  copyable := nofun

/-- `AddNode` adds a node whose op is registered. -/
theorem WellFormed.addNode_eq (h : WellFormed reg g) (hfresh : g.nodes.Unused fresh)
    {nodeDef : NodeDef A} {opDef : OpDef} {types : List ArgType × List ArgType}
    (hop : reg.lookUpOpDef nodeDef.op = .ok opDef)
    (htypes : reg.inOutTypesForNode nodeDef opDef = .ok types) :
    ∃ g', g.addNode reg nodeDef fresh = (g', .ok (g.nodes.next fresh)) ∧ WellFormed reg g' ∧
      g'.nodes = g.nodes.add fresh ∧ g'.edges = g.edges ∧
      (g'.node (g.nodes.next fresh)).id = g.nodes.entries.length := by
  obtain ⟨hwf, -, hid⟩ := h.allocateNode hfresh ⟨opDef, nodeDef, types.1, types.2⟩ hop none
  refine ⟨_, ?_, hwf, rfl, rfl, hid⟩
  rw [Graph.addNode, hop]
  simp only [htypes]
  rfl

/-- The op of the source and of the sink is registered. -/
def Registry.HasNoOp (reg : Registry A OpDef) (attr : A) : Prop :=
  ∃ opDef, reg.lookUpOpDef "NoOp" = .ok opDef ∧
    ∀ name, ∃ types, reg.inOutTypesForNode ⟨name, "NoOp", [], attr⟩ opDef = .ok types

theorem wellFormed_new {attr : A} (hop : reg.HasNoOp attr) {source sink : Nat}
    (hne : source ≠ sink) (edge : Nat) :
    ∃ g, Graph.new reg attr source sink edge = some g ∧ WellFormed reg g := by
  obtain ⟨opDef, hop, htypes⟩ := hop
  obtain ⟨types₁, htypes₁⟩ := htypes "_SOURCE"
  obtain ⟨types₂, htypes₂⟩ := htypes "_SINK"
  have hunused₁ : (Graph.empty : Graph A OpDef).nodes.Unused source := ⟨nofun, nofun⟩
  obtain ⟨g₁, hadd₁, hwf₁, hnodes₁, hedges₁, hid₁⟩ :=
    wellFormed_empty.addNode_eq hunused₁ hop htypes₁
  have hlive₁ : g₁.nodes.Live source := hnodes₁ ▸ live_add.mpr (.inr rfl)
  have hunused₂ : g₁.nodes.Unused sink :=
    hnodes₁ ▸ unused_add.mpr ⟨⟨nofun, nofun⟩, hne.symm⟩
  have hnext₂ : g₁.nodes.next sink = sink := by
    rw [hnodes₁]
    rfl
  have hlength₂ : g₁.nodes.entries.length = 1 := by
    rw [hnodes₁]
    rfl
  obtain ⟨g₂, hadd₂, hwf₂, hnodes₂, hedges₂, hid₂⟩ := hwf₁.addNode_eq hunused₂ hop htypes₂
  rw [hnext₂] at hadd₂ hid₂
  rw [hlength₂] at hid₂
  have hlive₂ : g₂.nodes.Live source := hnodes₂ ▸ live_add.mpr (.inl hlive₁)
  have hlive₂' : g₂.nodes.Live sink := hnodes₂ ▸ live_add.mpr (.inr hnext₂.symm)
  have hunused₃ : g₂.edges.Unused edge := by
    rw [hedges₂, hedges₁]
    exact ⟨nofun, nofun⟩
  obtain ⟨g₃, e, hadd₃, hwf₃, -⟩ := hwf₂.addControlEdge hlive₂ hlive₂' hunused₃ false
  refine ⟨g₃, ?_, hwf₃⟩
  rw [Graph.new, hadd₁]
  dsimp only
  rw [if_pos (show _ = (0 : Int) from hid₁), hadd₂]
  dsimp only
  rw [if_pos (show _ = (1 : Int) from hid₂)]
  exact congrArg (Option.map _) hadd₃

/-- A run of calls whose writes are in bounds returns and keeps the structure in order. -/
theorem WellFormed.run (h : WellFormed reg g) (calls : List (GraphCall A OpDef))
    (hcalls : Run.Admissible (Graph.call reg) (fun g c => Permitted reg g c ∧ InBounds reg g c) g
      calls) :
    ∃ g', Run.run (Graph.call reg) g calls = some g' ∧ WellFormed reg g' ∧ Later g g' := by
  refine Run.run_total (I := fun g' => WellFormed reg g' ∧ Later g g') (fun g₁ c h₁ hc => ?_)
    ⟨h, .refl g⟩ hcalls
  obtain ⟨g₂, hcall, hwf, hlater⟩ := h₁.1.call hc.1 hc.2
  exact ⟨g₂, hcall, hwf, h₁.2.trans hlater⟩

/-- In every run of calls whose writes are in bounds, the structure of the graph is in order after
every call, and numbers are not reused. The next call returns exactly if its writes are in
bounds. -/
theorem wellFormed_of_calls (reg : Registry A OpDef) (attr : A) (source sink edge : Nat)
    (hop : reg.HasNoOp attr) (hne : source ≠ sink) :
    ∃ g₀, Graph.new reg attr source sink edge = some g₀ ∧
      ∀ calls calls' : List (GraphCall A OpDef),
        Run.Admissible (Graph.call reg) (fun g c => Permitted reg g c ∧ InBounds reg g c) g₀
          (calls ++ calls') →
        ∃ g g', Run.run (Graph.call reg) g₀ calls = some g ∧
          Run.run (Graph.call reg) g calls' = some g' ∧ WellFormed reg g ∧ WellFormed reg g' ∧
          Later g g' ∧ ∀ c, Permitted reg g' c → ((g'.call reg c).isSome ↔ InBounds reg g' c) := by
  obtain ⟨g₀, hnew, hwf₀⟩ := wellFormed_new hop hne edge
  refine ⟨g₀, hnew, fun calls calls' hcalls => ?_⟩
  obtain ⟨hcalls, hcalls'⟩ := Run.admissible_append.mp hcalls
  obtain ⟨g, hrun, hwf, -⟩ := hwf₀.run calls hcalls
  obtain ⟨g', hrun', hwf', hlater⟩ := hwf.run calls' (hcalls' g hrun)
  exact ⟨g, g', hrun, hrun', hwf, hwf', hlater, fun c hc => hwf'.isSome_call hc⟩

/-- A registry where every op has no inputs and no outputs. -/
def noOpRegistry : Registry Unit Unit where
  lookUpOpDef _ := .ok ()
  inOutTypesForNode _ _ := .ok ([], [])
  opName _ := "NoOp"
  debugString _ := ""

/-- A node is added, linked to itself, removed, and its object is used again. -/
theorem wellFormed_of_selfLoop : ∃ g₀ g g', Graph.new noOpRegistry () 0 1 0 = some g₀ ∧
    Run.run (Graph.call noOpRegistry) g₀
      [.addNode ⟨"a", "NoOp", [], ()⟩ 2, .addControlEdge 2 2 false 1] = some g ∧
    Run.run (Graph.call noOpRegistry) g
      [.removeNode 2, .addNode ⟨"b", "NoOp", [], ()⟩ 3] = some g' ∧
    WellFormed noOpRegistry g ∧ WellFormed noOpRegistry g' ∧ Later g g' ∧
    g'.nodes.entries = [some 0, some 1, none, some 2] := by
  obtain ⟨g₀, hnew, hcalls⟩ := wellFormed_of_calls noOpRegistry () 0 1 0
    ⟨(), rfl, fun _ => ⟨_, rfl⟩⟩ (by decide)
  obtain rfl := some.inj hnew
  obtain ⟨g, g', hrun, hrun', hwf, hwf', hlater, -⟩ := hcalls
    [.addNode ⟨"a", "NoOp", [], ()⟩ 2, .addControlEdge 2 2 false 1]
    [.removeNode 2, .addNode ⟨"b", "NoOp", [], ()⟩ 3] (by
      refine ⟨⟨show ObjectTable.Unused _ 2 by decide +kernel, trivial⟩, fun g h => ?_⟩
      cases h
      refine ⟨⟨⟨by decide +kernel, by decide +kernel, by decide +kernel⟩, trivial⟩, fun g h => ?_⟩
      cases h
      refine ⟨⟨⟨by decide +kernel, by decide +kernel, by decide +kernel⟩, trivial⟩, fun g h => ?_⟩
      cases h
      exact ⟨⟨show ObjectTable.Unused _ 3 by decide +kernel, trivial⟩, fun _ _ => trivial⟩)
  refine ⟨_, g, g', hnew, hrun, hrun', hwf, hwf', hlater, ?_⟩
  cases hrun
  cases hrun'
  rfl

/-- A control edge between two nodes is updated, and an input before the first is overwritten. -/
theorem updateEdge_of_controlSlot : ∃ g₀ g, Graph.new noOpRegistry () 0 1 0 = some g₀ ∧
    Run.run (Graph.call noOpRegistry) g₀
      [.addNode ⟨"a", "NoOp", [], ()⟩ 2, .addNode ⟨"b", "NoOp", [], ()⟩ 3,
        .addControlEdge 2 3 false 1] = some g ∧
    Permitted noOpRegistry g (.updateEdge 2 kControlSlot 3 kControlSlot 4) ∧
    g.call noOpRegistry (.updateEdge 2 kControlSlot 3 kControlSlot 4) = none := by
  refine ⟨_, _, rfl, rfl, ⟨?_, ?_, ?_⟩, rfl⟩
  · decide +kernel
  · decide +kernel
  · decide +kernel

/-! ## All or nothing -/

theorem SameNodes.modifyInput (h : SameNodes g g') (f : List String → List String) :
    SameNodes (g.modifyNode n fun m => m.modifyInput f)
      (g'.modifyNode n fun m => m.modifyInput f) := by
  refine ⟨h.nodes, fun m => ?_, fun m => ?_⟩ <;> rcases eq_or_ne m n with rfl | hne
  all_goals simp [Graph.modifyNode, Node.modifyInput, h.id, h.props, *]

/-- `UpdateEdge` fails and changes nothing, or it replaces the data edge that it finds by one from
an output of the new source, and changes nothing else but the input that names it. -/
def AllOrNothing (reg : Registry A OpDef) (g : Graph A OpDef) (newSrc : Nat) (newSrcIndex : Int)
    (dst : Nat) (dstIndex : Int) (fresh : Nat) : Prop :=
  ∃ g' status, g.updateEdge reg newSrc newSrcIndex dst dstIndex fresh = some (g', status) ∧
    if status.code = .ok then
      (∃ p, (g.node newSrc).props = some p ∧ 0 ≤ newSrcIndex ∧
        newSrcIndex < p.outputTypes.length) ∧
      ∃ e name g₁, g.findEdge dst dstIndex = some e ∧ (g.edge e).isControlEdge = false ∧
        Rewired g g' e newSrc newSrcIndex dst dstIndex ∧ g.name newSrc = some name ∧
        g.setInput dst dstIndex (name ++ ":" ++ toString newSrcIndex) = some g₁ ∧ SameNodes g₁ g'
    else g' = g

/-- `UpdateEdge` is all or nothing unless it replaces an edge although the input is none of the
node definition, the output is negative, or the edge is a control edge. -/
theorem allOrNothing_iff (reg : Registry A OpDef) (g : Graph A OpDef) (h : WellFormed reg g)
    (newSrc dst : Nat) (hsrc : g.nodes.Live newSrc) (hdst : g.nodes.Live dst)
    (newSrcIndex dstIndex : Int) (fresh : Nat) (hfresh : g.edges.Unused fresh) :
    AllOrNothing reg g newSrc newSrcIndex dst dstIndex fresh ↔
      (UpdatesEdge reg g newSrc newSrcIndex dst dstIndex → NamesInput g dst dstIndex ∧
        0 ≤ newSrcIndex ∧ ∀ e ∈ g.findEdge dst dstIndex, (g.edge e).isControlEdge = false) := by
  rcases h.updateEdge_cases hsrc hdst hfresh with ⟨hnot, status, hstatus, heq⟩ |
    ⟨hupdates, e, g', name, hfind, hname, -, -, hsame, hrewired, heq⟩
  · exact iff_of_true ⟨g, status, heq, by rw [if_neg hstatus]⟩ fun hupdates => absurd hupdates hnot
  constructor
  · rintro ⟨g₁, status, hg₁, hbody⟩ -
    obtain ⟨g₂, -, hpair⟩ := map_eq_some_iff.mp (heq.symm.trans hg₁)
    obtain ⟨-, rfl⟩ := Prod.mk.inj hpair
    rw [if_pos Status.code_ok] at hbody
    obtain ⟨⟨p, hp, hpos, -⟩, e, name, g₃, hfind, hcontrol, -, -, hset, -⟩ := hbody
    refine ⟨by_contra fun hnot => ?_, hpos, fun x hx => ?_⟩
    · rw [setInput_of_not_namesInput hnot] at hset
      cases hset
    · obtain rfl := some.inj (hfind.symm.trans hx)
      exact hcontrol
  · intro hcond
    obtain ⟨hnames, hpos, hcontrol⟩ := hcond hupdates
    obtain ⟨p, opDef, hp, -⟩ := h.copyable newSrc hsrc
    have hlt : newSrcIndex < p.outputTypes.length := by
      by_contra hle
      simpa [Graph.isValidOutputTensor, Graph.isValidTensor, h.isValidNode hsrc, hp,
        not_lt.mp hle, Graph.missingTensor] using hupdates.1
    rw [setInput_of_namesInput (hsame.namesInput_iff.mpr hnames)] at heq
    refine ⟨_, .ok, heq, ?_⟩
    rw [if_pos Status.code_ok]
    exact ⟨⟨p, hp, hpos, hlt⟩, e, name, _, hfind, hcontrol e hfind, hrewired, hname,
      setInput_of_namesInput hnames _, hsame.modifyInput _⟩

/-- A registry with an op of one input and one output, `Identity`; the other ops have none. -/
def identityRegistry : Registry Unit String where
  lookUpOpDef op := .ok op
  inOutTypesForNode _ op :=
    .ok (if op = "Identity" then ([⟨.float, false⟩], [⟨.float, false⟩]) else ([], []))
  opName op := op
  debugString _ := ""

/-- Two nodes `a` and `b`, and a node `c` whose input is the output of `a`. -/
def feedFromA : List (GraphCall Unit String) :=
  [.addNode ⟨"a", "Identity", ["_SOURCE"], ()⟩ 2, .addNode ⟨"b", "Identity", ["_SOURCE"], ()⟩ 3,
    .addNode ⟨"c", "Identity", ["a"], ()⟩ 4, .addEdge 2 0 4 0 1]

/-- An edge into an input that the sink does not have is refused, and the input of `c` is
replaced by the output of `b`. -/
theorem allOrNothing_feedFromB : ∃ g₀ g, Graph.new identityRegistry () 0 1 0 = some g₀ ∧
    Run.run (Graph.call identityRegistry) g₀ feedFromA = some g ∧
    AllOrNothing identityRegistry g 3 0 1 0 2 ∧ AllOrNothing identityRegistry g 3 0 4 0 2 ∧
    UpdatesEdge identityRegistry g 3 0 4 0 := by
  obtain ⟨g₀, hnew, hwf⟩ : ∃ g, Graph.new identityRegistry () 0 1 0 = some g ∧
      WellFormed identityRegistry g := wellFormed_new ⟨"NoOp", rfl, fun _ => ⟨_, rfl⟩⟩ (by decide) 0
  cases hnew
  obtain ⟨g, hrun, hwf, -⟩ := hwf.run feedFromA (by
    refine ⟨⟨show ObjectTable.Unused _ 2 by decide +kernel, trivial⟩, fun g h => ?_⟩
    cases h
    refine ⟨⟨show ObjectTable.Unused _ 3 by decide +kernel, trivial⟩, fun g h => ?_⟩
    cases h
    refine ⟨⟨show ObjectTable.Unused _ 4 by decide +kernel, trivial⟩, fun g h => ?_⟩
    cases h
    exact ⟨⟨⟨by decide +kernel, by decide +kernel, by decide +kernel⟩, trivial⟩,
      fun _ _ => trivial⟩)
  cases hrun
  refine ⟨_, _, rfl, rfl, ?_, ?_, ?_⟩
  · refine (allOrNothing_iff _ _ hwf 3 1 ?_ ?_ 0 0 2 ?_).mpr fun h => absurd h.2.1 ?_
    all_goals decide +kernel
  · refine (allOrNothing_iff _ _ hwf 3 4 ?_ ?_ 0 0 2 ?_).mpr fun _ => ⟨⟨_, rfl, ?_, ?_⟩, ?_, ?_⟩
    all_goals decide +kernel
  · rw [UpdatesEdge]
    decide +kernel

/-- The control edge from the source to the sink is updated, and an input before the first is
overwritten. -/
theorem not_allOrNothing_controlSlot : ∃ g, Graph.new noOpRegistry () 0 1 0 = some g ∧
    g.nodes.Live 0 ∧ g.nodes.Live 1 ∧
    ¬AllOrNothing noOpRegistry g 0 kControlSlot 1 kControlSlot 1 := by
  refine ⟨_, rfl, by decide +kernel, by decide +kernel, ?_⟩
  rintro ⟨g', status, h, -⟩
  cases h

end Tension.Graphs
