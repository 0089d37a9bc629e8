import Mathlib.Data.Fintype.Card
import Mathlib.Data.Fintype.EquivFin
import Mathlib.Data.Fintype.OfMap
import Tension.Core.Run
import Tension.Models.Executor.Arrivals
import Tension.Models.Executor.Ledger

/-!
# Dataflow graphs

On a graph without loops every node becomes ready once, after the sources of its in edges have
propagated their outputs, whatever the order of the steps is. The number of outstanding
operations is zero exactly when everything is processed.
-/

namespace Tension.Executor

open ExecutorState List Option
open TaggedNode (node)

variable {V α : Type}

/-- There is an edge from one node to another. -/
def GraphView.Precedes (g : GraphView V) (u v : V) : Prop :=
  ∃ e ∈ (g.item u).outputEdges, e.dst = v

/-- A graph without cycles, merge nodes and nodes that change the frame. Nothing depends on the
sink. -/
structure GraphView.Dataflow (g : GraphView V) : Prop where
  merge : ∀ v, (g.item v).nodeClass ≠ .merge
  enter : ∀ v isConstant, (g.item v).nodeClass ≠ .enter isConstant
  exit : ∀ v, (g.item v).nodeClass ≠ .exit
  nextIteration : ∀ v, (g.item v).nodeClass ≠ .nextIteration
  sink : ∀ v, (g.item v).nodeClass = .sink → (g.item v).outputEdges = []
  acyclic : ∀ v, ¬Relation.TransGen g.Precedes v v

variable [DecidableEq V] {g : GraphView V} {s s' : ExecutorState V α} {t : TaggedNode V}
  {outputs : List (Option α)}

/-! ## The root frame -/

/-- An operation of the root frame is done. The frame is done when no operation is left. -/
theorem decrementOutstandingOps_rootFrameOf {st : IterationState V α}
    (hframes : st.outstandingFrameCount = 0) (ready : List (TaggedNode V)) : ∃ f,
      (rootFrameOf st).decrementOutstandingOps g 0 ready =
        some (f, ready, decide (st.outstandingOps - 1 = 0)) ∧
      (st.outstandingOps - 1 ≠ 0 →
        f = rootFrameOf { st with outstandingOps := st.outstandingOps - 1 }) := by
  have hderef : (rootFrameOf st).derefIteration 0 = some st := rfl
  have hmodify (st' : IterationState V α) :
      (rootFrameOf st).modifyIteration 0 st' = rootFrameOf st' := rfl
  simp only [FrameState.decrementOutstandingOps, hderef, hmodify, bind_some]
  by_cases hzero : st.outstandingOps - 1 = 0
  · have hdone : (rootFrameOf { st with outstandingOps := st.outstandingOps - 1 }).isIterationDone
        0 = some true := by
      simp [FrameState.isIterationDone, rootFrameOf, FrameState.derefIteration,
        FrameState.getIteration, RingBuffer.get, hzero, hframes]
    refine ⟨{ rootFrameOf st with numOutstandingIterations := 0, iterations := [none] }, ?_,
      fun h => absurd hzero h⟩
    rw [if_neg (fun h => h hzero), FrameState.cleanupIterations, FrameState.cleanupFrom, hdone,
      decide_eq_true hzero]
    rfl
  · refine ⟨_, ?_, fun _ => rfl⟩
    rw [if_pos hzero, decide_eq_false hzero]

/-- What `PropagateOutputs` does in the root frame. -/
theorem propagateOutputs_rootFrameOf (hg : g.Dataflow) (hiter : t.inputIter = 0)
    (st : IterationState V α) : (rootFrameOf st).propagateOutputs g t outputs [] =
      (rootFrameOf (activateNodes g t.node t.isDead 0 outputs st).1).decrementOutstandingOps g 0
        (activateNodes g t.node t.isDead 0 outputs st).2 := by
  have hclass : (rootFrameOf st).activateSuccessors g t outputs [] =
      (rootFrameOf st).activateNodes g t.node t.isDead t.inputIter outputs [] := by
    unfold FrameState.activateSuccessors
    split
    · rename_i h
      exact absurd h (hg.enter _ _)
    · rename_i h
      exact absurd h (hg.exit _)
    · rename_i h
      exact absurd h (hg.nextIteration _)
    · rfl
  rw [FrameState.propagateOutputs, hclass, hiter]
  rfl

/-! ## The invariant -/

/-- The nodes that became ready are those whose inputs have arrived. The root frame counts the
nodes that wait. -/
structure Flow (g : GraphView V) (s : ExecutorState V α) : Prop where
  nodup : (s.readied.map node).Nodup
  inputIter : ∀ t ∈ s.readied, t.inputIter = 0
  mem : ∀ v, v ∈ s.readied.map node ↔
    ((g.item v).nodeClass ≠ .sink ∨ g.inEdges v = []) ∧
      arrivals (g.delivered s.propagated) v = (g.inEdges v).length
  isDead : ∀ t ∈ s.readied, t.isDead = deadFlag g (g.delivered s.propagated) t.node
  frame : s.waiting ≠ [] → ∃ st, s.rootFrame = some (rootFrameOf st) ∧
    st.outstandingOps = s.waiting.length ∧ st.outstandingFrameCount = 0 ∧
    Counting g (g.delivered s.propagated) st.counts

/-- Only the number of nodes that wait matters. -/
theorem Flow.transport (h : Flow g s) (hframe : s'.rootFrame = s.rootFrame)
    (hreadied : s'.readied = s.readied) (hpropagated : s'.propagated = s.propagated)
    (hwaiting : s'.waiting.Perm s.waiting) : Flow g s' where
  nodup := by rw [hreadied]; exact h.nodup
  inputIter := by rw [hreadied]; exact h.inputIter
  mem := by rw [hreadied, hpropagated]; exact h.mem
  isDead := by rw [hreadied, hpropagated]; exact h.isDead
  frame hne := by
    rw [hframe, hpropagated, hwaiting.length_eq]
    refine h.frame fun hnil => hne ?_
    rw [hnil] at hwaiting
    exact hwaiting.eq_nil

/-- The nodes that wait and those whose outputs are propagated are different. -/
theorem Flow.nodup_append (h : Flow g s) (hl : Ledger s) :
    (s.waiting.map node ++ s.propagated.map fun p => p.1.node).Nodup := by
  have hperm := (hl.readied.map node).nodup h.nodup
  rwa [List.map_append, List.map_map] at hperm

theorem flow_new (hg : g.Dataflow) : Flow g (new g : ExecutorState V α) where
  nodup := by
    have hmap : (rootNodes g).map node =
        g.nodes.filter fun v => (g.inEdges v).isEmpty := by
      rw [rootNodes, List.map_map]
      exact map_id _
    exact hmap ▸ g.nodup.filter _
  inputIter t ht := by
    obtain ⟨v, -, rfl⟩ := mem_map.mp ht
    rfl
  mem v := by
    have hmem : v ∈ (rootNodes g).map node ↔ g.inEdges v = [] := by
      simp [rootNodes, g.complete]
    have hzero : arrivals (g.delivered ([] : List (TaggedNode V × List (Option α)))) v = 0 := rfl
    refine hmem.trans ?_
    rw [show (new g : ExecutorState V α).propagated = [] from rfl, hzero, eq_comm (a := 0),
      length_eq_zero_iff]
    exact ⟨fun h => ⟨.inr h, h⟩, And.right⟩
  isDead t ht := by
    obtain ⟨v, -, rfl⟩ := mem_map.mp ht
    simp [new, GraphView.delivered, deadFlag, deadArrivals]
  frame _ := by
    refine ⟨_, rfl, ?_, rfl, counting_new hg.merge⟩
    simp [new, waiting, scheduleReady]

/-- A node becomes ready at most once. -/
theorem Flow.length_le (h : Flow g s) : s.readied.length ≤ g.nodes.length := by
  rw [← length_map node]
  exact (h.nodup.subperm fun v _ => g.complete v).length_le

section

variable (hg : g.Dataflow) (h : Flow g s) (hl : Ledger s)
include hg h hl

/-- The nodes that become ready when a waiting node propagates its outputs. -/
theorem Flow.activated (ht : t ∈ s.waiting) {st : IterationState V α}
    (hc : Counting g (g.delivered s.propagated) st.counts) (outputs : List (Option α)) :
    Counting g (g.delivered (s.propagated ++ [(t, outputs)]))
        (activateNodes g t.node t.isDead 0 outputs st).1.counts ∧
      ((activateNodes g t.node t.isDead 0 outputs st).2.map node).Nodup ∧
      (∀ v, arrivals (g.delivered (s.propagated ++ [(t, outputs)])) v ≤ (g.inEdges v).length) ∧
      ∀ t', t' ∈ (activateNodes g t.node t.isDead 0 outputs st).2 ↔ t'.inputIter = 0 ∧
        Fills g (g.delivered s.propagated) (g.deliveries t.node t.isDead outputs) t'.node ∧
        t'.isDead = deadFlag g (g.delivered (s.propagated ++ [(t, outputs)])) t'.node := by
  have hnodup : ((s.propagated ++ [(t, outputs)]).map fun p => p.1.node).Nodup := by
    obtain ⟨-, hpropagated, hdisjoint⟩ := List.nodup_append.mp (h.nodup_append hl)
    rw [List.map_append]
    refine List.nodup_append.mpr ⟨hpropagated, List.nodup_cons.mpr ⟨nofun, .nil⟩, ?_⟩
    intro u hu v hv heq
    rw [List.map_singleton, List.mem_singleton] at hv
    exact hdisjoint v (hv ▸ List.mem_map_of_mem ht) u hu heq.symm
  have hbound (v : V) := arrivals_le (g := g) hnodup v
  simp only [GraphView.delivered_append] at hbound ⊢
  obtain ⟨hcounting, hready, hmem⟩ := activateAll_of_counting hg.merge hc hbound
  exact ⟨hcounting, hready, hbound, hmem⟩

/-- The outputs of a waiting node are propagated. -/
theorem Flow.propagate (ht : t ∈ s.waiting) {st : IterationState V α}
    (hc : Counting g (g.delivered s.propagated) st.counts)
    (hreadied : s'.readied = s.readied ++ (activateNodes g t.node t.isDead 0 outputs st).2)
    (hpropagated : s'.propagated = s.propagated ++ [(t, outputs)])
    (hframe : s'.waiting ≠ [] → ∃ st', s'.rootFrame = some (rootFrameOf st') ∧
      st'.outstandingOps = s'.waiting.length ∧ st'.outstandingFrameCount = 0 ∧
      st'.counts = (activateNodes g t.node t.isDead 0 outputs st).1.counts) : Flow g s' := by
  obtain ⟨hcounting, hnodup, hbound, hmem⟩ := h.activated hg hl ht hc outputs
  have hsum (v : V) : arrivals (g.delivered (s.propagated ++ [(t, outputs)])) v =
      arrivals (g.delivered s.propagated) v +
        arrivals (g.deliveries t.node t.isDead outputs) v := by
    rw [GraphView.delivered_append, arrivals_append]
  have hfull (v : V) (hv : v ∈ s.readied.map node) :
      arrivals (g.delivered s.propagated) v = (g.inEdges v).length := ((h.mem v).mp hv).2
  constructor
  · rw [hreadied, List.map_append]
    refine List.nodup_append.mpr ⟨h.nodup, hnodup, ?_⟩
    rintro v hv v' hv' rfl
    obtain ⟨t', ht', rfl⟩ := List.mem_map.mp hv'
    have hlt := ((hmem t').mp ht').2.1.2.1
    have heq := hfull _ hv
    omega
  · rw [hreadied]
    intro t' ht'
    exact (mem_append.mp ht').elim (h.inputIter t') fun ht' => ((hmem t').mp ht').1
  · intro v
    rw [hreadied, hpropagated, map_append, mem_append, h.mem v]
    have hle := hbound v
    have hv := hsum v
    constructor
    · rintro (⟨hsink, heq⟩ | hv)
      · exact ⟨hsink, by omega⟩
      · obtain ⟨t', ht', rfl⟩ := mem_map.mp hv
        obtain ⟨-, ⟨hsink, -, hlast⟩, -⟩ := (hmem t').mp ht'
        rw [← GraphView.delivered_append] at hlast
        exact ⟨.inl hsink, hlast⟩
    · rintro ⟨hsink, heq⟩
      by_cases hbefore : arrivals (g.delivered s.propagated) v = (g.inEdges v).length
      · exact .inl ⟨hsink, hbefore⟩
      refine .inr (mem_map.mpr
        ⟨⟨v, 0, deadFlag g (g.delivered (s.propagated ++ [(t, outputs)])) v⟩,
          (hmem _).mpr ⟨rfl, ⟨?_, ?_, ?_⟩, rfl⟩, rfl⟩)
      · refine hsink.resolve_right fun hnil => ?_
        rw [hnil, length_nil] at heq hbefore
        omega
      · change arrivals (g.delivered s.propagated) v < (g.inEdges v).length
        omega
      · rw [← GraphView.delivered_append]
        exact heq
  · rw [hreadied, hpropagated]
    intro t' ht'
    rcases mem_append.mp ht' with ht' | ht'
    · have hzero : arrivals (g.deliveries t.node t.isDead outputs) t'.node = 0 := by
        have heq := hfull _ (mem_map_of_mem ht')
        have hle := hbound t'.node
        have hv := hsum t'.node
        omega
      rw [GraphView.delivered_append, deadFlag_append hzero]
      exact h.isDead t' ht'
    · exact ((hmem t').mp ht').2.2
  · intro hne
    obtain ⟨st', hst', hops, hframes, hcounts⟩ := hframe hne
    rw [hpropagated]
    exact ⟨st', hst', hops, hframes, hcounts ▸ hcounting⟩

/-- `PropagateOutputs` returns, and the work that is left gets less. -/
theorem propagate_spec {inlineReady : Option (List (TaggedNode V))} {completed : Bool}
    (hmem : ⟨inlineReady, .running t, completed⟩ ∈ s.activities) (outputs : List (Option α)) :
    ∃ s', s.propagate g ⟨inlineReady, .running t, completed⟩ t outputs = some s' ∧ Ledger s' ∧
      Flow g s' ∧ s'.work + 8 * s.readied.length < s.work + 8 * s'.readied.length := by
  have ht : t ∈ s.waiting := by
    refine mem_append_right _ (mem_flatMap.mpr ⟨_, hmem, ?_⟩)
    exact mem_append_left _ (mem_append_right _ (mem_singleton_self t))
  have hiter : t.inputIter = 0 := h.inputIter t (hl.readied.mem_iff.mpr (mem_append_left _ ht))
  obtain ⟨st, hroot, hops, hframes, hc⟩ := h.frame (ne_nil_of_mem ht)
  have hcounted := counted_activateNodes g 0 t.node t.isDead outputs
  have hops' := hcounted.ops st
  have hframes' := hcounted.frames st
  obtain ⟨f, hdecrement, hf⟩ := decrementOutstandingOps_rootFrameOf
    (hframes'.trans hframes) (activateNodes g t.node t.isDead 0 outputs st).2
  obtain ⟨ready, hready⟩ : ∃ ready, (activateNodes g t.node t.isDead 0 outputs st).2 = ready :=
    ⟨_, rfl⟩
  rw [hready] at hops' hdecrement
  obtain ⟨s', hs'⟩ : ∃ s' : ExecutorState V α, s' =
      { s.become ⟨inlineReady, .running t, completed⟩
          [⟨inlineReady, .propagated t ready, completed⟩] with
        rootFrame :=
          if decide ((activateNodes g t.node t.isDead 0 outputs st).1.outstandingOps - 1 = 0) then
            none
          else some f
        readied := s.readied ++ ready
        propagated := s.propagated ++ [(t, outputs)] } := ⟨_, rfl⟩
  have hreadied : s'.readied = s.readied ++ ready := by rw [hs']
  have hpropagated : s'.propagated = s.propagated ++ [(t, outputs)] := by rw [hs']
  have hl' : Ledger s' := hs' ▸ hl.propagate hmem
  refine ⟨s', ?_, hl', ?_, ?_⟩
  · rw [hs', ExecutorState.propagate, hroot, bind_some,
      propagateOutputs_rootFrameOf hg hiter, hready, hdecrement]
    rfl
  · refine h.propagate hg hl ht hc (by rw [hready, hreadied]) hpropagated fun hne => ?_
    have hwaiting : s'.waiting.length + 1 = s.waiting.length + ready.length := by
      have hlength := hl.readied.length_eq
      have hlength' := hl'.readied.length_eq
      rw [hreadied, hpropagated] at hlength'
      simp only [length_append, length_map, length_singleton] at hlength hlength'
      omega
    have hpos := length_pos_iff.mpr hne
    have hleft : (activateNodes g t.node t.isDead 0 outputs st).1.outstandingOps - 1 ≠ 0 := by
      omega
    refine ⟨{ (activateNodes g t.node t.isDead 0 outputs st).1 with
      outstandingOps := (activateNodes g t.node t.isDead 0 outputs st).1.outstandingOps - 1 },
      ?_, ?_, hframes'.trans hframes, rfl⟩
    · rw [hs', hf hleft, decide_eq_false hleft]
      rfl
    · change (activateNodes g t.node t.isDead 0 outputs st).1.outstandingOps - 1 = _
      omega
  · have hwork := work_propagate ready hmem
    rw [hreadied, length_append, hs']
    change work (s.become _ _) + _ < _
    omega

end

/-! ## Runs -/

/-- The books are in order, and the right nodes became ready. -/
structure Sound (g : GraphView V) (s : ExecutorState V α) : Prop where
  ledger : Ledger s
  flow : Flow g s

/-- A bound for the number of steps that are left. -/
def remaining (g : GraphView V) (s : ExecutorState V α) : Nat :=
  8 * (g.nodes.length - s.readied.length) + s.work

section

variable (hg : g.Dataflow)
include hg

/-- A step that is possible returns, keeps the invariant, and brings the end nearer. -/
theorem Sound.step (h : Sound g s) {move : ExecutorMove V α} (hmove : Enabled g s move) :
    ∃ s', s.step g move = some s' ∧ Sound g s' ∧ remaining g s' < remaining g s := by
  rcases step_cases hmove with ⟨s', hstep, hr, hwork⟩ |
    ⟨inlineReady, t, ready, completed, hmem, hstep⟩ |
    ⟨inlineReady, t, completed, outputs, hmem, hstep⟩
  · refine ⟨s', hstep, ⟨h.ledger.rearrange hr, ?_⟩, ?_⟩
    · exact h.flow.transport hr.rootFrame hr.readied hr.propagated hr.waiting
    · rw [remaining, remaining, hr.readied]
      omega
  · refine ⟨_, hstep, ⟨h.ledger.count hmem, ?_⟩, ?_⟩
    · refine h.flow.transport rfl rfl rfl (flatMap_replaced _ hmem ?_)
      simp [ExecutorState.count, become, Activity.waiting, Activity.queue, Phase.running?,
        Phase.ready]
    · have hwork := work_count hmem
      exact Nat.add_lt_add_left hwork _
  · obtain ⟨s', hstep', hl, hf, hwork⟩ := propagate_spec hg h.flow h.ledger hmem outputs
    refine ⟨s', hstep.trans hstep', ⟨hl, hf⟩, ?_⟩
    have hle := hf.length_le
    rw [remaining, remaining]
    omega

/-- A finite graph without cycles has no infinite descent along its edges. -/
theorem GraphView.Dataflow.wellFounded : WellFounded g.Precedes := by
  have : Fintype V := .ofList g.nodes g.complete
  have : Std.Irrefl (Relation.TransGen g.Precedes) := ⟨hg.acyclic⟩
  exact Subrelation.wf Relation.TransGen.single
    (Finite.wellFounded_of_trans_of_irrefl (Relation.TransGen g.Precedes))

/-- The nodes that are run: all but a sink with in edges. -/
def GraphView.IsRun (g : GraphView V) (v : V) : Prop :=
  (g.item v).nodeClass ≠ .sink ∨ g.inEdges v = []

/-- The source of an edge is run. -/
theorem GraphView.Dataflow.isRun {v : V} {e : V × EdgeInfo V} (he : e ∈ g.inEdges v) :
    g.IsRun e.1 := by
  refine .inl fun hsink => ?_
  have hedge := (GraphView.mem_inEdges.mp he).1
  rw [hg.sink e.1 hsink] at hedge
  cases hedge

/-- A graph with a node has a node that is run. -/
theorem GraphView.Dataflow.exists_isRun (hnodes : g.nodes ≠ []) : ∃ v, g.IsRun v := by
  obtain ⟨v, -⟩ := exists_mem_of_ne_nil _ hnodes
  cases hedges : g.inEdges v with
  | nil => exact ⟨v, .inr hedges⟩
  | cons e es => exact ⟨e.1, hg.isRun (hedges ▸ mem_cons_self)⟩

/-- When no node waits, every node that is run became ready. -/
theorem Sound.mem_readied (h : Sound g s) (hperm : s.readied.Perm (s.propagated.map Prod.fst))
    {v : V} (hv : g.IsRun v) : v ∈ s.readied.map node := by
  have hnodup := (nodup_append.mp (h.flow.nodup_append h.ledger)).2.1
  induction v using hg.wellFounded.induction with
  | _ v ih =>
    refine (h.flow.mem v).mpr ⟨hv, (arrivals_eq_iff hnodup v).mpr fun e he => ?_⟩
    have hprecedes : g.Precedes e.1 v := ⟨e.2, GraphView.mem_inEdges.mp he⟩
    obtain ⟨t, ht, hnode⟩ := mem_map.mp (ih e.1 hprecedes (hg.isRun he))
    obtain ⟨p, hp, rfl⟩ := mem_map.mp (hperm.mem_iff.mp ht)
    exact ⟨p, hp, hnode⟩

end

/-- The number of outstanding operations is zero when all nodes are processed. -/
theorem Sound.numOutstandingOps_eq_zero (h : Sound g s)
    (hall : ∀ v, g.IsRun v → v ∈ s.processed.map node) : s.numOutstandingOps = 0 := by
  have hnodup := h.flow.nodup_append h.ledger
  have hprocessed : (s.propagated.map fun p => p.1.node).Perm
      (s.processed.map node ++ s.unprocessed.map node) := by
    rw [← List.map_append, ← Function.comp_def, ← List.map_map]
    exact h.ledger.processed.map _
  suffices hnil : s.outstanding = [] by
    rw [h.ledger.outstanding, hnil]
    rfl
  refine eq_nil_iff_forall_not_mem.mpr fun t ht => ?_
  obtain ⟨hwaiting, hpropagated, hdisjoint⟩ := nodup_append.mp hnodup
  have hsub : t ∈ s.waiting ++ s.propagated.map Prod.fst := by
    rcases mem_of_mem_outstanding ht with ht | ht
    · exact mem_append_left _ ht
    · exact mem_append_right _ (h.ledger.processed.mem_iff.mpr (mem_append_right _ ht))
  have hrun : g.IsRun t.node := ((h.flow.mem t.node).mp
    (mem_map_of_mem (h.ledger.readied.mem_iff.mpr hsub))).1
  have hmem := hall t.node hrun
  rcases mem_of_mem_outstanding ht with ht | ht
  · exact hdisjoint _ (mem_map_of_mem ht) _ (hprocessed.mem_iff.mpr (mem_append_left _ hmem)) rfl
  · obtain ⟨-, -, hdisjoint'⟩ := nodup_append.mp (hprocessed.nodup hpropagated)
    exact hdisjoint' _ hmem _ (mem_map_of_mem ht) rfl

/-- What holds in every state of an executor. -/
structure ExactlyOnce (g : GraphView V) (s : ExecutorState V α) : Prop where
  /-- No node becomes ready twice. -/
  readied : (s.readied.map node).Nodup
  /-- A node becomes ready after the sources of its in edges. -/
  sources : ∀ t ∈ s.readied, ∀ e ∈ g.inEdges t.node, ∃ p ∈ s.propagated, p.1.node = e.1
  /-- A node is dead if it is no control trigger and one of its in edges comes from a dead node
  or carries no value. -/
  isDead : ∀ t ∈ s.readied, t.isDead = true ↔ (g.item t.node).nodeClass ≠ .controlTrigger ∧
    ∃ p ∈ s.propagated, ∃ e ∈ (g.item p.1.node).outputEdges, e.dst = t.node ∧
      (p.1.isDead = true ∨ ∃ slot, e.outputSlot = some slot ∧ (p.2[slot]?).join = none)
  /-- Only nodes that became ready are dispatched, and none twice. -/
  dispatched : s.dispatched.Subperm s.readied
  /-- The number of outstanding operations is zero exactly when all nodes are processed. -/
  outstanding : s.numOutstandingOps = 0 ↔ ∀ v, g.IsRun v → v ∈ s.processed.map node
  /-- Then every node became ready, and all were dispatched and processed once. -/
  complete : s.numOutstandingOps = 0 →
    (∀ v, g.IsRun v → v ∈ s.readied.map node) ∧
      s.dispatched.Perm s.readied ∧ s.processed.Perm s.readied
  /-- The run is not finished earlier, and it is finished once. -/
  finished : s.finished ≠ 0 → s.finished = 1 ∧ s.numOutstandingOps = 0

theorem Sound.exactlyOnce (hg : g.Dataflow) (h : Sound g s) : ExactlyOnce g s where
  readied := h.flow.nodup
  sources t ht := by
    have hnodup := (nodup_append.mp (h.flow.nodup_append h.ledger)).2.1
    exact (arrivals_eq_iff hnodup t.node).mp ((h.flow.mem t.node).mp (mem_map_of_mem ht)).2
  isDead t ht := by
    rw [h.flow.isDead t ht]
    exact deadFlag_delivered t.node
  dispatched := by
    refine List.Subperm.trans ?_ h.ledger.dispatched.symm.subperm
    exact (sublist_append_left ..).subperm
  outstanding := by
    refine ⟨fun hzero v hv => ?_, h.numOutstandingOps_eq_zero⟩
    obtain ⟨hpropagated, -, hprocessed⟩ := h.ledger.all_processed hzero
    exact (hprocessed.map _).mem_iff.mp (h.mem_readied hg hpropagated hv)
  complete hzero := by
    obtain ⟨hpropagated, hdispatched, hprocessed⟩ := h.ledger.all_processed hzero
    exact ⟨fun v => h.mem_readied hg hpropagated, hdispatched.symm, hprocessed.symm⟩
  finished hne := by
    have hfinishes := h.ledger.finishes
    rw [ExecutorState.finishes] at hfinishes
    split at hfinishes
    · rename_i hzero
      exact ⟨by omega, hzero.1⟩
    · omega

/-- Every run on a dataflow graph is short, runs no node twice, and can only stop when all nodes
are processed. -/
theorem run_exactlyOnce (hg : g.Dataflow) {moves : List (ExecutorMove V α)}
    (hmoves : Run.Admissible (step g) (Enabled g) (new g) moves) :
    ∃ s, Run.run (step g) (new g) moves = some s ∧ ExactlyOnce g s ∧
      moves.length ≤ 8 * g.nodes.length ∧
      ((∀ move, ¬Enabled g s move) →
        s.numOutstandingOps = 0 ∧ (g.nodes ≠ [] → s.finished = 1)) := by
  have hnew : Sound g (new g : ExecutorState V α) := ⟨ledger_new g, flow_new hg⟩
  obtain ⟨s, hrun, hs, hle⟩ := Run.run_bounded (fun s move hs => hs.step hg) hnew hmoves
  have hremaining : remaining g (new g : ExecutorState V α) ≤ 8 * g.nodes.length := by
    have hle := hnew.flow.length_le
    simp only [remaining, work, new, scheduleReady, map_nil, sum_nil] at hle ⊢
    omega
  refine ⟨s, hrun, hs.exactlyOnce hg, by omega, fun hstuck => ?_⟩
  obtain ⟨hpool, hactivities⟩ := hs.ledger.eq_nil_of_stuck hstuck
  have hzero : s.numOutstandingOps = 0 := by
    rw [hs.ledger.outstanding, ExecutorState.outstanding, hpool, hactivities]
    rfl
  refine ⟨hzero, fun hnodes => ?_⟩
  obtain ⟨v, hv⟩ := hg.exists_isRun hnodes
  have hprocessed : s.processed ≠ [] := by
    intro hnil
    have hmem := (hs.exactlyOnce hg).outstanding.mp hzero v hv
    rw [hnil] at hmem
    cases hmem
  have hfinishes := hs.ledger.finishes
  rwa [if_pos ⟨hzero, hprocessed⟩, ExecutorState.finishes, hactivities] at hfinishes

/-- A source with a node that takes its only output. -/
def sourceGraph : GraphView Bool where
  nodes := [false, true]
  nodup := by decide
  complete := by decide
  item
    | false => ⟨.other, 0, 1, 0, false, false, [⟨true, some 0, 0⟩]⟩
    | true => ⟨.other, 1, 0, 0, true, false, []⟩

theorem sourceGraph_dataflow : sourceGraph.Dataflow where
  merge := by decide
  enter := by decide
  exit := by decide
  nextIteration := by decide
  sink := by decide
  acyclic v h := by
    have hedge (u v : Bool) (h : sourceGraph.Precedes u v) : u = false ∧ v = true := by
      revert h
      cases u <;> cases v <;> simp [GraphView.Precedes, sourceGraph]
    have hpath (u v : Bool) (h : Relation.TransGen sourceGraph.Precedes u v) :
        u = false ∧ v = true := by
      induction h with
      | single h => exact hedge _ _ h
      | tail _ h ih => exact ⟨ih.1, (hedge _ _ h).2⟩
    exact Bool.false_ne_true ((hpath v v h).1.symm.trans (hpath v v h).2)

/-- The source has no value for its output, and the other node is dead. -/
def sourceMoves : List (ExecutorMove Bool Nat) :=
  [.start ⟨false, 0, false⟩,
    .pop ⟨some [⟨false, 0, false⟩], .idle, false⟩,
    .propagate ⟨some [], .running ⟨false, 0, false⟩, false⟩ [none],
    .count ⟨some [], .propagated ⟨false, 0, false⟩ [⟨true, 0, true⟩], false⟩,
    .schedule ⟨some [], .counted [⟨true, 0, true⟩], false⟩,
    .pop ⟨some [⟨true, 0, true⟩], .idle, false⟩,
    .propagate ⟨some [], .running ⟨true, 0, true⟩, false⟩ [],
    .count ⟨some [], .propagated ⟨true, 0, true⟩ [], false⟩,
    .schedule ⟨some [], .counted [], true⟩,
    .finish ⟨some [], .idle, true⟩]

/-- The source runs once, and so does the node that consumes its dead output. -/
theorem run_exactlyOnce_sourceGraph :
    ∃ s, Run.run (step sourceGraph) (new sourceGraph) sourceMoves = some s ∧
      ExactlyOnce sourceGraph s ∧ s.numOutstandingOps = 0 ∧ s.finished = 1 := by
  have houtput : sourceGraph.IsOutput ⟨false, 0, false⟩ ([none] : List (Option Nat)) :=
    ⟨rfl, by simp⟩
  have houtput' : sourceGraph.IsOutput ⟨true, 0, true⟩ ([] : List (Option Nat)) := ⟨rfl, by simp⟩
  have hmoves : Run.Admissible (step sourceGraph) (Enabled sourceGraph) (new sourceGraph)
      sourceMoves := by
    refine ⟨.start (by decide), fun s h => ?_⟩
    cases h
    refine ⟨.pop (by decide), fun s h => ?_⟩
    cases h
    refine ⟨.propagate (by decide) (by decide) houtput, fun s h => ?_⟩
    cases h
    refine ⟨.count (by decide +kernel), fun s h => ?_⟩
    cases h
    refine ⟨.schedule (by decide +kernel), fun s h => ?_⟩
    cases h
    refine ⟨.pop (by decide +kernel), fun s h => ?_⟩
    cases h
    refine ⟨.propagate (by decide +kernel) (by decide) houtput', fun s h => ?_⟩
    cases h
    refine ⟨.count (by decide +kernel), fun s h => ?_⟩
    cases h
    refine ⟨.schedule (by decide +kernel), fun s h => ?_⟩
    cases h
    exact ⟨.finish (by decide +kernel), fun _ _ => trivial⟩
  obtain ⟨s, hrun, hs, -⟩ := run_exactlyOnce sourceGraph_dataflow hmoves
  have hend : (Run.run (step sourceGraph) (new sourceGraph) sourceMoves).map
      (fun s => (s.numOutstandingOps, s.finished)) = some (0, 1) := by decide +kernel
  rw [hrun, map_some, some.injEq, Prod.mk.injEq] at hend
  exact ⟨s, hrun, hs, hend⟩

end Tension.Executor
