import Mathlib
import Tension.Models.Executor.Activation

/-!
# Nodes whose inputs have all arrived

On a graph without merge nodes, the counts of a node say how many inputs are missing and how many
dead inputs there were. A list of deliveries makes those nodes ready whose last input is among
them.
-/

namespace Tension.Executor

open List Function

variable {V α : Type} [DecidableEq V] {g : GraphView V} {s : IterationState V α}
  {hs ds : List (Delivery V α)} {d : Delivery V α} {v : V}

/-- The number of deliveries to a node. -/
def arrivals (hs : List (Delivery V α)) (v : V) : Nat := hs.countP fun d => d.edge.dst = v

/-- A delivery from a dead node or without a value. -/
def Delivery.isDeadInput (d : Delivery V α) : Bool :=
  d.isDead || !d.isControlEdge && !d.entry.isSome

/-- The number of dead deliveries to a node. -/
def deadArrivals (hs : List (Delivery V α)) (v : V) : Nat :=
  hs.countP fun d => d.edge.dst = v && d.isDeadInput

/-- The flag of a node whose inputs have arrived. -/
def deadFlag (g : GraphView V) (hs : List (Delivery V α)) (v : V) : Bool :=
  (g.item v).nodeClass ≠ .controlTrigger && 0 < deadArrivals hs v

/-- The counts of all nodes after some deliveries. -/
def Counting (g : GraphView V) (hs : List (Delivery V α)) (counts : V → Counts) : Prop :=
  ∀ v, (counts v).hasStarted = false ∧
    ((g.item v).nodeClass ≠ .sink →
      (counts v).pending = (g.inEdges v).length - arrivals hs v ∧
      (counts v).deadCount = deadArrivals hs v)

theorem arrivals_append (hs ds : List (Delivery V α)) (v : V) :
    arrivals (hs ++ ds) v = arrivals hs v + arrivals ds v := countP_append ..

theorem arrivals_singleton (d : Delivery V α) (v : V) :
    arrivals [d] v = if d.edge.dst = v then 1 else 0 := by
  rw [arrivals]
  simp

theorem deadArrivals_append (hs ds : List (Delivery V α)) (v : V) :
    deadArrivals (hs ++ ds) v = deadArrivals hs v + deadArrivals ds v := countP_append ..

theorem deadArrivals_le (hs : List (Delivery V α)) (v : V) : deadArrivals hs v ≤ arrivals hs v :=
  countP_mono_left fun _ _ h => (Bool.and_eq_true_iff.mp h).1

/-- Without further deliveries the flag stays. -/
theorem deadFlag_append (h : arrivals ds v = 0) : deadFlag g (hs ++ ds) v = deadFlag g hs v := by
  have hzero : deadArrivals ds v = 0 := Nat.eq_zero_of_le_zero (h ▸ deadArrivals_le ds v)
  rw [deadFlag, deadFlag, deadArrivals_append, hzero, add_zero]

theorem counting_new (hmerge : ∀ v, (g.item v).nodeClass ≠ .merge) :
    Counting g ([] : List (Delivery V α)) (IterationState.new g : IterationState V α).counts := by
  refine fun v => ⟨rfl, fun _ => ⟨?_, rfl⟩⟩
  have hmax : g.maxPending v = (g.inEdges v).length := if_neg (hmerge v)
  have hfield := field_createHandle (p := g.maxPending v)
    (d := g.maxDeadCount v) (by omega) (.inl (Int.le_refl _))
  simp only [IterationState.new, Counts.setInitialCount, GraphView.pendingId, arrivals, countP_nil]
  omega

theorem deadArrivals_singleton (d : Delivery V α) :
    deadArrivals [d] d.edge.dst = if d.isDeadInput then 1 else 0 := by
  rw [deadArrivals]
  simp

section

variable (hmerge : ∀ v, (g.item v).nodeClass ≠ .merge) (hc : Counting g hs s.counts)
include hmerge hc

/-- What a delivery does to the counts of its destination. -/
theorem activation_of_counting (hsink : (g.item d.edge.dst).nodeClass ≠ .sink)
    (hlt : arrivals hs d.edge.dst < (g.inEdges d.edge.dst).length) :
    d.activation g (s.counts d.edge.dst) =
      ⟨⟨(g.inEdges d.edge.dst).length - arrivals (hs ++ [d]) d.edge.dst,
          deadArrivals (hs ++ [d]) d.edge.dst, false⟩,
        0 < deadArrivals (hs ++ [d]) d.edge.dst,
        arrivals (hs ++ [d]) d.edge.dst = (g.inEdges d.edge.dst).length, !d.isControlEdge⟩ := by
  obtain ⟨hstarted, hcounts⟩ := hc d.edge.dst
  obtain ⟨hpending, hdead⟩ := hcounts hsink
  have hmax : g.maxPending d.edge.dst = (g.inEdges d.edge.dst).length := if_neg (hmerge _)
  have hle := deadArrivals_le hs d.edge.dst
  have hfield : (g.pendingId d.edge.dst).field ((s.counts d.edge.dst).pending - 1) =
      (s.counts d.edge.dst).pending - 1 := field_createHandle (by omega) (.inl (by omega))
  have hfield' : (g.pendingId d.edge.dst).field ((s.counts d.edge.dst).deadCount + 1) =
      (s.counts d.edge.dst).deadCount + 1 :=
    field_createHandle (by omega) (.inr (by rw [GraphView.maxDeadCount]; omega))
  have hone : arrivals [d] d.edge.dst = 1 := by rw [arrivals_singleton, if_pos rfl]
  have hadjust : (s.counts d.edge.dst).adjustForActivation (g.pendingId d.edge.dst) d.isDeadInput =
      ⟨(g.inEdges d.edge.dst).length - arrivals (hs ++ [d]) d.edge.dst,
        deadArrivals (hs ++ [d]) d.edge.dst, false⟩ := by
    rw [arrivals_append, deadArrivals_append, deadArrivals_singleton, Counts.adjustForActivation]
    cases d.isDeadInput with
    | false =>
      simp only [Bool.false_eq_true, if_false, Counts.decrementPending, hstarted, Counts.mk.injEq,
        and_true]
      omega
    | true =>
      simp only [if_true, Counts.incrementDeadCount_eq _ hstarted (by omega),
        Counts.decrementPending, hstarted, Counts.mk.injEq, and_true]
      omega
  have hactivation : d.activation g (s.counts d.edge.dst) = activateOther (g.pendingId d.edge.dst)
      d.isControlEdge d.entry.isSome d.isDead (s.counts d.edge.dst) := if_neg (hmerge _)
  have hinput : (d.isDead || !d.isControlEdge && !d.entry.isSome) = d.isDeadInput := rfl
  simp only [hactivation, activateOther, hinput, hadjust]
  simp only [Activation.mk.injEq, true_and, and_true, decide_eq_decide]
  omega

/-- One delivery. -/
theorem activate_of_counting (hlt : arrivals hs d.edge.dst < (g.inEdges d.edge.dst).length) :
    Counting g (hs ++ [d]) (d.activate g 0 s).1.counts ∧
      (d.activate g 0 s).2 =
        if (g.item d.edge.dst).nodeClass ≠ .sink ∧
            arrivals (hs ++ [d]) d.edge.dst = (g.inEdges d.edge.dst).length then
          [⟨d.edge.dst, 0, deadFlag g (hs ++ [d]) d.edge.dst⟩]
        else [] := by
  have hother (v : V) (hv : v ≠ d.edge.dst) : arrivals (hs ++ [d]) v = arrivals hs v ∧
      deadArrivals (hs ++ [d]) v = deadArrivals hs v := by
    have hzero : arrivals [d] v = 0 := by rw [arrivals_singleton, if_neg hv.symm]
    have hdead := deadArrivals_le [d] v
    rw [arrivals_append, deadArrivals_append]
    omega
  by_cases hsink : (g.item d.edge.dst).nodeClass = .sink
  · have hactivate : d.activate g 0 s = (s, []) := if_pos hsink
    rw [hactivate]
    refine ⟨fun v => ⟨(hc v).1, fun hv => ?_⟩, (if_neg fun h => h.1 hsink).symm⟩
    have hne : v ≠ d.edge.dst := by
      rintro rfl
      exact hv hsink
    obtain ⟨harrivals, hdead⟩ := hother v hne
    rw [harrivals, hdead]
    exact (hc v).2 hv
  · have hactivation := activation_of_counting hmerge hc hsink hlt
    simp only [Delivery.activate, hsink, if_false, hactivation, IterationState.settle,
      decide_eq_true_eq]
    have hcounts : Counting g (hs ++ [d]) (update s.counts d.edge.dst
        ⟨(g.inEdges d.edge.dst).length - arrivals (hs ++ [d]) d.edge.dst,
          deadArrivals (hs ++ [d]) d.edge.dst, false⟩) := by
      intro v
      rcases eq_or_ne v d.edge.dst with rfl | hne
      · rw [update_self]
        exact ⟨rfl, fun _ => ⟨rfl, rfl⟩⟩
      · obtain ⟨harrivals, hdead⟩ := hother v hne
        rw [update_of_ne hne, harrivals, hdead]
        exact hc v
    split
    · rename_i hfull
      refine ⟨hcounts, ?_⟩
      have hflag : deadFlag g (hs ++ [d]) d.edge.dst =
          if (g.item d.edge.dst).nodeClass = .controlTrigger then false
          else decide (0 < deadArrivals (hs ++ [d]) d.edge.dst) := by
        rw [deadFlag]
        split <;> simp [*]
      dsimp only
      rw [← hflag, if_pos ⟨hsink, hfull⟩]
    · rename_i hfull
      exact ⟨hcounts, (if_neg fun h => hfull h.2).symm⟩

end

/-- The last input of a node is among some deliveries. -/
def Fills (g : GraphView V) (hs ds : List (Delivery V α)) (v : V) : Prop :=
  (g.item v).nodeClass ≠ .sink ∧ arrivals hs v < (g.inEdges v).length ∧
    arrivals (hs ++ ds) v = (g.inEdges v).length

/-- Deliveries make those nodes ready whose last input is among them, each once. -/
theorem activateAll_of_counting (hmerge : ∀ v, (g.item v).nodeClass ≠ .merge)
    (hc : Counting g hs s.counts) (hbound : ∀ v, arrivals (hs ++ ds) v ≤ (g.inEdges v).length) :
    Counting g (hs ++ ds) (Delivery.activateAll g 0 s ds).1.counts ∧
      ((Delivery.activateAll g 0 s ds).2.map TaggedNode.node).Nodup ∧
      ∀ t, t ∈ (Delivery.activateAll g 0 s ds).2 ↔
        t.inputIter = 0 ∧ Fills g hs ds t.node ∧ t.isDead = deadFlag g (hs ++ ds) t.node := by
  induction ds generalizing hs s with
  | nil =>
    refine ⟨by rwa [append_nil], nodup_nil, fun t => ?_⟩
    refine ⟨fun h => absurd h not_mem_nil, ?_⟩
    rintro ⟨-, ⟨-, hlt, heq⟩, -⟩
    rw [append_nil] at heq
    omega
  | cons d ds ih =>
    have hassoc : hs ++ d :: ds = hs ++ [d] ++ ds := append_cons ..
    have hsum (v : V) : arrivals (hs ++ [d]) v =
        arrivals hs v + if d.edge.dst = v then 1 else 0 := by
      rw [arrivals_append, arrivals_singleton]
    rw [hassoc] at hbound ⊢
    have hlt : arrivals hs d.edge.dst < (g.inEdges d.edge.dst).length := by
      have h := hbound d.edge.dst
      rw [arrivals_append, hsum, if_pos rfl] at h
      omega
    obtain ⟨hc₁, hfirst⟩ := activate_of_counting hmerge hc hlt
    obtain ⟨hc₂, hnodup, hmem⟩ := ih hc₁ hbound
    -- The last input of a node other than the destination comes later.
    have hfills (v : V) (hv : ¬((g.item d.edge.dst).nodeClass ≠ .sink ∧
        arrivals (hs ++ [d]) d.edge.dst = (g.inEdges d.edge.dst).length) ∨ v ≠ d.edge.dst) :
        Fills g hs (d :: ds) v ↔ Fills g (hs ++ [d]) ds v := by
      rw [Fills, hassoc]
      refine and_congr_right fun hsink => and_congr_left fun _ => ?_
      have hdst := hsum v
      rcases eq_or_ne v d.edge.dst with rfl | hne
      · have hnot := hv.resolve_right fun h => h rfl
        have hnotFull : arrivals (hs ++ [d]) d.edge.dst ≠ (g.inEdges d.edge.dst).length :=
          fun h => hnot ⟨hsink, h⟩
        rw [if_pos rfl] at hdst
        omega
      · rw [if_neg hne.symm] at hdst
        omega
    simp only [Delivery.activateAll, mem_append]
    rw [hfirst]
    split
    · rename_i hfull
      have hzero : arrivals ds d.edge.dst = 0 := by
        have h := hbound d.edge.dst
        rw [arrivals_append] at h
        omega
      refine ⟨hc₂, ?_, fun t => ?_⟩
      · refine nodup_cons.mpr ⟨fun hv => ?_, hnodup⟩
        obtain ⟨t, ht, heq⟩ := mem_map.mp hv
        have hlt := ((hmem t).mp ht).2.1.2.1
        simp only [heq] at hlt
        omega
      · rw [mem_singleton, hmem t]
        rcases eq_or_ne t.node d.edge.dst with heq | hne
        · have hdst : Fills g hs (d :: ds) d.edge.dst := by
            refine ⟨hfull.1, hlt, ?_⟩
            rw [hassoc, arrivals_append, hzero]
            exact hfull.2
          have hlater : ¬Fills g (hs ++ [d]) ds d.edge.dst := fun h => by
            have := h.2.1
            omega
          obtain ⟨node, inputIter, isDead⟩ := t
          obtain rfl : node = d.edge.dst := heq
          simp only [deadFlag_append hzero, TaggedNode.mk.injEq, true_and, hdst, hlater, false_and,
            and_false, or_false]
        · rw [hfills t.node (.inr hne)]
          refine or_iff_right fun h => hne ?_
          rw [h]
    · rename_i hfull
      refine ⟨hc₂, hnodup, fun t => ?_⟩
      rw [hmem t, hfills t.node (.inl hfull)]
      simp

/-! ## Deliveries of whole nodes -/

namespace GraphView

/-- The number of edges from one node to another. -/
def degree (g : GraphView V) (u v : V) : Nat := (g.item u).outputEdges.countP fun e => e.dst = v

/-- What nodes deliver whose outputs are propagated. -/
def delivered (g : GraphView V) (ps : List (TaggedNode V × List (Option α))) :
    List (Delivery V α) :=
  ps.flatMap fun p => g.deliveries p.1.node p.1.isDead p.2

omit [DecidableEq V] in
theorem delivered_append (ps : List (TaggedNode V × List (Option α))) (t : TaggedNode V)
    (outputs : List (Option α)) : g.delivered (ps ++ [(t, outputs)]) =
      g.delivered ps ++ g.deliveries t.node t.isDead outputs := by
  rw [delivered, flatMap_append, flatMap_singleton]
  rfl

theorem mem_inEdges {u : V} {e : EdgeInfo V} :
    (u, e) ∈ g.inEdges v ↔ e ∈ (g.item u).outputEdges ∧ e.dst = v := by
  simp [inEdges, g.complete]

theorem length_inEdges (g : GraphView V) (v : V) :
    (g.inEdges v).length = (g.nodes.map fun u => g.degree u v).sum := by
  simp [inEdges, degree, countP_eq_length_filter]

/-- The in edges of a node come from some nodes and from the others. -/
theorem length_inEdges_split {us : List V} (hus : us.Nodup) (v : V) :
    (g.inEdges v).length = (us.map fun u => g.degree u v).sum +
      ((g.nodes.filter fun u => u ∉ us).map fun u => g.degree u v).sum := by
  have hsome : (g.nodes.filter fun u => u ∈ us).Perm us :=
    (perm_ext_iff_of_nodup (g.nodup.filter _) hus).mpr fun u => by simp [g.complete]
  have hsplit : (g.nodes.filter (fun u => u ∈ us) ++ g.nodes.filter fun u => u ∉ us).Perm
      g.nodes := by
    simpa using filter_append_perm (fun u => decide (u ∈ us)) g.nodes
  rw [length_inEdges, ← (hsplit.map _).sum_nat, map_append, sum_append, (hsome.map _).sum_nat]

end GraphView

section Delivered

variable {ps : List (TaggedNode V × List (Option α))}

theorem arrivals_delivered (v : V) : arrivals (g.delivered ps) v =
    ((ps.map fun p => p.1.node).map fun u => g.degree u v).sum := by
  simp [arrivals, GraphView.delivered, GraphView.deliveries, countP_flatMap, comp_def,
    GraphView.degree]

/-- No node gets more deliveries than it has in edges. -/
theorem arrivals_le (hps : (ps.map fun p => p.1.node).Nodup) (v : V) :
    arrivals (g.delivered ps) v ≤ (g.inEdges v).length := by
  rw [arrivals_delivered, g.length_inEdges_split hps]
  omega

/-- All inputs of a node have arrived when the sources of its in edges have propagated their
outputs. -/
theorem arrivals_eq_iff (hps : (ps.map fun p => p.1.node).Nodup) (v : V) :
    arrivals (g.delivered ps) v = (g.inEdges v).length ↔
      ∀ e ∈ g.inEdges v, ∃ p ∈ ps, p.1.node = e.1 := by
  rw [arrivals_delivered, g.length_inEdges_split hps, eq_comm, Nat.add_eq_left,
    List.sum_eq_zero_iff_forall_eq_nat]
  constructor
  · intro h e he
    by_contra hnot
    have hmem : e.1 ∈ g.nodes.filter fun u => u ∉ ps.map fun p => p.1.node := by
      simpa [g.complete] using hnot
    have hzero := h _ (mem_map_of_mem hmem)
    obtain ⟨hedge, hdst⟩ := GraphView.mem_inEdges.mp he
    exact countP_eq_zero.mp hzero e.2 hedge (decide_eq_true hdst)
  · intro h n hn
    obtain ⟨u, hu, rfl⟩ := mem_map.mp hn
    refine countP_eq_zero.mpr fun e he hdst => ?_
    obtain ⟨p, hp, hnode⟩ := h (u, e) (GraphView.mem_inEdges.mpr ⟨he, of_decide_eq_true hdst⟩)
    have hnot := (mem_filter.mp hu).2
    exact of_decide_eq_true hnot (mem_map.mpr ⟨p, hp, hnode⟩)

omit [DecidableEq V] in
/-- A data edge without a value is a dead input. -/
theorem isDeadInput_iff (u : V) (isDead : Bool) (e : EdgeInfo V) (outputs : List (Option α)) :
    Delivery.isDeadInput ⟨u, isDead, e, (e.outputSlot.bind (outputs[·]?)).join⟩ = true ↔
      isDead = true ∨ ∃ slot, e.outputSlot = some slot ∧ (outputs[slot]?).join = none := by
  rw [Delivery.isDeadInput, Delivery.isControlEdge]
  cases e.outputSlot with
  | none => simp
  | some slot => simp

/-- The flag of a node says whether there was a dead input. -/
theorem deadFlag_delivered (v : V) : deadFlag g (g.delivered ps) v = true ↔
    (g.item v).nodeClass ≠ .controlTrigger ∧
      ∃ p ∈ ps, ∃ e ∈ (g.item p.1.node).outputEdges, e.dst = v ∧
        (p.1.isDead = true ∨ ∃ slot, e.outputSlot = some slot ∧ (p.2[slot]?).join = none) := by
  have hdead : 0 < deadArrivals (g.delivered ps) v ↔
      ∃ d ∈ g.delivered ps, d.edge.dst = v ∧ d.isDeadInput = true := by
    simp [deadArrivals]
  rw [deadFlag, Bool.and_eq_true_iff, decide_eq_true_iff, decide_eq_true_iff, hdead]
  refine and_congr_right fun _ => ?_
  constructor
  · rintro ⟨d, hd, hdst, hinput⟩
    obtain ⟨p, hp, hd⟩ := mem_flatMap.mp hd
    obtain ⟨e, he, rfl⟩ := mem_map.mp hd
    exact ⟨p, hp, e, he, hdst, (isDeadInput_iff ..).mp hinput⟩
  · rintro ⟨p, hp, e, he, hdst, hinput⟩
    exact ⟨_, mem_flatMap.mpr ⟨p, hp, mem_map_of_mem he⟩, hdst, (isDeadInput_iff ..).mpr hinput⟩

end Delivered

end Tension.Executor
