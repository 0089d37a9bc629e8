import Mathlib
import Tension.Models.Executor.Activation

/-!
# Activation of merge nodes

A merge node is due when all its control inputs have arrived, and a live input, a dead input from
an enter node, or all its inputs dead. Without a dead input from an enter node, the node is
pushed once when it is due, whatever the order of the arrivals.
-/

namespace Tension.Executor

open List

variable {V α : Type}

namespace Delivery

/-- A data input with a value. -/
def isLive (d : Delivery V α) : Bool := !d.isControlEdge && d.entry.isSome

/-- A data input without a value. -/
def isDeadData (d : Delivery V α) : Bool := !d.isControlEdge && d.entry.isNone

/-- A data input without a value from an enter node. -/
def isDeadEnter (g : GraphView V) (d : Delivery V α) : Bool :=
  d.isDeadData && (g.item d.src).isEnter

end Delivery

open Delivery

variable [DecidableEq V] {g : GraphView V} {v : V} {ds es : List (Delivery V α)}
  {d : Delivery V α} {c : Counts}

/-- The number of control inputs of a node. -/
def GraphView.numControlEdges (g : GraphView V) (v : V) : Nat :=
  (g.inEdges v).countP GraphView.isControlEdge

/-- The flags with which deliveries in a new iteration make a node ready. -/
def pushes (g : GraphView V) (v : V) (ds : List (Delivery V α)) : List Bool :=
  ((activateAll g 0 (.new g) ds).2.filter fun t => t.node = v).map TaggedNode.isDead

/-- A merge node with one edge for each of its inputs. -/
structure IsMerge (g : GraphView V) (v : V) : Prop where
  nodeClass : (g.item v).nodeClass = .merge
  numInputs : (g.item v).numInputs + g.numControlEdges v = (g.inEdges v).length
  pos : 0 < (g.item v).numInputs

/-- Deliveries on different edges to a node. -/
structure Arrivals (g : GraphView V) (v : V) (ds : List (Delivery V α)) : Prop where
  dst : ∀ d ∈ ds, d.edge.dst = v
  distinct : (ds.map fun d => (d.src, d.edge)).Subperm (g.inEdges v)

/-- All control inputs have arrived, and a live input, a dead input from an enter node, or all
inputs dead. -/
def Due (g : GraphView V) (v : V) (ds : List (Delivery V α)) : Prop :=
  ds.countP isControlEdge = g.numControlEdges v ∧
    (0 < ds.countP isLive ∨ 0 < ds.countP (isDeadEnter g) ∨
      ds.countP isDeadData = (g.item v).numInputs)

instance : Decidable (Due g v ds) := inferInstanceAs (Decidable (_ ∧ _))

/-- Whatever the order of the deliveries, the node is pushed at most once, it is pushed in all
orders or in none, and if it is due, in all. Without a live input it is pushed with the same
flag. -/
structure OrderIndependent (g : GraphView V) (v : V) (ds : List (Delivery V α)) : Prop where
  once : ∀ es, es.Perm ds → (pushes g v es).length ≤ 1
  pushed : ∀ es, es.Perm ds → (pushes g v es = [] ↔ pushes g v ds = [])
  flag : ds.countP isLive = 0 → ∀ es, es.Perm ds → pushes g v es = pushes g v ds
  due : Due g v ds → ∀ es, es.Perm ds → pushes g v es ≠ []

/-- No dead input comes from an enter node, or a control input is missing, or the dead input from
the enter node is the only input, or there are no control inputs and the other inputs are dead
but not all there. -/
def Harmless (g : GraphView V) (v : V) (ds : List (Delivery V α)) : Prop :=
  ds.countP (isDeadEnter g) = 0 ∨ ds.countP isControlEdge < g.numControlEdges v ∨
    ds.countP (isDeadEnter g) ≤ 1 ∧ ds.countP isLive = 0 ∧
      ((g.item v).numInputs = 1 ∨ g.numControlEdges v = 0 ∧
        (ds.countP isDeadData = ds.countP (isDeadEnter g) ∨
          ds.countP isDeadData < (g.item v).numInputs))

/-! ## Numbers of arrivals -/

omit [DecidableEq V] in
/-- A delivery is a control input, a live input or a dead input. -/
theorem Delivery.kind (d : Delivery V α) :
    d.isControlEdge = true ∧ d.isLive = false ∧ d.isDeadData = false ∨
      d.isControlEdge = false ∧ d.isLive = true ∧ d.isDeadData = false ∨
      d.isControlEdge = false ∧ d.isLive = false ∧ d.isDeadData = true := by
  simp only [isLive, isDeadData]
  cases d.isControlEdge
  · cases d.entry <;> simp
  · simp

omit [DecidableEq V] in
theorem Delivery.not_isControlEdge (h : d.isLive = true ∨ d.isDeadData = true) :
    d.isControlEdge = false := by
  rcases d.kind with ⟨-, h₂, h₃⟩ | ⟨h₁, -⟩ | ⟨h₁, -⟩
  · simp [h₂, h₃] at h
  · exact h₁
  · exact h₁

omit [DecidableEq V] in
theorem Delivery.isDeadData_of_isDeadEnter (h : d.isDeadEnter g = true) : d.isDeadData = true :=
  (Bool.and_eq_true_iff.mp h).1

omit [DecidableEq V] in
theorem Delivery.not_isLive (h : d.isDeadData = true) : d.isLive = false := by
  rcases d.kind with ⟨-, h₂, -⟩ | ⟨-, -, h₃⟩ | ⟨-, h₂, -⟩
  · exact h₂
  · simp [h] at h₃
  · exact h₂

omit [DecidableEq V] in
theorem countP_isDeadEnter_le (g : GraphView V) (ds : List (Delivery V α)) :
    ds.countP (isDeadEnter g) ≤ ds.countP isDeadData :=
  countP_mono_left fun _ _ => isDeadData_of_isDeadEnter

omit [DecidableEq V] in
theorem countP_data (ds : List (Delivery V α)) :
    ds.countP isLive + ds.countP isDeadData = ds.countP fun d => !d.isControlEdge := by
  induction ds with
  | nil => rfl
  | cons d ds ih =>
    rcases d.kind with ⟨h₁, h₂, h₃⟩ | ⟨h₁, h₂, h₃⟩ | ⟨h₁, h₂, h₃⟩ <;> simp [h₁, h₂, h₃] <;> omega

namespace Arrivals

theorem of_append (h : Arrivals g v (ds ++ es)) : Arrivals g v ds where
  dst d hd := h.dst d (mem_append_left _ hd)
  distinct := by
    have hdistinct := h.distinct
    rw [map_append] at hdistinct
    exact (sublist_append_left _ _).subperm.trans hdistinct

theorem perm (h : Arrivals g v ds) (hp : es.Perm ds) : Arrivals g v es where
  dst d hd := h.dst d (hp.mem_iff.mp hd)
  distinct := (hp.map _).subperm.trans h.distinct

/-- No more inputs arrive than there are. -/
theorem countP_le (h : Arrivals g v ds) (hv : IsMerge g v) :
    ds.countP isControlEdge ≤ g.numControlEdges v ∧
      ds.countP isLive + ds.countP isDeadData ≤ (g.item v).numInputs := by
  have hcontrol := h.distinct.countP_le GraphView.isControlEdge
  have hdata := h.distinct.countP_le fun e => !GraphView.isControlEdge e
  have hlength := (g.inEdges v).length_eq_countP_add_countP GraphView.isControlEdge
  rw [countP_map] at hcontrol hdata
  simp only [Bool.not_eq_true, Bool.decide_eq_false] at hlength
  have hnum := hv.numInputs
  rw [GraphView.numControlEdges] at hnum ⊢
  refine ⟨hcontrol, ?_⟩
  rw [countP_data]
  have hdata' : ds.countP (fun d => !d.isControlEdge) ≤
      (g.inEdges v).countP fun e => !GraphView.isControlEdge e := hdata
  omega

end Arrivals

/-! ## One arrival -/

/-- The counts of a merge node with `K` control inputs after `k` control inputs, `l` live inputs
and `m` dead inputs. -/
structure Tracks (K k l m : Nat) (c : Counts) : Prop where
  started : c.hasStarted = false
  pending : c.pending = 2 * (K - k : Int) + if l = 0 then 1 else 0
  dead_nonneg : 0 ≤ c.deadCount
  dead_le : c.deadCount ≤ m
  dead_eq : l = 0 → c.deadCount = m

section Numbers

variable {K D k l m : Nat} (hc : Tracks K k l m c)
include hc

theorem Tracks.control (hk : k < K) (hdata : l + m ≤ D) (hasValue isEnter : Bool) :
    let a := activateMerge D (createHandle (1 + 2 * K) (D + K)) true hasValue isEnter c
    Tracks K (k + 1) l m a.counts ∧
      (a.dstReady = true ↔ k + 1 = K ∧ (0 < l ∨ m = D)) ∧
      (a.dstReady = true → a.dstDead = decide (l = 0)) := by
  obtain ⟨hstarted, hpending, hnonneg, hle, heq⟩ := hc
  have hfield : (createHandle (1 + 2 * K) (D + K)).field (c.pending - 2) = c.pending - 2 :=
    field_createHandle (by split at hpending <;> omega) (.inl (by split at hpending <;> omega))
  have hdecrement : c.decrementPending (createHandle (1 + 2 * K) (D + K)) 2 =
      ⟨c.pending - 2, c.deadCount, false⟩ := by rw [Counts.decrementPending, hfield, hstarted]
  simp only [activateMerge, if_true, hdecrement, Counts.pendingCount_eq, Bool.or_eq_true,
    Bool.and_eq_true, decide_eq_true_eq, decide_eq_decide]
  refine ⟨⟨rfl, ?_, hnonneg, hle, heq⟩, ?_, ?_⟩
  · dsimp only
    omega
  · split at hpending <;> omega
  · split at hpending <;> omega

theorem Tracks.live (h : Handle) (isEnter : Bool) :
    let a := activateMerge D h false true isEnter c
    Tracks K k (l + 1) m a.counts ∧ (a.dstReady = true ↔ k = K ∧ l = 0) ∧ a.dstDead = false := by
  obtain ⟨hstarted, hpending, hnonneg, hle, heq⟩ := hc
  simp only [activateMerge, Bool.false_eq_true, if_false, if_true, Counts.markLive_eq hstarted,
    Counts.pendingCount_eq hstarted, decide_eq_true_eq, and_true]
  refine ⟨⟨hstarted, ?_, hnonneg, hle, nofun⟩, ?_⟩
  · dsimp only
    split at hpending <;> omega
  · split at hpending <;> omega

theorem Tracks.dead (hk : k ≤ K) (hdata : l + m + 1 ≤ D) (isEnter : Bool) :
    let a := activateMerge D (createHandle (1 + 2 * K) (D + K)) false false isEnter c
    Tracks K k l (m + 1) a.counts ∧
      (a.dstReady = true ↔ k = K ∧ l = 0 ∧ (m + 1 = D ∨ isEnter = true)) ∧
      (a.dstReady = true → a.dstDead = true) := by
  obtain ⟨hstarted, hpending, hnonneg, hle, heq⟩ := hc
  have hfield : (createHandle (1 + 2 * K) (D + K)).field (c.deadCount + 1) = c.deadCount + 1 :=
    field_createHandle (by omega) (.inr (by omega))
  by_cases hzero : c.pending = 0
  · -- All control inputs and a live input have arrived, and the dead input is not counted.
    have hincrement : c.incrementDeadCount (createHandle (1 + 2 * K) (D + K)) = c :=
      if_neg (by rw [Counts.nodeState_eq_pendingNotReady hstarted]; exact not_not.mpr hzero)
    simp only [activateMerge, Bool.false_eq_true, if_false, hincrement,
      Counts.pendingCount_eq hstarted, Bool.and_eq_true, decide_eq_true_eq]
    have hl : l ≠ 0 := by
      omega
    refine ⟨⟨hstarted, hpending, hnonneg, by omega, fun h => absurd h hl⟩, ?_, ?_⟩
    · omega
    · omega
  · simp only [activateMerge, Bool.false_eq_true, if_false,
      Counts.incrementDeadCount_eq _ hstarted hzero, hfield, hstarted, Counts.pendingCount_eq,
      Bool.and_eq_true, Bool.or_eq_true, decide_eq_true_eq]
    refine ⟨⟨rfl, hpending, by dsimp only; omega, by dsimp only; omega, fun h => ?_⟩, ?_, ?_⟩
    · rw [heq h]
      rfl
    · cases isEnter
      · simp only [Bool.false_eq_true, or_false]
        split at hpending <;> omega
      · simp only [or_true, and_true]
        split at hpending <;> omega
    · exact fun h => h.2

end Numbers

/-- The next delivery makes the node ready. -/
def Fires (g : GraphView V) (v : V) (ds : List (Delivery V α)) (d : Delivery V α) : Prop :=
  (ds ++ [d]).countP isControlEdge = g.numControlEdges v ∧
    (d.isControlEdge = true ∧
        (0 < ds.countP isLive ∨ ds.countP isDeadData = (g.item v).numInputs) ∨
      d.isLive = true ∧ ds.countP isLive = 0 ∨
      d.isDeadData = true ∧ ds.countP isLive = 0 ∧
        (ds.countP isDeadData + 1 = (g.item v).numInputs ∨ d.isDeadEnter g = true))

instance (g : GraphView V) (v : V) (ds : List (Delivery V α)) (d : Delivery V α) :
    Decidable (Fires g v ds d) :=
  inferInstanceAs (Decidable (_ ∧ _))

/-- A delivery to a merge node, given what was delivered before. -/
theorem activation_merge (hv : IsMerge g v) (h : Arrivals g v (ds ++ [d]))
    (hc : Tracks (g.numControlEdges v) (ds.countP isControlEdge) (ds.countP isLive)
      (ds.countP isDeadData) c) :
    Tracks (g.numControlEdges v) ((ds ++ [d]).countP isControlEdge) ((ds ++ [d]).countP isLive)
        ((ds ++ [d]).countP isDeadData) (d.activation g c).counts ∧
      ((d.activation g c).dstReady = true ↔ Fires g v ds d) ∧
      (Fires g v ds d → (d.activation g c).dstDead = decide ((ds ++ [d]).countP isLive = 0)) := by
  obtain ⟨hcontrol, hdata⟩ := h.countP_le hv
  have hdst : d.edge.dst = v := h.dst d (by simp)
  have hmax : g.maxPending v = 1 + 2 * g.numControlEdges v := if_pos hv.nodeClass
  have hmaxDead : g.maxDeadCount v = (g.item v).numInputs + g.numControlEdges v := hv.numInputs.symm
  have heq : d.activation g c = activateMerge (g.item v).numInputs
      (createHandle (1 + 2 * g.numControlEdges v) ((g.item v).numInputs + g.numControlEdges v))
      d.isControlEdge d.entry.isSome (g.item d.src).isEnter c := by
    rw [← hmax, ← hmaxDead, ← hdst]
    exact if_pos (hdst ▸ hv.nodeClass)
  rw [heq, Fires]
  simp only [countP_append, countP_singleton] at hcontrol hdata ⊢
  rcases d.kind with ⟨h₁, h₂, h₃⟩ | ⟨h₁, h₂, h₃⟩ | ⟨h₁, h₂, h₃⟩
  · simp only [h₁, h₂, h₃, Bool.false_eq_true, true_and, false_and, or_false] at *
    obtain ⟨hcounts, hready, hdead⟩ := hc.control hcontrol hdata d.entry.isSome
      (g.item d.src).isEnter
    exact ⟨hcounts, hready, fun hfires => hdead (hready.mpr hfires)⟩
  · have hsome : d.entry.isSome = true := by simpa [isLive, h₁] using h₂
    simp only [h₁, h₂, h₃, hsome, Bool.false_eq_true, true_and, false_and, or_false, false_or] at *
    obtain ⟨hcounts, hready, hdead⟩ := hc.live
      (createHandle (1 + 2 * g.numControlEdges v) ((g.item v).numInputs + g.numControlEdges v))
      (g.item d.src).isEnter
    exact ⟨hcounts, hready, fun _ => hdead⟩
  · have hnone : d.entry.isSome = false := by simpa [isDeadData, h₁] using h₃
    have henter : d.isDeadEnter g = (g.item d.src).isEnter := by rw [isDeadEnter, h₃, Bool.true_and]
    simp only [h₁, h₂, h₃, hnone, henter, Bool.false_eq_true, if_true, if_false, true_and,
      false_and, false_or] at *
    obtain ⟨hcounts, hready, hdead⟩ := hc.dead hcontrol (by omega) (g.item d.src).isEnter
    refine ⟨hcounts, hready, fun hfires => ?_⟩
    rw [hdead (hready.mpr hfires), hfires.2.1]
    rfl

/-! ## All arrivals -/

theorem activate_merge (hv : IsMerge g v) (hdst : d.edge.dst = v) (s : IterationState V α) :
    (d.activate g 0 s).1.counts v = (d.activation g (s.counts v)).counts ∧
      (d.activate g 0 s).2 =
        if (d.activation g (s.counts v)).dstReady = true then
          [⟨v, 0, (d.activation g (s.counts v)).dstDead⟩]
        else [] := by
  subst hdst
  simp only [activate, IterationState.settle, hv.nodeClass, reduceCtorEq, if_false]
  split
  · exact ⟨Function.update_self .., rfl⟩
  · exact ⟨Function.update_self .., rfl⟩

/-- The counts of a merge node after deliveries to it. -/
theorem tracks_activateAll (hv : IsMerge g v) (h : Arrivals g v ds) :
    Tracks (g.numControlEdges v) (ds.countP isControlEdge) (ds.countP isLive)
      (ds.countP isDeadData) ((activateAll g 0 (.new g) ds).1.counts v) := by
  induction ds using reverseRecOn with
  | nil =>
    have hmax : g.maxPending v = 1 + 2 * g.numControlEdges v := if_pos hv.nodeClass
    have hfield := field_createHandle (p := g.maxPending v)
      (d := g.maxDeadCount v) (by omega) (.inl (Int.le_refl _))
    refine ⟨rfl, ?_, Int.le_refl _, Int.le_refl _, fun _ => rfl⟩
    simp only [activateAll, IterationState.new, Counts.setInitialCount, GraphView.pendingId,
      countP_nil, if_true]
    omega
  | append_singleton ds d ih =>
    rw [activateAll_append]
    simp only [activateAll]
    rw [(activate_merge hv (h.dst d (by simp)) _).1]
    exact (activation_merge hv h (ih h.of_append)).1

/-- The next delivery pushes the node if it fires. -/
theorem pushes_concat (hv : IsMerge g v) (h : Arrivals g v (ds ++ [d])) : pushes g v (ds ++ [d]) =
      pushes g v ds ++ if Fires g v ds d then [decide ((ds ++ [d]).countP isLive = 0)] else [] := by
  obtain ⟨-, hready, hdead⟩ := activation_merge hv h (tracks_activateAll hv h.of_append)
  rw [pushes, pushes, activateAll_append]
  simp only [activateAll]
  rw [(activate_merge hv (h.dst d (by simp)) _).2]
  by_cases hfires : Fires g v ds d
  · rw [if_pos hfires, if_pos (hready.mpr hfires), hdead hfires]
    simp
  · rw [if_neg hfires, if_neg fun hr => hfires (hready.mp hr)]
    simp

theorem length_pushes_le (g : GraphView V) (v : V) (ds es : List (Delivery V α)) :
    (pushes g v ds).length ≤ (pushes g v (ds ++ es)).length := by
  rw [pushes, pushes, activateAll_append, filter_append, map_append, length_append]
  exact Nat.le_add_right ..

/-- Harmless deliveries fire when the node becomes due, and a node that is due stays due. -/
theorem fires_iff_of_harmless (hv : IsMerge g v) (h : Arrivals g v (ds ++ [d]))
    (hharmless : Harmless g v (ds ++ [d])) : (Fires g v ds d ↔ Due g v (ds ++ [d]) ∧ ¬Due g v ds) ∧
      (Due g v ds → Due g v (ds ++ [d]) ∧
        (ds.countP isLive = 0 ↔ (ds ++ [d]).countP isLive = 0)) := by
  obtain ⟨hcontrol, hdata⟩ := h.countP_le hv
  have henter := countP_isDeadEnter_le g ds
  have hkind : d.isDeadData = false → d.isDeadEnter g = false := fun hd => by
    rw [isDeadEnter, hd, Bool.false_and]
  simp only [Fires, Due, Harmless, countP_append, countP_singleton] at *
  rcases d.kind with ⟨h₁, h₂, h₃⟩ | ⟨h₁, h₂, h₃⟩ | ⟨h₁, h₂, h₃⟩
  · simp only [h₁, h₂, h₃, hkind h₃, Bool.false_eq_true, if_true, true_and, false_and,
      or_false] at *
    omega
  · simp only [h₁, h₂, Bool.false_eq_true, if_true, if_false, true_and, false_and, false_or] at *
    omega
  · cases hd : d.isDeadEnter g <;>
      simp only [h₁, h₂, h₃, hd, Bool.false_eq_true, if_true, true_and, false_and, false_or,
        or_false, or_true, and_true] at * <;> omega

theorem Harmless.of_append (h : Harmless g v (ds ++ es)) : Harmless g v ds := by
  have henter := countP_isDeadEnter_le g ds
  simp only [Harmless, countP_append] at *
  omega

/-- Harmless deliveries push the node once when it is due. -/
theorem pushes_of_harmless (hv : IsMerge g v) (h : Arrivals g v ds) (hharmless : Harmless g v ds) :
    pushes g v ds = if Due g v ds then [decide (ds.countP isLive = 0)] else [] := by
  induction ds using reverseRecOn with
  | nil =>
    have hpos := hv.pos
    refine (if_neg fun hdue => ?_).symm
    simp only [Due, countP_nil] at hdue
    omega
  | append_singleton ds d ih =>
    obtain ⟨hfires, hstays⟩ := fires_iff_of_harmless hv h hharmless
    rw [pushes_concat hv h, ih h.of_append hharmless.of_append]
    by_cases hd : Due g v ds
    · obtain ⟨hd', hlive⟩ := hstays hd
      rw [if_pos hd, if_pos hd', if_neg fun hf => (hfires.mp hf).2 hd, append_nil,
        decide_eq_decide.mpr hlive]
    · simp [hfires, hd]

theorem due_perm (hp : es.Perm ds) : Due g v es ↔ Due g v ds := by
  simp [Due, hp.countP_eq]

theorem harmless_perm (hp : es.Perm ds) : Harmless g v es ↔ Harmless g v ds := by
  simp [Harmless, hp.countP_eq]

theorem orderIndependent_of_harmless (hv : IsMerge g v) (h : Arrivals g v ds)
    (hharmless : Harmless g v ds) : OrderIndependent g v ds := by
  have hds := pushes_of_harmless hv h hharmless
  have hpushes (es : List (Delivery V α)) (hp : es.Perm ds) : pushes g v es = pushes g v ds := by
    rw [hds, pushes_of_harmless hv (h.perm hp) ((harmless_perm hp).mpr hharmless)]
    simp only [due_perm hp, hp.countP_eq]
  refine ⟨fun es hp => ?_, fun es hp => by rw [hpushes es hp], fun _ => hpushes, fun hd es hp => ?_⟩
  · rw [hpushes es hp, hds]
    split <;> simp
  · rw [hpushes es hp, hds, if_pos hd]
    exact cons_ne_nil _ _

/-! ## Dead inputs from enter nodes -/

omit [DecidableEq V] in
theorem exists_perm_cons {p : Delivery V α → Bool} (h : 0 < ds.countP p) :
    ∃ d es, p d = true ∧ (d :: es).Perm ds := by
  obtain ⟨d, hd, hp⟩ := countP_pos_iff.mp h
  obtain ⟨l₁, l₂, rfl⟩ := append_of_mem hd
  exact ⟨d, l₁ ++ l₂, hp, perm_middle.symm⟩

theorem length_pushes_concat (hv : IsMerge g v) (h : Arrivals g v (ds ++ [d]))
    (hfires : Fires g v ds d) : (pushes g v (ds ++ [d])).length = (pushes g v ds).length + 1 := by
  rw [pushes_concat hv h, if_pos hfires, length_append, length_singleton]

/-- The control inputs among deliveries. -/
def controlInputs (ds : List (Delivery V α)) : List (Delivery V α) := ds.filter isControlEdge

/-- The data inputs among deliveries. -/
def dataInputs (ds : List (Delivery V α)) : List (Delivery V α) :=
  ds.filter fun d => !d.isControlEdge

omit [DecidableEq V] in
theorem perm_controlInputs (ds : List (Delivery V α)) :
    (controlInputs ds ++ dataInputs ds).Perm ds :=
  filter_append_perm isControlEdge ds

omit [DecidableEq V] in
theorem countP_controlInputs (ds : List (Delivery V α)) :
    (controlInputs ds).countP isControlEdge = ds.countP isControlEdge ∧
      (controlInputs ds).countP isLive = 0 := by
  simp only [controlInputs, countP_filter, Bool.and_self, isLive]
  exact ⟨trivial, countP_eq_zero.mpr fun d _ => by cases d.isControlEdge <;> simp⟩

/-- A dead input from an enter node that comes after the control inputs, and another input that
fires after it, push the node twice. -/
theorem two_le_length_pushes (hv : IsMerge g v) {cs mid rest : List (Delivery V α)}
    {x y : Delivery V α} (h : Arrivals g v (cs ++ [x] ++ mid ++ [y] ++ rest))
    (hx : Fires g v cs x) (hy : Fires g v (cs ++ [x] ++ mid) y) :
    2 ≤ (pushes g v (cs ++ [x] ++ mid ++ [y] ++ rest)).length := by
  have h₃ := h.of_append
  have h₁ := h₃.of_append.of_append
  calc 2 ≤ (pushes g v cs).length + 1 + 1 := Nat.le_add_left ..
    _ = (pushes g v (cs ++ [x])).length + 1 := by rw [length_pushes_concat hv h₁ hx]
    _ ≤ (pushes g v (cs ++ [x] ++ mid)).length + 1 :=
      Nat.add_le_add_right (length_pushes_le g v _ mid) 1
    _ = (pushes g v (cs ++ [x] ++ mid ++ [y])).length := (length_pushes_concat hv h₃ hy).symm
    _ ≤ _ := length_pushes_le g v _ rest

theorem pushes_eq_nil (hv : IsMerge g v) (h : Arrivals g v ds)
    (hnot : ∀ pre d post, ds = pre ++ d :: post → ¬Fires g v pre d) : pushes g v ds = [] := by
  induction ds using reverseRecOn with
  | nil => rfl
  | append_singleton ds d ih =>
    rw [pushes_concat hv h, if_neg (hnot ds d [] rfl), append_nil]
    refine ih h.of_append fun pre d' post heq => hnot pre d' (post ++ [d]) ?_
    rw [heq, append_assoc, cons_append]

/-- Dead inputs that are not all there do not push the node if the control inputs come last. -/
theorem pushes_controls_last (hv : IsMerge g v) (hpos : 0 < g.numControlEdges v)
    {data cs : List (Delivery V α)} (h : Arrivals g v (data ++ cs))
    (hdata : data.countP isControlEdge = 0) (hcs : ∀ d ∈ cs, d.isControlEdge = true)
    (hlive : (data ++ cs).countP isLive = 0)
    (hdead : (data ++ cs).countP isDeadData < (g.item v).numInputs) :
    pushes g v (data ++ cs) = [] := by
  refine pushes_eq_nil hv h fun pre d post heq hfires => ?_
  rw [heq] at hlive hdead
  obtain ⟨hcontrol, hfires⟩ := hfires
  simp only [countP_append, countP_cons] at hlive hdead
  rcases d.kind with ⟨h₁, h₂, h₃⟩ | ⟨h₁, h₂, h₃⟩ | ⟨h₁, h₂, h₃⟩
  · simp only [h₂, h₃, Bool.false_eq_true, false_and, or_false] at hfires
    omega
  · simp only [h₂, if_true] at hlive
    omega
  · -- A data input comes before all control inputs.
    rcases append_eq_append_iff.mp heq with ⟨mid, rfl, hmid⟩ | ⟨mid, rfl, hmid⟩
    · have hd : d ∈ cs := hmid ▸ mem_append_right _ mem_cons_self
      rw [hcs d hd] at h₁
      cases h₁
    · cases mid with
      | nil =>
        have hd : d ∈ cs := by
          rw [← nil_append cs, ← hmid]
          exact mem_cons_self
        rw [hcs d hd] at h₁
        cases h₁
      | cons x mid =>
        obtain ⟨rfl, -⟩ := cons.inj hmid
        simp only [countP_append, countP_cons, countP_nil] at hdata hcontrol
        omega

/-- A data input fires after the control inputs if there was no live input before. -/
theorem fires_data {x : Delivery V α} (hcontrol : ds.countP isControlEdge = g.numControlEdges v)
    (hlive : ds.countP isLive = 0) (hx : x.isLive = true ∨ x.isDeadData = true ∧
      (ds.countP isDeadData + 1 = (g.item v).numInputs ∨ x.isDeadEnter g = true)) :
    Fires g v ds x := by
  refine ⟨?_, .inr (hx.imp (fun h => ⟨h, hlive⟩) fun h => ⟨h.1, hlive, h.2⟩)⟩
  have hdata : x.isControlEdge = false := not_isControlEdge (hx.imp_right And.left)
  rw [countP_append, countP_singleton, hdata, hcontrol]
  rfl

section Harmful

variable {x y : Delivery V α} (hfull : ds.countP isControlEdge = g.numControlEdges v)
  (hx : x.isDeadEnter g = true) (hp : (x :: y :: es).Perm ds)
include hfull hx hp

/-- The numbers of inputs without a dead input from an enter node and another data input. -/
theorem countP_rest (hy : y.isControlEdge = false) :
    (controlInputs es).countP isControlEdge = g.numControlEdges v ∧
      (controlInputs es ++ [x]).countP isControlEdge = g.numControlEdges v ∧
      (controlInputs es ++ [x]).countP isLive = 0 := by
  have hxdead := isDeadData_of_isDeadEnter hx
  have hxdata := not_isControlEdge (.inr hxdead)
  have hxlive := not_isLive hxdead
  obtain ⟨hcs, hcsLive⟩ := countP_controlInputs es
  have hcount := hp.countP_eq isControlEdge
  simp only [countP_cons, hxdata, hy, Bool.false_eq_true, if_false] at hcount
  simp only [countP_append, countP_singleton, hxdata, hxlive, Bool.false_eq_true, if_false]
  omega

variable (hv : IsMerge g v) (h : Arrivals g v ds)
include hv h

/-- A live input or another dead input from an enter node comes second. -/
theorem not_once_of_second (hy : y.isLive = true ∨ y.isDeadEnter g = true) :
    ∃ order, order.Perm ds ∧ 2 ≤ (pushes g v order).length := by
  have hydata := not_isControlEdge (hy.imp_right isDeadData_of_isDeadEnter)
  obtain ⟨hcs, hcsx, hlive⟩ := countP_rest hfull hx hp hydata
  have horder : (controlInputs es ++ [x] ++ [] ++ [y] ++ dataInputs es).Perm ds := by
    refine List.Perm.trans ?_ hp
    simp only [append_assoc]
    exact perm_middle.trans ((perm_middle.trans ((perm_controlInputs es).cons y)).cons x)
  refine ⟨_, horder, two_le_length_pushes hv (h.perm horder) ?_ ?_⟩
  · exact fires_data hcs (countP_controlInputs es).2
      (.inr ⟨isDeadData_of_isDeadEnter hx, .inr hx⟩)
  · rw [append_nil]
    exact fires_data hcsx hlive (hy.imp_right fun hd => ⟨isDeadData_of_isDeadEnter hd, .inr hd⟩)

/-- All inputs are dead, and the one from an enter node does not come last. -/
theorem not_once_of_dead (hy : y.isDeadData = true) (hlive : ds.countP isLive = 0)
    (hdead : ds.countP isDeadData = (g.item v).numInputs) :
    ∃ order, order.Perm ds ∧ 2 ≤ (pushes g v order).length := by
  have hydata := not_isControlEdge (.inr hy)
  obtain ⟨hcs, hcsx, hlive'⟩ := countP_rest hfull hx hp hydata
  have horder : (controlInputs es ++ [x] ++ dataInputs es ++ [y] ++ []).Perm ds := by
    refine List.Perm.trans ?_ hp
    simp only [append_assoc, singleton_append]
    refine perm_middle.trans (List.Perm.cons x ?_)
    exact (perm_append_comm.append_left _).trans
      (perm_middle.trans ((perm_controlInputs es).cons y))
  have hcountP (p : Delivery V α → Bool) := horder.countP_eq p
  simp only [append_nil, countP_append, countP_singleton] at hcountP hlive' hcsx
  have hcontrol := hcountP isControlEdge
  have hlives := hcountP isLive
  have hdeads := hcountP isDeadData
  rw [hy, if_pos rfl] at hdeads
  refine ⟨_, horder, two_le_length_pushes hv (h.perm horder) ?_ ?_⟩
  · exact fires_data hcs (countP_controlInputs es).2
      (.inr ⟨isDeadData_of_isDeadEnter hx, .inr hx⟩)
  · refine fires_data ?_ ?_ (.inr ⟨hy, .inl ?_⟩) <;> simp only [countP_append, countP_singleton] <;>
      omega

end Harmful

/-- Unless deliveries are harmless, a node that is due is not pushed once in every order. -/
theorem harmless_of_orderIndependent (hv : IsMerge g v) (h : Arrivals g v ds)
    (hind : OrderIndependent g v ds) : Harmless g v ds := by
  by_contra hharmful
  simp only [Harmless] at hharmful
  obtain ⟨hcontrol, hdata⟩ := h.countP_le hv
  have hfull : ds.countP isControlEdge = g.numControlEdges v ∧ 0 < ds.countP (isDeadEnter g) := by
    omega
  obtain ⟨x, es, hx, hes⟩ := exists_perm_cons hfull.2
  have htwo : ¬∃ order, order.Perm ds ∧ 2 ≤ (pushes g v order).length := by
    rintro ⟨order, hp, hle⟩
    have honce := hind.once order hp
    omega
  have hxdead := isDeadData_of_isDeadEnter hx
  have henters := hes.countP_eq (isDeadEnter g)
  have hlives := hes.countP_eq isLive
  have hdeads := hes.countP_eq isDeadData
  simp only [countP_cons, hx, hxdead, not_isLive hxdead, Bool.false_eq_true, if_true,
    if_false] at henters hlives hdeads
  by_cases htwoEnters : 0 < es.countP (isDeadEnter g)
  · obtain ⟨y, rest, hy, hrest⟩ := exists_perm_cons htwoEnters
    exact htwo (not_once_of_second hfull.1 hx ((hrest.cons x).trans hes) hv h (.inr hy))
  by_cases hlive : 0 < es.countP isLive
  · obtain ⟨y, rest, hy, hrest⟩ := exists_perm_cons hlive
    exact htwo (not_once_of_second hfull.1 hx ((hrest.cons x).trans hes) hv h (.inl hy))
  by_cases hall : ds.countP isDeadData = (g.item v).numInputs
  · have hmore : 0 < es.countP isDeadData := by omega
    obtain ⟨y, rest, hy, hrest⟩ := exists_perm_cons hmore
    exact htwo (not_once_of_dead hfull.1 hx ((hrest.cons x).trans hes) hv h hy (by omega) hall)
  · have hcontrols : 0 < g.numControlEdges v := by omega
    have horder : (dataInputs ds ++ controlInputs ds).Perm ds :=
      perm_append_comm.trans (perm_controlInputs ds)
    refine hind.due ⟨hfull.1, .inr (.inl hfull.2)⟩ _ horder ?_
    refine pushes_controls_last hv hcontrols (h.perm horder) ?_ ?_ ?_ ?_
    · rw [dataInputs, countP_filter]
      exact countP_eq_zero.mpr fun d _ => by cases d.isControlEdge <;> simp
    · exact fun d hd => (mem_filter.mp hd).2
    · rw [horder.countP_eq]
      omega
    · rw [horder.countP_eq]
      omega

/-- The activation of a merge node does not depend on the order of the arrivals exactly if they
are harmless. -/
theorem orderIndependent_iff_harmless (hv : IsMerge g v) (h : Arrivals g v ds) :
    OrderIndependent g v ds ↔ Harmless g v ds :=
  ⟨harmless_of_orderIndependent hv h, orderIndependent_of_harmless hv h⟩

/-! ## The header of a loop -/

/-- The nodes around the header of a loop. -/
inductive HeaderNode where
  | enter
  | nextIteration
  | control
  | merge
  deriving DecidableEq

/-- A merge node of an enter node and a next-iteration node, with a control input. -/
def loopHeader : GraphView HeaderNode where
  nodes := [.enter, .nextIteration, .control, .merge]
  nodup := by decide
  complete v := by cases v <;> decide
  item
    | .enter => ⟨.enter false, 1, 1, 0, false, false, [⟨.merge, some 0, 0⟩]⟩
    | .nextIteration => ⟨.nextIteration, 1, 1, 1, false, false, [⟨.merge, some 0, 1⟩]⟩
    | .control => ⟨.other, 0, 0, 2, false, false, [⟨.merge, none, 0⟩]⟩
    | .merge => ⟨.merge, 2, 2, 2, false, false, []⟩

/-- An entry arrives from the enter node. -/
def fromEnter (entry : Option Unit) : Delivery HeaderNode Unit :=
  ⟨.enter, entry.isNone, ⟨.merge, some 0, 0⟩, entry⟩

/-- The control input arrives. -/
def fromControl : Delivery HeaderNode Unit := ⟨.control, false, ⟨.merge, none, 0⟩, none⟩

theorem arrivals_loopHeader (entry : Option Unit) :
    Arrivals loopHeader .merge [fromEnter entry, fromControl] where
  dst := by simp [fromEnter, fromControl]
  distinct := by
    have hedges : ([(.enter, ⟨.merge, some 0, 0⟩), (.control, ⟨.merge, none, 0⟩)] :
        List (HeaderNode × EdgeInfo HeaderNode)).Sublist (loopHeader.inEdges .merge) := by decide
    exact hedges.subperm

/-- The order of the loop's entry and the control input does not matter. -/
theorem orderIndependent_loopHeader :
    Harmless loopHeader .merge [fromEnter (some ()), fromControl] ∧
      OrderIndependent loopHeader .merge [fromEnter (some ()), fromControl] := by
  have hharmless : Harmless loopHeader .merge [fromEnter (some ()), fromControl] := .inl (by decide)
  exact ⟨hharmless, (orderIndependent_iff_harmless ⟨rfl, by decide, by decide⟩
    (arrivals_loopHeader _)).mpr hharmless⟩

/-- A dead input from the enter node is forgotten if the control input comes after it. -/
theorem deadEnter_forgotten : Arrivals loopHeader .merge [fromEnter none, fromControl] ∧
      Due loopHeader .merge [fromEnter none, fromControl] ∧
      pushes loopHeader .merge [fromControl, fromEnter none] = [true] ∧
      pushes loopHeader .merge [fromEnter none, fromControl] = [] ∧
      ¬OrderIndependent loopHeader .merge [fromEnter none, fromControl] := by
  have hnone : pushes loopHeader .merge [fromEnter none, fromControl] = [] := by decide
  have hdue : Due loopHeader .merge [fromEnter none, fromControl] :=
    ⟨by decide, .inr (.inl (by decide))⟩
  exact ⟨arrivals_loopHeader none, hdue, by decide, hnone, fun h => h.due hdue _ (.refl _) hnone⟩

end Tension.Executor
