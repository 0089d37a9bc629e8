import Tension.Core.Run
import Tension.Models.GraphCycles.Insert

/-!
# Runs of calls

Every call on live nodes keeps the graph consistent, so that ranks are a topological
order after any sequence of calls.
-/

namespace Tension.GraphCycles

open UnorderedSet Relation List

variable {S : Type*} [UnorderedSet S Nat]

namespace Rep

variable {r r' : Rep S}

theorem consistent_initial : (initial : Rep S).Consistent where
  rank_lt := nofun
  rank_inj := nofun
  ordered a b hab := by cases Edge.lt_length hab
  inverse a b := by simp [initial, node, Edge, Node.create]
  live a b hab := by cases Edge.lt_length hab
  unmarked _ := rfl
  free_lt := nofun
  free_nodup := nodup_nil

/-! ## Nodes -/

theorem node_append_of_lt {i : Nat} (hi : i < r.nodes.length) (n : Node S) :
    Rep.node { r with nodes := r.nodes ++ [n] } i = r.node i := by
  simp [node, getElem?_append_left hi]

theorem node_append_self (n : Node S) :
    Rep.node { r with nodes := r.nodes ++ [n] } r.nodes.length = n := by
  simp [node]

/-- A new node has no edges and the next rank. -/
theorem Consistent.append (hc : r.Consistent) :
    Consistent { r with nodes := r.nodes ++ [.create r.nodes.length] } := by
  set r' : Rep S := { r with nodes := r.nodes ++ [.create r.nodes.length] } with hr'
  have hlen : r'.nodes.length = r.nodes.length + 1 := by simp [hr']
  have hlast : r'.node r.nodes.length = .create r.nodes.length := node_append_self _
  have hold : ∀ i < r.nodes.length, r'.node i = r.node i := fun i hi => node_append_of_lt hi _
  -- Only its rank tells the new node from one that does not exist.
  have hsame : ∀ i, (r'.node i).outs = (r.node i).outs ∧ (r'.node i).ins = (r.node i).ins ∧
      (r'.node i).visited = (r.node i).visited := by
    intro i
    rcases lt_trichotomy i r.nodes.length with hi | rfl | hi
    · rw [hold i hi]
      exact ⟨rfl, rfl, rfl⟩
    · rw [hlast, node_of_length_le le_rfl]
      exact ⟨rfl, rfl, rfl⟩
    · rw [node_of_length_le (by omega), node_of_length_le hi.le]
      exact ⟨rfl, rfl, rfl⟩
  have hedge : ∀ a b, r'.Edge a b ↔ r.Edge a b := by
    intro a b
    rw [Edge, (hsame a).1, Edge]
  constructor
  · intro i hi
    rw [hlen] at hi ⊢
    rcases Nat.lt_succ_iff_lt_or_eq.mp hi with hi | rfl
    · rw [hold i hi]
      exact Nat.lt_succ_of_lt (hc.rank_lt i hi)
    · rw [hlast]
      exact Nat.lt_succ_self _
  · intro i hi j hj he
    rw [hlen] at hi hj
    rcases Nat.lt_succ_iff_lt_or_eq.mp hi with hi | rfl <;>
      rcases Nat.lt_succ_iff_lt_or_eq.mp hj with hj | rfl
    · rw [hold i hi, hold j hj] at he
      exact hc.rank_inj i hi j hj he
    · rw [hold i hi, hlast] at he
      exact absurd (hc.rank_lt i hi) (by rw [he]; exact lt_irrefl _)
    · rw [hold j hj, hlast] at he
      exact absurd (hc.rank_lt j hj) (by rw [← he]; exact lt_irrefl _)
    · rfl
  · intro a b hab
    have hab' := (hedge a b).mp hab
    obtain ⟨ha, hb⟩ := hc.live a b hab'
    rw [hold a ha.1, hold b hb.1]
    exact hc.ordered a b hab'
  · intro a b
    rw [hedge, ← hc.inverse, (hsame b).2.1]
  · intro a b hab
    obtain ⟨ha, hb⟩ := hc.live a b ((hedge a b).mp hab)
    have hle : r.nodes.length ≤ r'.nodes.length := by omega
    exact ⟨⟨ha.1.trans_le hle, ha.2⟩, ⟨hb.1.trans_le hle, hb.2⟩⟩
  · intro i
    rw [(hsame i).2.2, hc.unmarked]
  · intro i hi
    rw [hlen]
    exact Nat.lt_succ_of_lt (hc.free_lt i hi)
  · exact hc.free_nodup

/-- Data and the free list do not matter to edges and ranks. -/
theorem Consistent.setData (hc : r.Consistent) (node : Nat) (data : Option Nat) :
    (r.setNodeData node data).Consistent := by
  have hrank := node_modify_frame Node.rank
    (f := fun n : Node S => { n with data := data }) (fun _ => rfl) r node
  have hins := node_modify_frame Node.ins
    (f := fun n : Node S => { n with data := data }) (fun _ => rfl) r node
  have houts := node_modify_frame Node.outs
    (f := fun n : Node S => { n with data := data }) (fun _ => rfl) r node
  have hvisited := node_modify_frame Node.visited
    (f := fun n : Node S => { n with data := data }) (fun _ => rfl) r node
  refine hc.fewer (length_modify r node _) rfl hrank
    (fun a b => Iff.trans ?_ (and_iff_left trivial).symm)
    (fun a b => Iff.trans ?_ (and_iff_left trivial).symm) fun i => ?_
  · rw [Edge, Edge, setNodeData, houts]
  · rw [setNodeData, hins]
  · rw [setNodeData, hvisited, hc.unmarked]

/-- `NewNode` keeps the graph consistent. -/
theorem Consistent.newNode (hc : r.Consistent) : r.newNode.2.Consistent := by
  unfold Rep.newNode
  split
  · exact hc.append
  · next n rest hfree =>
    have hd := hc.setData n none
    have hnodup := hc.free_nodup
    rw [hfree, nodup_cons] at hnodup
    refine { hd with live := ?_, free_lt := ?_, free_nodup := hnodup.2 }
    · intro a b hab
      obtain ⟨ha, hb⟩ := hd.live a b hab
      have hsub : ∀ i, i ∉ (r.setNodeData n none).freeNodes → i ∉ rest := by
        intro i hi hmem
        exact hi (by rw [setNodeData, freeNodes_modify, hfree]; exact mem_cons_of_mem n hmem)
      exact ⟨⟨ha.1, hsub a ha.2⟩, ⟨hb.1, hsub b hb.2⟩⟩
    · intro i hi
      refine hd.free_lt i ?_
      rw [setNodeData, freeNodes_modify, hfree]
      exact mem_cons_of_mem n hi

/-! ## Erasing edges -/

/-- The loop that erases an element from one of the sets of several nodes. -/
theorem mem_foldl_modify_erase {g : Node S → S} {f : Node S → Node S} {x : Nat}
    (hf : ∀ n, g (f n) = erase x (g n)) (hg : g (.create 0) = empty) (r : Rep S) (ys : List Nat)
    (j z : Nat) : z ∈ toList (g ((ys.foldl (fun r y => r.modify y f) r).node j)) ↔
      z ∈ toList (g (r.node j)) ∧ ¬ (j ∈ ys ∧ z = x) := by
  induction ys generalizing r with
  | nil => simp
  | cons y ys ih =>
    rw [foldl_cons, ih, mem_modify_erase hf hg, mem_cons]
    tauto

/-- Fields that the assignments leave alone. -/
theorem node_foldl_modify_frame {β : Type*} (g : Node S → β) {f : Node S → Node S}
    (hf : ∀ n, g (f n) = g n) (r : Rep S) (ys : List Nat) (j : Nat) :
    g ((ys.foldl (fun r y => r.modify y f) r).node j) = g (r.node j) := by
  induction ys generalizing r with
  | nil => rfl
  | cons y ys ih => exact (ih _).trans (node_modify_frame g hf r y j)

omit [UnorderedSet S Nat] in
theorem foldl_modify (f : Node S → Node S) (r : Rep S) (ys : List Nat) :
    (ys.foldl (fun r y => r.modify y f) r).nodes.length = r.nodes.length ∧
      (ys.foldl (fun r y => r.modify y f) r).freeNodes = r.freeNodes := by
  induction ys generalizing r with
  | nil => exact ⟨rfl, rfl⟩
  | cons y ys ih => exact ⟨(ih _).1.trans (length_modify r y f), (ih _).2⟩

theorem Erased.trans {r'' : Rep S} {outs ins outs' ins' : Nat → Nat → Prop}
    (h : Erased r r' outs ins) (h' : Erased r' r'' outs' ins') :
    Erased r r'' (fun a b => outs a b ∧ outs' a b) fun a b => ins a b ∧ ins' a b where
  length := h'.length.trans h.length
  free := h'.free.trans h.free
  rank i := (h'.rank i).trans (h.rank i)
  visited i := (h'.visited i).trans (h.visited i)
  outs a b := by rw [h'.outs, h.outs, and_assoc]
  ins a b := by rw [h'.ins, h.ins, and_assoc]

/-- Erasing edges keeps the graph consistent. -/
theorem Consistent.erased (hc : r.Consistent) {keep : Nat → Nat → Prop}
    (h : Erased r r' keep keep) : r'.Consistent :=
  hc.fewer h.length h.free h.rank h.outs h.ins fun i => (h.visited i).trans (hc.unmarked i)

/-! ## Removing nodes -/

/-- The loops that erase a node from the sets of its neighbors. -/
theorem erased_unlink (r : Rep S) (node : Nat) (outs ins : S) :
    Erased r (r.unlink node outs ins) (fun a b => ¬ (a ∈ toList ins ∧ b = node))
      fun a b => ¬ (b ∈ toList outs ∧ a = node) where
  length := (foldl_modify _ _ _).1.trans (foldl_modify _ _ _).1
  free := (foldl_modify _ _ _).2.trans (foldl_modify _ _ _).2
  rank i := (node_foldl_modify_frame Node.rank (fun _ => by rfl) _ _ i).trans
    (node_foldl_modify_frame Node.rank (fun _ => by rfl) r _ i)
  visited i := (node_foldl_modify_frame Node.visited (fun _ => by rfl) _ _ i).trans
    (node_foldl_modify_frame Node.visited (fun _ => by rfl) r _ i)
  outs a b := by
    have houts : (((toList outs).foldl (fun r y => r.updateIns y (erase node)) r).node a).outs =
        (r.node a).outs := node_foldl_modify_frame Node.outs (fun _ => by rfl) r _ a
    rw [← houts]
    exact mem_foldl_modify_erase (fun _ => rfl) rfl _ (toList ins) a b
  ins a b := by
    have hins : ((r.unlink node outs ins).node b).ins =
        (((toList outs).foldl (fun r y => r.updateIns y (erase node)) r).node b).ins :=
      node_foldl_modify_frame Node.ins (fun _ => by rfl) _ (toList ins) b
    rw [hins]
    exact mem_foldl_modify_erase (fun _ => rfl) rfl r (toList outs) b a

/-- `clear` on both sets of a node. -/
theorem erased_clearNode {x : Nat} (hx : x < r.nodes.length) :
    Erased r (r.clearNode x) (fun a _ => a ≠ x) fun _ b => b ≠ x where
  length := by simp [clearNode]
  free := rfl
  rank i := by simp [clearNode]
  visited i := by simp [clearNode]
  outs a b := by
    rw [clearNode, outs_updateOuts (by rwa [length_updateIns])]
    split <;> next he => simp [he]
  ins a b := by
    rw [clearNode, ins_updateOuts, ins_updateIns hx]
    split <;> next he => simp [he]

section

variable (hc : r.Consistent)
include hc

/-- The edges of a node are erased, from its neighbors and from itself. -/
theorem Consistent.erased_node {x : Nat} {outs ins : Nat → Nat → Prop} (h : Erased r r' outs ins)
    (houts : ∀ a b, outs a b ↔ a ≠ x ∧ ¬ (a ∈ toList (r.node x).ins ∧ b = x))
    (hins : ∀ a b, ins a b ↔ b ≠ x ∧ ¬ (b ∈ toList (r.node x).outs ∧ a = x)) :
    Erased r r' (fun a b => a ≠ x ∧ b ≠ x) fun a b => a ≠ x ∧ b ≠ x where
  __ := h
  outs a b := by
    have hinv : b = x → b ∈ toList (r.node a).outs → a ∈ toList (r.node x).ins := by
      rintro rfl hab
      exact (hc.inverse a b).mpr hab
    rw [h.outs, houts]
    tauto
  ins a b := by
    have hinv : a = x → a ∈ toList (r.node b).ins → b ∈ toList (r.node x).outs := by
      rintro rfl hab
      exact (hc.inverse a b).mp hab
    rw [h.ins, hins]
    tauto

/-- The edges of a node are erased, first from its neighbors. -/
theorem Consistent.erased_unlink_clearNode {x : Nat} (hx : r.Live x) :
    Erased r ((r.unlink x (r.node x).outs (r.node x).ins).clearNode x)
      (fun a b => a ≠ x ∧ b ≠ x) fun a b => a ≠ x ∧ b ≠ x := by
  have hunlink := erased_unlink r x (r.node x).outs (r.node x).ins
  exact hc.erased_node (hunlink.trans (erased_clearNode (hunlink.length ▸ hx.1)))
    (fun _ _ => and_comm) fun _ _ => and_comm

/-- A node without edges can be freed. -/
theorem Consistent.free {x : Nat} (hx : r.Live x) (hno : ∀ a b, r.Edge a b → a ≠ x ∧ b ≠ x) :
    Consistent { r with freeNodes := x :: r.freeNodes } := by
  refine { hc with live := ?_, free_lt := ?_, free_nodup := nodup_cons.mpr ⟨hx.2, hc.free_nodup⟩ }
  · intro a b hab
    obtain ⟨ha, hb⟩ := hc.live a b hab
    obtain ⟨hax, hbx⟩ := hno a b hab
    exact ⟨⟨ha.1, not_mem_cons_of_ne_of_not_mem hax ha.2⟩,
      ⟨hb.1, not_mem_cons_of_ne_of_not_mem hbx hb.2⟩⟩
  · intro i hi
    rcases mem_cons.mp hi with rfl | hi
    · exact hx.1
    · exact hc.free_lt i hi

/-- A node whose edges have been erased can be freed. -/
theorem Consistent.erased_free {x : Nat} (hx : r.Live x)
    (h : Erased r r' (fun a b => a ≠ x ∧ b ≠ x) fun a b => a ≠ x ∧ b ≠ x) :
    Consistent { r' with freeNodes := x :: r'.freeNodes } :=
  (hc.erased h).free ((live_congr h.length h.free x).mpr hx) fun a b hab => ((h.outs a b).mp hab).2

/-- `RemoveNode` keeps the graph consistent. -/
theorem Consistent.removeNode {x : Nat} (hx : r.Live x) : (r.removeNode x).Consistent :=
  hc.erased_free hx (hc.erased_unlink_clearNode hx)

end

/-! ## Searching and contracting -/

section

variable (hc : r.Consistent)
include hc

/-- `IsReachableNonConst` takes all its marks away again. -/
theorem Consistent.isReachableNonConst_snd {x y : Nat} (hx : r.Live x) :
    (r.isReachableNonConst x y).2 = r := by
  unfold Rep.isReachableNonConst
  split
  · rfl
  · split
    · rfl
    · have hrange : ∀ n w, w ∈ toList (neighbors (r.node n) .forward) → w < r.nodes.length :=
        fun n w hw => (hc.live n w hw).2.1
      exact (search_found _ _ hrange hx.1).marked.clearVisitedBits_eq

/-- A sequence of insertions between live nodes. -/
theorem Consistent.foldl_insertEdge (ends : Nat → Nat × Nat) (ys : List Nat)
    (hlive : ∀ y ∈ ys, r.Live (ends y).1 ∧ r.Live (ends y).2) {r' : Rep S}
    (hr' : ys.foldl (fun r y => (r.insertEdge (ends y).1 (ends y).2).2) r = r') :
    r'.Consistent ∧ ∀ n, r'.Live n ↔ r.Live n := by
  induction ys generalizing r with
  | nil =>
    subst hr'
    exact ⟨hc, fun _ => Iff.rfl⟩
  | cons y ys ih =>
    obtain ⟨hx, hy⟩ := hlive y mem_cons_self
    have hins := hc.insertEdge hx hy
    have hsame := live_congr hins.length hins.free
    obtain ⟨hc', hlive'⟩ := ih hins.consistent (fun z hz => by
        rw [hsame, hsame]
        exact hlive z (mem_cons_of_mem y hz)) hr'
    exact ⟨hc', fun n => (hlive' n).trans (hsame n)⟩

/-- `ContractEdge` keeps the graph consistent. -/
theorem Consistent.contractEdge {a b : Nat} (ha : r.Live a) (hb : r.Live b) {p : Bool × Rep S}
    (hp : r.contractEdge a b = some p) : p.2.Consistent := by
  have he := erased_removeEdge r a b
  have hc₁ := hc.erased he
  have hlive₁ := live_congr he.length he.free
  have ha₁ := (hlive₁ a).mpr ha
  have hb₁ := (hlive₁ b).mpr hb
  unfold Rep.contractEdge at hp
  split at hp
  · next hedge =>
    have hne : a ≠ b := by
      rintro rfl
      exact lt_irrefl _ (hc.ordered a a (hasEdge_iff.mp hedge))
    simp only [hc₁.isReachableNonConst_snd ha₁] at hp
    generalize r.removeEdge a b = r₁ at hp hc₁ ha₁ hb₁
    split at hp
    · cases hp
      exact (hc₁.insertEdge ha₁ hb₁).consistent
    · cases hp
      have hfree : Erased r₁ _ (fun x y => x ≠ b ∧ y ≠ b) fun x y => x ≠ b ∧ y ≠ b :=
        hc₁.erased_node ((erased_clearNode hb₁.1).trans (erased_unlink _ b _ _))
          (fun _ _ => Iff.rfl) fun _ _ => Iff.rfl
      have hc₂ := hc₁.erased_free hb₁ hfree
      have hlive₂ : ∀ n, r₁.Live n → n ≠ b → Rep.Live { (r₁.clearNode b).unlink b
          (r₁.node b).outs (r₁.node b).ins with
          freeNodes := b :: ((r₁.clearNode b).unlink b (r₁.node b).outs
            (r₁.node b).ins).freeNodes } n := by
        intro n hn hnb
        refine ⟨hfree.length ▸ hn.1, not_mem_cons_of_ne_of_not_mem hnb ?_⟩
        rw [hfree.free]
        exact hn.2
      have ha₂ := hlive₂ a ha₁ hne
      obtain ⟨hc₃, hlive₃⟩ := hc₂.foldl_insertEdge (fun y => (a, y)) (toList (r₁.node b).outs)
        (fun y hy => ⟨ha₂, hlive₂ y (hc₁.live b y hy).2 (by
          rintro rfl
          exact lt_irrefl _ (hc₁.ordered y y hy))⟩) rfl
      exact (hc₃.foldl_insertEdge (fun y => (y, a)) (toList (r₁.node b).ins) (fun y hy => by
          have hyb := (hc₁.inverse y b).mp hy
          rw [hlive₃, hlive₃]
          exact ⟨hlive₂ y (hc₁.live y b hyb).1 (by
            rintro rfl
            exact lt_irrefl _ (hc₁.ordered y y hyb)), ha₂⟩) rfl).1
  · cases hp

/-- Every call on live nodes keeps the graph consistent. -/
theorem Consistent.call {c : Call} (hlive : r.OnLiveNodes c) (h : r.call c = some r') :
    r'.Consistent := by
  cases c with
  | newNode =>
    cases h
    exact hc.newNode
  | removeNode node =>
    cases h
    exact hc.removeNode hlive
  | setNodeData node data =>
    cases h
    exact hc.setData node data
  | insertEdge x y =>
    cases h
    exact (hc.insertEdge hlive.1 hlive.2).consistent
  | removeEdge x y =>
    cases h
    exact hc.erased (erased_removeEdge r x y)
  | contractEdge a b =>
    obtain ⟨p, hp, rfl⟩ := Option.map_eq_some_iff.mp h
    exact hc.contractEdge hlive.1 hlive.2 hp
  | isReachableNonConst x y =>
    cases h
    rw [hc.isReachableNonConst_snd hlive.1]
    exact hc

end

/-! ## Every run -/

/-- The graph that a client can rely on. -/
structure WellOrdered (r : Rep S) : Prop where
  /-- The ranks are a permutation of the numbers below the number of nodes. -/
  ranks : (r.nodes.map Node.rank).Perm (List.range r.nodes.length)
  /-- Every edge leads to a higher rank. -/
  ordered : ∀ a b, r.Edge a b → (r.node a).rank < (r.node b).rank
  acyclic : ∀ a, ¬ TransGen r.Edge a a
  /-- Both edge sets describe one relation. -/
  inverse : ∀ a b, a ∈ toList (r.node b).ins ↔ b ∈ toList (r.node a).outs
  /-- Freed nodes have no edges. -/
  freed : ∀ n ∈ r.freeNodes, toList (r.node n).ins = [] ∧ toList (r.node n).outs = []
  unmarked : ∀ n, (r.node n).visited = false

/-- Distinct ranks below the number of nodes are a permutation. -/
theorem Consistent.perm_ranks (hc : r.Consistent) :
    (r.nodes.map Node.rank).Perm (List.range r.nodes.length) := by
  have hget : ∀ i (hi : i < r.nodes.length), r.nodes[i] = r.node i := by
    intro i hi
    simp [node, hi]
  have hnodup : (r.nodes.map Node.rank).Nodup := by
    refine nodup_iff_injective_getElem.mpr ?_
    rintro ⟨i, hi⟩ ⟨j, hj⟩ he
    rw [length_map] at hi hj
    simp only [getElem_map, hget] at he
    exact Fin.ext (hc.rank_inj i hi j hj he)
  have hsub : r.nodes.map Node.rank ⊆ range r.nodes.length := by
    intro k hk
    obtain ⟨n, hn, rfl⟩ := mem_map.mp hk
    obtain ⟨i, hi, rfl⟩ := mem_iff_getElem.mp hn
    rw [mem_range, hget i hi]
    exact hc.rank_lt i hi
  refine (subperm_of_subset hnodup hsub).perm_of_length_le ?_
  rw [length_map, length_range]

/-- Consistent graphs are well ordered. -/
theorem Consistent.wellOrdered (hc : r.Consistent) : r.WellOrdered where
  __ := hc
  ranks := hc.perm_ranks
  acyclic := TopologicalOrder.not_transGen_self hc.ordered
  freed n hn := by
    constructor
    · refine eq_nil_iff_forall_not_mem.mpr fun a ha => ?_
      exact (hc.live a n ((hc.inverse a n).mp ha)).2.2 hn
    · exact eq_nil_iff_forall_not_mem.mpr fun b hb => (hc.live n b hb).1.2 hn

/-- After every sequence of calls on live nodes the graph is well ordered, and an insertion
is rejected, without a change to edges and ranks, exactly if it would close a cycle. -/
theorem wellOrdered_of_run (calls : List Call) (r : Rep S)
    (hlive : Run.Admissible call OnLiveNodes (initial : Rep S) calls)
    (hrun : Run.run call initial calls = some r) : r.WellOrdered ∧ ∀ x y, r.Live x → r.Live y →
      ((r.insertEdge x y).1 = false ↔ x = y ∨ r.Reaches y x) ∧
      ((r.insertEdge x y).1 = false →
        (∀ a b, (r.insertEdge x y).2.Edge a b ↔ r.Edge a b) ∧
        ∀ n, ((r.insertEdge x y).2.node n).rank = (r.node n).rank) ∧
      ((r.insertEdge x y).1 = true →
        ∀ a b, (r.insertEdge x y).2.Edge a b ↔ r.Edge a b ∨ a = x ∧ b = y) := by
  have hc : r.Consistent :=
    Run.run_invariant (fun _ _ _ hc ha h => hc.call ha h) consistent_initial hlive hrun
  refine ⟨hc.wellOrdered, fun x y hx hy => ?_⟩
  have h := hc.insertEdge hx hy
  exact ⟨h.rejects, h.rejected, h.accepted⟩

omit [UnorderedSet S Nat] in
instance (r : Rep S) (n : Nat) : Decidable (r.Live n) :=
  inferInstanceAs (Decidable (n < r.nodes.length ∧ n ∉ r.freeNodes))

omit [UnorderedSet S Nat] in
instance (r : Rep S) : ∀ c, Decidable (r.OnLiveNodes c)
  | .newNode => isTrue trivial
  | .removeNode n | .setNodeData n _ => inferInstanceAs (Decidable (r.Live n))
  | .insertEdge x y | .removeEdge x y | .contractEdge x y | .isReachableNonConst x y =>
    inferInstanceAs (Decidable (r.Live x ∧ r.Live y))

/-- A chain of three nodes loses its first node, whose number is used again. -/
def recycledNode : List Call :=
  [.newNode, .newNode, .newNode, .insertEdge 0 1, .insertEdge 1 2, .removeNode 0, .newNode]

/-- A removed node is used again, and an edge against the order is still refused. -/
theorem wellOrdered_recycledNode :
    ∃ r : Rep { l : List Nat // l.Nodup }, Run.run call initial recycledNode = some r ∧
      r.WellOrdered ∧ r.Edge 1 2 ∧ (r.insertEdge 2 1).1 = false := by
  have hlive : Run.Admissible call OnLiveNodes
      (initial : Rep { l : List Nat // l.Nodup }) recycledNode := by
    decide +kernel
  obtain ⟨r, hrun, hlive₁, hlive₂, hedge⟩ : ∃ r : Rep { l : List Nat // l.Nodup },
      Run.run call initial recycledNode = some r ∧ r.Live 1 ∧ r.Live 2 ∧ r.hasEdge 1 2 = true :=
    ⟨_, rfl, by decide +kernel⟩
  obtain ⟨hordered, hinsert⟩ := wellOrdered_of_run recycledNode r hlive hrun
  have hreach : r.Reaches 1 2 := .single (hasEdge_iff.mp hedge)
  exact ⟨r, hrun, hordered, hasEdge_iff.mp hedge, (hinsert 2 1 hlive₂ hlive₁).1.mpr (.inr hreach)⟩

end Rep

end Tension.GraphCycles
