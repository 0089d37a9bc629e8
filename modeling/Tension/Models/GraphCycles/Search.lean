import Tension.Core.Worklist
import Tension.Models.GraphCycles.Graph

/-!
# The depth-first searches

A search changes markers only. It visits the nodes that can be reached along the steps
it pursues, or stops at the first node with a rank to stop at.
-/

namespace Tension.GraphCycles

open UnorderedSet Relation List

variable {S : Type*}

namespace Rep

/-! ## Assignments -/

section

variable (r : Rep S) (i : Nat) (f : Node S → Node S) (g : S → S)

/-- Assignments to fields add no nodes. -/
@[simp] theorem length_modify : (r.modify i f).nodes.length = r.nodes.length :=
  List.length_modify f r.nodes i

/-- Assignments to fields free no nodes. -/
@[simp] theorem freeNodes_modify : (r.modify i f).freeNodes = r.freeNodes := rfl

/-- Changing predecessors adds no nodes. -/
@[simp] theorem length_updateIns : (r.updateIns i g).nodes.length = r.nodes.length :=
  length_modify r i _

/-- Changing successors adds no nodes. -/
@[simp] theorem length_updateOuts : (r.updateOuts i g).nodes.length = r.nodes.length :=
  length_modify r i _

end

variable [UnorderedSet S Nat] {r : Rep S} {i : Nat}

/-- The other nodes. -/
theorem node_modify_of_ne {j : Nat} (hij : i ≠ j) (f : Node S → Node S) :
    (r.modify i f).node j = r.node j := by
  simp [node, modify, hij]

/-- The node that is assigned to, and the others. -/
theorem node_modify (hi : i < r.nodes.length) (j : Nat) (f : Node S → Node S) :
    (r.modify i f).node j = if j = i then f (r.node j) else r.node j := by
  split
  · next hij => simp [node, modify, hij, hi]
  · next hij => exact node_modify_of_ne (Ne.symm hij) f

/-- The assigned node. -/
theorem node_modify_self (hi : i < r.nodes.length)
    (f : Node S → Node S) : (r.modify i f).node i = f (r.node i) := by
  rw [node_modify hi, if_pos rfl]

/-- A field that the assignment leaves alone. -/
theorem node_modify_frame {β : Type*} (g : Node S → β) {f : Node S → Node S}
    (hf : ∀ n, g (f n) = g n) (r : Rep S) (i j : Nat) :
    g ((r.modify i f).node j) = g (r.node j) := by
  by_cases hij : i = j
  · subst hij
    by_cases hi : i < r.nodes.length
    · rw [node_modify_self hi, hf]
    · simp [node, hi]
  · rw [node_modify_of_ne hij]

section

variable (r : Rep S) (i j : Nat) (f : S → S)

/-- Changing predecessors keeps the ranks. -/
@[simp] theorem rank_updateIns : ((r.updateIns i f).node j).rank = (r.node j).rank :=
  node_modify_frame Node.rank (fun _ => by rfl) r i j

/-- Changing successors keeps the ranks. -/
@[simp] theorem rank_updateOuts : ((r.updateOuts i f).node j).rank = (r.node j).rank :=
  node_modify_frame Node.rank (fun _ => by rfl) r i j

/-- Changing predecessors keeps the marks. -/
@[simp] theorem visited_updateIns : ((r.updateIns i f).node j).visited = (r.node j).visited :=
  node_modify_frame Node.visited (fun _ => by rfl) r i j

/-- Changing successors keeps the marks. -/
@[simp] theorem visited_updateOuts : ((r.updateOuts i f).node j).visited = (r.node j).visited :=
  node_modify_frame Node.visited (fun _ => by rfl) r i j

/-- Changing predecessors keeps the successors. -/
@[simp] theorem outs_updateIns : ((r.updateIns i f).node j).outs = (r.node j).outs :=
  node_modify_frame Node.outs (fun _ => by rfl) r i j

/-- Changing successors keeps the predecessors. -/
@[simp] theorem ins_updateOuts : ((r.updateOuts i f).node j).ins = (r.node j).ins :=
  node_modify_frame Node.ins (fun _ => by rfl) r i j

end

/-- The predecessors of one node change. -/
theorem ins_updateIns (hi : i < r.nodes.length) (j : Nat) (f : S → S) :
    ((r.updateIns i f).node j).ins = if j = i then f (r.node j).ins else (r.node j).ins := by
  rw [updateIns, node_modify hi]
  split <;> rfl

/-- The successors of one node change. -/
theorem outs_updateOuts (hi : i < r.nodes.length) (j : Nat) (f : S → S) :
    ((r.updateOuts i f).node j).outs = if j = i then f (r.node j).outs else (r.node j).outs := by
  rw [updateOuts, node_modify hi]
  split <;> rfl

/-- Nodes that do not exist have no neighbors. -/
theorem node_of_length_le (hi : r.nodes.length ≤ i) : r.node i = .create 0 := by
  simp [node, hi]

/-- A graph is determined by its nodes and its free list. -/
theorem ext_node {r' : Rep S} (hlen : r'.nodes.length = r.nodes.length)
    (hfree : r'.freeNodes = r.freeNodes) (hnode : ∀ i < r.nodes.length, r'.node i = r.node i) :
    r' = r := by
  obtain ⟨nodes', free'⟩ := r'
  congr 1
  refine ext_getElem hlen fun i hi' hi => ?_
  have he := hnode i hi
  simpa [node, hi, hi'] using he

/-! ## Markers -/

/-- The graphs agree except for markers. -/
structure SameButVisited (r r' : Rep S) : Prop where
  length : r'.nodes.length = r.nodes.length
  free : r'.freeNodes = r.freeNodes
  node : ∀ i, r'.node i = { r.node i with visited := (r'.node i).visited }

/-- No mark has changed. -/
theorem SameButVisited.refl (r : Rep S) : SameButVisited r r := ⟨rfl, rfl, fun _ => rfl⟩

/-- Changes of marks compose. -/
theorem SameButVisited.trans {r₁ r₂ r₃ : Rep S} (h : SameButVisited r₁ r₂)
    (h' : SameButVisited r₂ r₃) : SameButVisited r₁ r₃ where
  length := h'.length.trans h.length
  free := h'.free.trans h.free
  node i := by
    rw [h'.node i, h.node i]

/-- A mark is set or cleared. -/
theorem sameButVisited_setVisited (r : Rep S) (i : Nat) (v : Bool) :
    SameButVisited r (r.setVisited i v) where
  length := length_modify r i _
  free := rfl
  node j := by
    by_cases hij : i = j
    · subst hij
      by_cases hi : i < r.nodes.length
      · rw [setVisited, node_modify_self hi]
      · rw [node_of_length_le (le_of_not_gt hi),
          node_of_length_le (by rw [setVisited, length_modify]; omega)]
    · rw [setVisited, node_modify_of_ne hij]

namespace SameButVisited

variable {r r' : Rep S}

variable (h : SameButVisited r r')
include h

/-- The ranks do not depend on marks. -/
theorem rank (i : Nat) : (r'.node i).rank = (r.node i).rank := by
  rw [h.node i]

/-- The predecessors do not depend on marks. -/
theorem ins (i : Nat) : (r'.node i).ins = (r.node i).ins := by
  rw [h.node i]

/-- The successors do not depend on marks. -/
theorem outs (i : Nat) : (r'.node i).outs = (r.node i).outs := by
  rw [h.node i]

/-- The neighbors do not depend on marks. -/
theorem neighbors (i : Nat) (d : Direction) :
    neighbors (r'.node i) d = Rep.neighbors (r.node i) d := by
  cases d
  · exact h.outs i
  · exact h.ins i

end SameButVisited

variable {r r' : Rep S} {delta : List Nat} {stop pursue : Nat → Bool} {stack : List Nat}

/-- One mark is set or cleared. -/
theorem visited_setVisited {i j : Nat} {v : Bool} (hi : i < r.nodes.length) :
    ((r.setVisited i v).node j).visited = if j = i then v else (r.node j).visited := by
  rw [setVisited, node_modify hi]
  split <;> rfl

/-- `ClearVisitedBits` changes marks only. -/
theorem sameButVisited_clearVisitedBits (r : Rep S) (nodes : List Nat) :
    SameButVisited r (r.clearVisitedBits nodes) := by
  induction nodes generalizing r with
  | nil => exact .refl r
  | cons n nodes ih => exact (sameButVisited_setVisited r n false).trans (ih _)

/-- The listed nodes lose their marks. -/
theorem visited_clearVisitedBits {nodes : List Nat}
    (hnodes : ∀ n ∈ nodes, n < r.nodes.length) (i : Nat) :
    ((r.clearVisitedBits nodes).node i).visited = (!decide (i ∈ nodes) && (r.node i).visited) := by
  induction nodes generalizing r with
  | nil => simp [clearVisitedBits]
  | cons n nodes ih =>
    have hn : n < r.nodes.length := hnodes n mem_cons_self
    have hrest : ∀ m ∈ nodes, m < (r.setVisited n false).nodes.length := by
      intro m hm
      rw [setVisited, length_modify]
      exact hnodes m (mem_cons_of_mem n hm)
    have hrec := ih hrest
    rw [visited_setVisited hn] at hrec
    rw [clearVisitedBits, foldl_cons, ← clearVisitedBits, hrec]
    by_cases hin : i = n <;> simp [hin]

/-- The second graph is the first with the listed nodes marked. -/
structure Marked (r r' : Rep S) (delta : List Nat) : Prop extends SameButVisited r r' where
  in_range : ∀ n ∈ delta, n < r.nodes.length
  unmarked : ∀ n ∈ delta, (r.node n).visited = false
  nodup : delta.Nodup
  visited : ∀ i, (r'.node i).visited = (decide (i ∈ delta) || (r.node i).visited)

/-- A search starts without marks of its own. -/
theorem Marked.nil (r : Rep S) : Marked r r [] where
  toSameButVisited := .refl r
  in_range := by simp
  unmarked := by simp
  nodup := nodup_nil
  visited := by simp

/-- Marking one more node. -/
theorem Marked.snoc (h : Marked r r' delta) {n : Nat}
    (hn : n < r.nodes.length) (hv : (r'.node n).visited = false) :
    Marked r (r'.setVisited n true) (delta ++ [n]) := by
  have hnot : n ∉ delta ∧ (r.node n).visited = false := by
    rw [h.visited n, Bool.or_eq_false_iff] at hv
    exact ⟨of_decide_eq_false hv.1, hv.2⟩
  have hn' : n < r'.nodes.length := by rwa [h.length]
  refine ⟨h.toSameButVisited.trans (sameButVisited_setVisited r' n true),
    forall_mem_append.mpr ⟨h.in_range, forall_mem_singleton.mpr hn⟩,
    forall_mem_append.mpr ⟨h.unmarked, forall_mem_singleton.mpr hnot.2⟩,
    concat_eq_append ▸ h.nodup.concat hnot.1, fun i => ?_⟩
  rw [visited_setVisited hn', h.visited i]
  by_cases hi : i = n <;> simp [hi]

/-- Clearing the marks restores the graph. -/
theorem Marked.clearVisitedBits_eq (h : Marked r r' delta) : r'.clearVisitedBits delta = r := by
  have hrange : ∀ n ∈ delta, n < r'.nodes.length := h.length ▸ h.in_range
  have hsame := h.toSameButVisited.trans (sameButVisited_clearVisitedBits r' delta)
  refine ext_node hsame.length hsame.free fun i _ => ?_
  rw [hsame.node i, visited_clearVisitedBits hrange, h.visited i]
  by_cases hi : i ∈ delta
  · simp [hi, ← h.unmarked i hi]
  · simp [hi]

/-! ## The search loop -/

/-- A step of the search: to a neighbor whose rank is to be pursued. -/
def Step (r : Rep S) (d : Direction) (pursue : Nat → Bool) (n w : Nat) : Prop :=
  w ∈ toList (neighbors (r.node n) d) ∧ pursue (r.node w).rank = true

/-- The expansion of a node ends at a neighbor with the rank to stop at. -/
theorem expand_eq_none {ws : List Nat}
    (h : r.expand stop pursue ws stack = none) : ∃ w ∈ ws, stop (r.node w).rank = true := by
  induction ws generalizing stack with
  | nil => cases h
  | cons w ws ih =>
    simp only [expand] at h
    split at h
    · next hw => exact ⟨w, mem_cons_self, hw⟩
    · obtain ⟨w', hmem, hw'⟩ := ih h
      exact ⟨w', mem_cons_of_mem w hmem, hw'⟩

/-- An expansion pushes the unmarked neighbors that are to be pursued. -/
theorem expand_eq_some {ws stack' : List Nat} (h : r.expand stop pursue ws stack = some stack') :
    (∀ w ∈ ws, stop (r.node w).rank = false) ∧ ∀ v, v ∈ stack' ↔
      v ∈ stack ∨ v ∈ ws ∧ (r.node v).visited = false ∧ pursue (r.node v).rank = true := by
  induction ws generalizing stack with
  | nil =>
    cases h
    simp
  | cons w ws ih =>
    simp only [expand] at h
    split at h
    · cases h
    · next hw =>
      obtain ⟨hstop, hmem⟩ := ih h
      refine ⟨forall_mem_cons.mpr ⟨Bool.eq_false_iff.mpr hw, hstop⟩, fun v => ?_⟩
      rw [hmem v]
      split <;> next hpush =>
        rw [Bool.and_eq_true, Bool.not_eq_true'] at hpush
        by_cases hv : v = w
        · subst hv
          simp [hpush]
        · simp [hv]

/-- The state of a search that started at `start` in graph `r`. -/
structure Progress (r : Rep S) (d : Direction) (stop pursue : Nat → Bool) (start : Nat)
    (r' : Rep S) (stack delta : List Nat) : Prop where
  marked : Marked r r' delta
  searching : Worklist.Searching (r.Step d pursue) (fun n => (r.node n).visited = true) start
    delta stack
  stack_range : ∀ n ∈ stack, n < r.nodes.length
  passed : ∀ n ∈ delta, ∀ w ∈ toList (neighbors (r.node n) d), stop (r.node w).rank = false

/-- What a search returns. -/
structure Found (r : Rep S) (d : Direction) (stop pursue : Nat → Bool) (start : Nat)
    (result : Bool × Rep S × List Nat) : Prop where
  marked : Marked r result.2.1 result.2.2
  /-- A search that came to its end has visited everything in reach and passed no rank to
  stop at. -/
  finished : result.1 = true →
    Worklist.Searching (r.Step d pursue) (fun n => (r.node n).visited = true) start
      result.2.2 [] ∧
    ∀ n ∈ result.2.2, ∀ w ∈ toList (neighbors (r.node n) d), stop (r.node w).rank = false
  /-- A search that stopped has reached a node next to a rank to stop at. -/
  stopped : result.1 = false → ∃ n w, ReflTransGen (r.Step d pursue) start n ∧
    w ∈ toList (neighbors (r.node n) d) ∧ stop (r.node w).rank = true

/-- The search loop keeps its state. -/
theorem Progress.search {d : Direction} {start : Nat}
    (hrange : ∀ n w, w ∈ toList (neighbors (r.node n) d) → w < r.nodes.length)
    (h : Progress r d stop pursue start r' stack delta) :
    Found r d stop pursue start (Rep.search d stop pursue r' stack delta) := by
  fun_induction Rep.search d stop pursue r' stack delta with
  | case1 r' delta => exact ⟨h.marked, fun _ => ⟨h.searching, h.passed⟩, nofun⟩
  | case2 r' delta n stack hn ih =>
    have hseen : (r.node n).visited = true ∨ n ∈ delta := by
      rw [h.marked.visited n, Bool.or_eq_true, decide_eq_true_eq] at hn
      exact hn.symm
    exact ih ⟨h.marked, h.searching.skip hseen,
      fun m hm => h.stack_range m (mem_cons_of_mem n hm), h.passed⟩
  | case3 r' delta n stack hn hexp =>
    have hlt : n < r.nodes.length := h.stack_range n mem_cons_self
    have hmarked := h.marked.snoc hlt (Bool.eq_false_iff.mpr hn)
    obtain ⟨w, hw, hstop⟩ := expand_eq_none hexp
    rw [h.marked.neighbors] at hw
    rw [hmarked.rank] at hstop
    exact ⟨hmarked, nofun, fun _ => ⟨n, w, h.searching.reached n (.inr mem_cons_self), hw, hstop⟩⟩
  | case4 r' delta n stack hn stack' hexp ih =>
    have hlt : n < r.nodes.length := h.stack_range n mem_cons_self
    have hmarked := h.marked.snoc hlt (Bool.eq_false_iff.mpr hn)
    obtain ⟨hpass, hmem⟩ := expand_eq_some hexp
    simp only [h.marked.neighbors, hmarked.rank] at hpass hmem
    refine ih ⟨hmarked, h.searching.visit ?_ ?_ ?_, ?_, ?_⟩
    · intro w hw
      exact ((hmem w).mp hw).imp_right fun hw => ⟨hw.1, hw.2.2⟩
    · exact fun w hw => (hmem w).mpr (.inl hw)
    · rintro w ⟨hw, hpursue⟩
      by_cases hv : ((r'.setVisited n true).node w).visited = false
      · exact .inr (.inr (.inr ((hmem w).mpr (.inr ⟨hw, hv, hpursue⟩))))
      · rw [hmarked.visited w, Bool.not_eq_false, Bool.or_eq_true, decide_eq_true_eq,
          mem_append, mem_singleton] at hv
        rcases hv with (hv | hv) | hv
        · exact .inr (.inl hv)
        · exact .inr (.inr (.inl hv))
        · exact .inl hv
    · intro w hw
      rcases (hmem w).mp hw with hw | ⟨hw, -⟩
      · exact h.stack_range w (mem_cons_of_mem n hw)
      · exact hrange n w hw
    · exact forall_mem_append.mpr ⟨h.passed, forall_mem_singleton.mpr hpass⟩

/-- A search from one node. -/
theorem search_found {d : Direction} (stop pursue : Nat → Bool) {start : Nat}
    (hrange : ∀ n w, w ∈ toList (neighbors (r.node n) d) → w < r.nodes.length)
    (hstart : start < r.nodes.length) :
    Found r d stop pursue start (Rep.search d stop pursue r [start] []) :=
  Progress.search hrange ⟨Marked.nil r, .initial _ _ start,
    fun n hn => by rwa [mem_singleton.mp hn], nofun⟩

end Rep

end Tension.GraphCycles
