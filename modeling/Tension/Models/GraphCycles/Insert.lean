import Tension.Models.GraphCycles.Reorder

/-!
# Inserting an edge

The graph is consistent when ranks are distinct and below the number of nodes, edges lead
to higher ranks and join live nodes, both edge sets agree and nothing is marked. An
insertion is rejected exactly if it would close a cycle; then the graph is as before.
-/

namespace Tension.GraphCycles

open UnorderedSet Relation

variable {S : Type*} [UnorderedSet S Nat]

namespace Rep

/-- There is an edge from `a` to `b`. -/
def Edge (r : Rep S) (a b : Nat) : Prop := b ∈ toList (r.node a).outs

/-- There is a path from `a` to `b`. -/
def Reaches (r : Rep S) (a b : Nat) : Prop := ReflTransGen r.Edge a b

theorem hasEdge_iff {r : Rep S} {a b : Nat} : r.hasEdge a b = true ↔ r.Edge a b :=
  decide_eq_true_iff

/-- The invariant of the graph. -/
structure Consistent (r : Rep S) : Prop where
  rank_lt : ∀ i < r.nodes.length, (r.node i).rank < r.nodes.length
  rank_inj : ∀ i < r.nodes.length, ∀ j < r.nodes.length,
    (r.node i).rank = (r.node j).rank → i = j
  ordered : ∀ a b, r.Edge a b → (r.node a).rank < (r.node b).rank
  inverse : ∀ a b, a ∈ toList (r.node b).ins ↔ r.Edge a b
  live : ∀ a b, r.Edge a b → r.Live a ∧ r.Live b
  unmarked : ∀ i, (r.node i).visited = false
  free_lt : ∀ i ∈ r.freeNodes, i < r.nodes.length
  free_nodup : r.freeNodes.Nodup

omit [UnorderedSet S Nat] in
/-- The same nodes are live. -/
theorem live_congr {r r' : Rep S} (hlen : r'.nodes.length = r.nodes.length)
    (hfree : r'.freeNodes = r.freeNodes) (n : Nat) : r'.Live n ↔ r.Live n := by
  rw [Live, Live, hlen, hfree]

/-- Edges start at nodes that exist. -/
theorem Edge.lt_length {r : Rep S} {a b : Nat} (h : r.Edge a b) : a < r.nodes.length := by
  by_contra hlt
  rw [Edge, node_of_length_le (le_of_not_gt hlt), Node.create, toList_empty] at h
  cases h

/-! ## Linking two nodes -/

/-- The graph differs from another one by the edge from `x` to `y` only. -/
structure Linked (r r' : Rep S) (x y : Nat) : Prop where
  length : r'.nodes.length = r.nodes.length
  free : r'.freeNodes = r.freeNodes
  rank : ∀ i, (r'.node i).rank = (r.node i).rank
  outs : ∀ a b, b ∈ toList (r'.node a).outs ↔ r.Edge a b ∨ a = x ∧ b = y
  ins : ∀ a b, a ∈ toList (r'.node b).ins ↔ a ∈ toList (r.node b).ins ∨ a = x ∧ b = y

theorem linked_updateOuts_updateIns {r : Rep S} {x y : Nat} (hx : x < r.nodes.length)
    (hy : y < r.nodes.length) :
    Linked r ((r.updateOuts x (insert y)).updateIns y (insert x)) x y where
  length := by simp
  free := rfl
  rank i := by simp
  outs a b := by
    rw [outs_updateIns, outs_updateOuts hx]
    split
    · rw [mem_insert]
      tauto
    · tauto
  ins a b := by
    rw [ins_updateIns (by rwa [length_updateOuts]), ins_updateOuts]
    split
    · rw [mem_insert]
      tauto
    · tauto

section Window

variable {r r' : Rep S} {x y : Nat}

/-- Markers do not matter. -/
theorem Linked.sameButVisited (h : Linked r r' x y) {r'' : Rep S} (h' : SameButVisited r' r'') :
    Linked r r'' x y where
  length := h'.length.trans h.length
  free := h'.free.trans h.free
  rank i := (h'.rank i).trans (h.rank i)
  outs a b := by rw [h'.outs, h.outs]
  ins a b := by rw [h'.ins, h.ins]

section

variable (h : Linked r r' x y) (hc : r.Consistent)
include h hc

/-- The searches stay among the nodes. -/
theorem Linked.neighbors_lt (hx : r.Live x) (hy : r.Live y) (d : Direction) (n w : Nat)
    (hw : w ∈ toList (neighbors (r'.node n) d)) : w < r'.nodes.length := by
  rw [h.length]
  cases d with
  | forward =>
    rcases (h.outs n w).mp hw with hw | ⟨-, rfl⟩
    · exact (hc.live n w hw).2.1
    · exact hy.1
  | backward =>
    rcases (h.ins w n).mp hw with hw | ⟨rfl, -⟩
    · exact (hc.live w n ((hc.inverse w n).mp hw)).1.1
    · exact hx.1

/-- The forward search reaches the descendants of `y` below `x`. -/
theorem Linked.reaches_forward (hyx : (r.node y).rank < (r.node x).rank) (n : Nat) :
    ReflTransGen (r'.Step .forward (· < (r.node x).rank)) y n ↔
      r.Reaches y n ∧ (r.node n).rank < (r.node x).rank := by
  refine TopologicalOrder.reaches_within
    (fun n w hn => ?_) (fun n w hnw hw => (hc.ordered n w hnw).trans hw) hyx
  have hne : n ≠ x := by
    rintro rfl
    exact lt_irrefl _ hn
  rw [Step, neighbors, h.outs, h.rank, decide_eq_true_eq]
  tauto

/-- The backward search reaches the ancestors of `x` above `y`. -/
theorem Linked.reaches_backward (hyx : (r.node y).rank < (r.node x).rank) (n : Nat) :
    ReflTransGen (r'.Step .backward ((r.node y).rank < ·)) x n ↔
      r.Reaches n x ∧ (r.node y).rank < (r.node n).rank := by
  rw [Reaches, ← reflTransGen_swap (r := r.Edge)]
  refine TopologicalOrder.reaches_within (P := fun n => (r.node y).rank < (r.node n).rank)
    (fun n w hn => ?_) (fun n w hwn hw => hw.trans (hc.ordered w n hwn)) hyx
  have hne : n ≠ y := by
    rintro rfl
    exact lt_irrefl _ hn
  rw [Step, neighbors, h.ins, h.rank, decide_eq_true_eq, hc.inverse]
  tauto

variable (hx : r.Live x) (hy : r.Live y) (hyx : (r.node y).rank < (r.node x).rank)
include hx hy hyx

/-- The forward search finds the path from `y` to `x` or all descendants of `y` below `x`. -/
theorem Linked.forwardDFS (hun : ∀ i, (r'.node i).visited = false) {f : Bool × Rep S × List Nat}
    (hf : r'.forwardDFS y (r.node x).rank = f) :
    Marked r' f.2.1 f.2.2 ∧ (f.1 = false ↔ r.Reaches y x) ∧
      (f.1 = true → ∀ n, n ∈ f.2.2 ↔ r.Reaches y n ∧ (r.node n).rank < (r.node x).rank) := by
  have hylt : y < r'.nodes.length := by
    rw [h.length]
    exact hy.1
  have hfound := search_found (· == (r.node x).rank) (· < (r.node x).rank)
    (h.neighbors_lt hc hx hy .forward) hylt
  rw [← Rep.forwardDFS, hf] at hfound
  have hmem : f.1 = true → ∀ n, n ∈ f.2.2 ↔ r.Reaches y n ∧ (r.node n).rank < (r.node x).rank := by
    intro hok n
    rw [(hfound.finished hok).1.mem_done_iff (fun m _ => by rw [hun m]; exact Bool.false_ne_true),
      h.reaches_forward hc hyx]
  refine ⟨hfound.marked, ⟨?_, ?_⟩, hmem⟩
  · intro hno
    obtain ⟨n, w, hreach, hw, hstop⟩ := hfound.stopped hno
    obtain ⟨hyn, hlt⟩ := (h.reaches_forward hc hyx n).mp hreach
    rw [h.rank, beq_iff_eq] at hstop
    rcases (h.outs n w).mp hw with hw | ⟨rfl, -⟩
    · have hwx : w = x := hc.rank_inj w (hc.live n w hw).2.1 x hx.1 hstop
      exact hwx ▸ hyn.tail hw
    · exact absurd hlt (lt_irrefl _)
  · intro hreach
    by_contra hok
    rw [Bool.not_eq_false] at hok
    rcases ReflTransGen.cases_tail hreach with rfl | ⟨n, hyn, hnx⟩
    · exact lt_irrefl _ hyx
    · have hn : n ∈ f.2.2 := (hmem hok n).mpr ⟨hyn, hc.ordered n x hnx⟩
      have hpass := (hfound.finished hok).2 n hn x ((h.outs n x).mpr (.inl hnx))
      rw [h.rank] at hpass
      simp at hpass

/-- The backward search finds all ancestors of `x` above `y`. -/
theorem Linked.backwardDFS (hun : ∀ i, r.Reaches i x → (r'.node i).visited = false)
    {b : Rep S × List Nat} (hb : r'.backwardDFS x (r.node y).rank = b) : Marked r' b.1 b.2 ∧
      ∀ n, n ∈ b.2 ↔ r.Reaches n x ∧ (r.node y).rank < (r.node n).rank := by
  have hxlt : x < r'.nodes.length := by
    rw [h.length]
    exact hx.1
  have hfound := search_found (fun _ => false) ((r.node y).rank < ·)
    (h.neighbors_lt hc hx hy .backward) hxlt
  have hok : (Rep.search .backward (fun _ => false) (fun k => decide ((r.node y).rank < k)) r'
      [x] []).1 = true := by
    by_contra hno
    obtain ⟨_, _, _, _, hstop⟩ := hfound.stopped (Bool.eq_false_iff.mpr hno)
    cases hstop
  rw [Rep.backwardDFS] at hb
  subst hb
  refine ⟨hfound.marked, fun n => ?_⟩
  rw [(hfound.finished hok).1.mem_done_iff, h.reaches_backward hc hyx]
  intro m hm
  rw [hun m ((h.reaches_backward hc hyx m).mp hm).1]
  exact Bool.false_ne_true

end

/-- A graph on the same live nodes with suitable ranks and edges is consistent. -/
theorem Consistent.keep (hc : r.Consistent) (hlen : r'.nodes.length = r.nodes.length)
    (hfree : r'.freeNodes = r.freeNodes)
    (hlt : ∀ i < r.nodes.length, (r'.node i).rank < r.nodes.length)
    (hinj : ∀ i < r.nodes.length, ∀ j < r.nodes.length,
      (r'.node i).rank = (r'.node j).rank → i = j)
    (hedge : ∀ a b, r'.Edge a b →
      (r'.node a).rank < (r'.node b).rank ∧ r.Live a ∧ r.Live b)
    (hinv : ∀ a b, a ∈ toList (r'.node b).ins ↔ r'.Edge a b)
    (hun : ∀ i, (r'.node i).visited = false) : r'.Consistent where
  rank_lt := by rwa [hlen]
  rank_inj := by rwa [hlen]
  ordered a b hab := (hedge a b hab).1
  inverse := hinv
  live a b hab := by
    rw [live_congr hlen hfree, live_congr hlen hfree]
    exact (hedge a b hab).2
  unmarked := hun
  free_lt := by
    rw [hlen, hfree]
    exact hc.free_lt
  free_nodup := by
    rw [hfree]
    exact hc.free_nodup

/-- A graph with the linked edges and suitable ranks is consistent. -/
theorem Consistent.relink (hc : r.Consistent) {r₁ : Rep S} (hl : Linked r r₁ x y)
    (hx : r.Live x) (hy : r.Live y) (h : Reordered r₁ r')
    (hlt : ∀ i < r.nodes.length, (r'.node i).rank < r.nodes.length)
    (hinj : ∀ i < r.nodes.length, ∀ j < r.nodes.length,
      (r'.node i).rank = (r'.node j).rank → i = j)
    (hord : ∀ a b, r.Edge a b ∨ a = x ∧ b = y → (r'.node a).rank < (r'.node b).rank)
    (hun : ∀ i, (r'.node i).visited = false) : r'.Consistent := by
  have hedge : ∀ a b, r'.Edge a b ↔ r.Edge a b ∨ a = x ∧ b = y := by
    intro a b
    rw [Edge, h.outs, hl.outs]
  refine hc.keep (h.length.trans hl.length) (h.free.trans hl.free) hlt hinj (fun a b hab => ?_)
    (fun a b => by rw [hedge, h.ins, hl.ins, hc.inverse]) hun
  refine ⟨hord a b ((hedge a b).mp hab), ?_⟩
  rcases (hedge a b).mp hab with hab | ⟨rfl, rfl⟩
  · exact hc.live a b hab
  · exact ⟨hx, hy⟩

end Window

/-! ## Erasing edges -/

/-- Erasing an element from one of the sets of a node. -/
theorem mem_modify_erase {g : Node S → S} {f : Node S → Node S} {x : Nat}
    (hf : ∀ n, g (f n) = erase x (g n)) (hg : g (.create 0) = empty) (r : Rep S) (i j y : Nat) :
    y ∈ toList (g ((r.modify i f).node j)) ↔ y ∈ toList (g (r.node j)) ∧ ¬ (j = i ∧ y = x) := by
  by_cases hi : i < r.nodes.length
  · rw [node_modify hi]
    split
    · rw [hf, mem_erase]
      tauto
    · tauto
  · by_cases hj : j = i
    · subst hj
      rw [node_of_length_le (by rw [length_modify]; omega), node_of_length_le (le_of_not_gt hi), hg]
      simp
    · rw [node_modify_of_ne (Ne.symm hj)]
      tauto

/-- The second graph has fewer successors and predecessors and is otherwise the same. -/
structure Erased (r r' : Rep S) (keepOuts keepIns : Nat → Nat → Prop) : Prop where
  length : r'.nodes.length = r.nodes.length
  free : r'.freeNodes = r.freeNodes
  rank : ∀ i, (r'.node i).rank = (r.node i).rank
  visited : ∀ i, (r'.node i).visited = (r.node i).visited
  outs : ∀ a b, b ∈ toList (r'.node a).outs ↔ b ∈ toList (r.node a).outs ∧ keepOuts a b
  ins : ∀ a b, a ∈ toList (r'.node b).ins ↔ a ∈ toList (r.node b).ins ∧ keepIns a b

/-- `RemoveEdge` erases one edge. -/
theorem erased_removeEdge (r : Rep S) (x y : Nat) :
    Erased r (r.removeEdge x y) (fun a b => ¬ (a = x ∧ b = y)) fun a b => ¬ (a = x ∧ b = y) where
  length := by simp [removeEdge]
  free := rfl
  rank i := by simp [removeEdge]
  visited i := by simp [removeEdge]
  outs a b := by
    rw [removeEdge, outs_updateIns]
    exact mem_modify_erase (fun _ => rfl) rfl r x a b
  ins a b := by
    rw [removeEdge, updateIns, mem_modify_erase (fun _ => rfl) rfl, ins_updateOuts]
    tauto

/-! ## The insertion -/

/-- What an insertion does to the graph. -/
structure Inserted (r : Rep S) (x y : Nat) (ok : Bool) (r' : Rep S) : Prop where
  consistent : r'.Consistent
  length : r'.nodes.length = r.nodes.length
  free : r'.freeNodes = r.freeNodes
  /-- An edge that closes a cycle is rejected. -/
  rejects : ok = false ↔ x = y ∨ r.Reaches y x
  /-- A rejected edge changes nothing. -/
  rejected : ok = false →
    (∀ a b, r'.Edge a b ↔ r.Edge a b) ∧ ∀ i, (r'.node i).rank = (r.node i).rank
  /-- An accepted edge is added. -/
  accepted : ok = true → ∀ a b, r'.Edge a b ↔ r.Edge a b ∨ a = x ∧ b = y

section Insertion

variable {r : Rep S} {x y : Nat}

variable (hc : r.Consistent)
include hc

/-- Ranks exclude a path against the order. -/
theorem Consistent.not_reaches (h : (r.node x).rank < (r.node y).rank) :
    ¬ r.Reaches y x := fun hreach =>
  absurd (TopologicalOrder.le_of_reaches hc.ordered hreach) (Nat.not_le.mpr h)

/-- A graph with the same ranks and free nodes, fewer edges and no marks. -/
theorem Consistent.fewer {r' : Rep S} {keep : Nat → Nat → Prop}
    (hlen : r'.nodes.length = r.nodes.length) (hfree : r'.freeNodes = r.freeNodes)
    (hrank : ∀ i, (r'.node i).rank = (r.node i).rank)
    (hedge : ∀ a b, r'.Edge a b ↔ r.Edge a b ∧ keep a b)
    (hins : ∀ a b, a ∈ toList (r'.node b).ins ↔ a ∈ toList (r.node b).ins ∧ keep a b)
    (hun : ∀ i, (r'.node i).visited = false) : r'.Consistent := by
  refine hc.keep hlen hfree ?_ ?_ (fun a b hab => ?_)
    (fun a b => by rw [hins, hedge, hc.inverse]) hun
  · simpa [hrank] using hc.rank_lt
  · simpa [hrank] using hc.rank_inj
  · have hab := ((hedge a b).mp hab).1
    rw [hrank, hrank]
    exact ⟨hc.ordered a b hab, hc.live a b hab⟩

/-- Taking the new edge out and the marks away restores the graph. -/
theorem Consistent.restore (hno : ¬ r.Edge x y) {r₁ r₂ : Rep S} (hl : Linked r r₁ x y)
    (hun : ∀ i, (r₁.node i).visited = false) {delta : List Nat} (hm : Marked r₁ r₂ delta)
    {r' : Rep S} (hr' : (r₂.removeEdge x y).clearVisitedBits delta = r') :
    r'.Consistent ∧ r'.nodes.length = r.nodes.length ∧ r'.freeNodes = r.freeNodes ∧
      (∀ a b, r'.Edge a b ↔ r.Edge a b) ∧ ∀ i, (r'.node i).rank = (r.node i).rank := by
  have hl₂ : Linked r r₂ x y := hl.sameButVisited hm.toSameButVisited
  have he := erased_removeEdge r₂ x y
  have hsame : SameButVisited (r₂.removeEdge x y) r' :=
    hr' ▸ sameButVisited_clearVisitedBits _ delta
  have hlen := hsame.length.trans (he.length.trans hl₂.length)
  have hfree := hsame.free.trans (he.free.trans hl₂.free)
  have hrank : ∀ i, (r'.node i).rank = (r.node i).rank := by
    intro i
    rw [hsame.rank, he.rank, hl₂.rank]
  have hkeep : ∀ a b, (r.Edge a b ∨ a = x ∧ b = y) ∧ ¬ (a = x ∧ b = y) ↔ r.Edge a b := by
    intro a b
    have hxy : r.Edge a b → ¬ (a = x ∧ b = y) := by
      rintro hab ⟨rfl, rfl⟩
      exact hno hab
    tauto
  have hedge : ∀ a b, r'.Edge a b ↔ r.Edge a b := by
    intro a b
    rw [Edge, hsame.outs, he.outs, hl₂.outs, hkeep]
  have hrange : ∀ n ∈ delta, n < (r₂.removeEdge x y).nodes.length := by
    rw [he.length, hm.length]
    exact hm.in_range
  have hun' : ∀ i, (r'.node i).visited = false := by
    intro i
    rw [← hr', visited_clearVisitedBits hrange, he.visited, hm.visited, hun]
    by_cases hi : i ∈ delta <;> simp
  refine ⟨hc.fewer hlen hfree hrank (fun a b => (hedge a b).trans (and_iff_left trivial).symm)
    (fun a b => Iff.trans ?_ (and_iff_left trivial).symm) hun', hlen, hfree, hedge, hrank⟩
  rw [hsame.ins, he.ins, hl₂.ins, hc.inverse, hkeep]

/-- Handing out ranks again admits the edge. -/
theorem Consistent.reorder {r₁ r₂ r₃ : Rep S} (hl : Linked r r₁ x y) (hx : r.Live x)
    (hy : r.Live y) (hyx : (r.node y).rank < (r.node x).rank)
    (hun : ∀ i, (r₁.node i).visited = false) (hacyclic : ¬ r.Reaches y x)
    {deltaf deltab : List Nat} (hm : Marked r₁ r₂ deltaf) (hm' : Marked r₂ r₃ deltab)
    (hf : ∀ n, n ∈ deltaf ↔ r.Reaches y n ∧ (r.node n).rank < (r.node x).rank)
    (hb : ∀ n, n ∈ deltab ↔ r.Reaches n x ∧ (r.node y).rank < (r.node n).rank) :
    (r₃.reorder deltab deltaf).Consistent := by
  have hl₃ : Linked r r₃ x y :=
    (hl.sameButVisited hm.toSameButVisited).sameButVisited hm'.toSameButVisited
  have hrf : ∀ n ∈ deltaf, n < r₃.nodes.length := by
    rw [hm'.length, hm.length]
    exact hm.in_range
  have hrb : ∀ n ∈ deltab, n < r₃.nodes.length := by
    rw [hm'.length]
    exact hm'.in_range
  have hdisjoint : (deltab ++ deltaf).Nodup := by
    refine List.nodup_append.mpr ⟨hm'.nodup, hm.nodup, ?_⟩
    rintro a ha b hb' rfl
    exact hacyclic (((hf a).mp hb').1.trans ((hb a).mp ha).1)
  have hinj : ∀ a < r₃.nodes.length, ∀ b < r₃.nodes.length,
      (r₃.node a).rank = (r₃.node b).rank → a = b := by
    simpa [hl₃.length, hl₃.rank] using hc.rank_inj
  have hre := reassigned_reorder hrb hrf hdisjoint hinj
  simp only [hl₃.rank] at hre
  have hrange : ∀ n ∈ r₃.sort deltab ++ r₃.sort deltaf, n < r.nodes.length := by
    intro n hn
    rw [← hl₃.length]
    rcases List.mem_append.mp hn with hn | hn
    · exact hrb n (mem_sort.mp hn)
    · exact hrf n (mem_sort.mp hn)
  have hinjOn : Set.InjOn (fun i => (r.node i).rank) {i | i < r.nodes.length} :=
    fun i hi j hj he => hc.rank_inj i hi j hj he
  refine hc.relink hl₃ hx hy (reordered_reorder r₃ deltab deltaf) ?_ ?_ ?_ ?_
  · intro i hi
    by_cases hmem : i ∈ r₃.sort deltab ++ r₃.sort deltaf
    · obtain ⟨w, hw, he⟩ := hre.exists_eq hmem
      rw [he]
      exact hc.rank_lt w (hrange w hw)
    · have hframe := hre.frame i hmem
      rw [hframe]
      exact hc.rank_lt i hi
  · exact fun i hi j hj he => hre.injOn hrange hinjOn hi hj he
  · intro a b hab
    exact hre.ordered hc.ordered hinjOn
      (fun a b hab => ⟨(hc.live a b hab).1.1, (hc.live a b hab).2.1⟩) hx.1 hy.1 hyx hacyclic
      (fun w => mem_sort.trans (hb w)) (fun w => mem_sort.trans (hf w)) hab
  · intro i
    rw [visited_reorder hrb hrf, hm'.visited, hm.visited, hun]
    by_cases hif : i ∈ deltaf <;> by_cases hib : i ∈ deltab <;> simp [hif]

/-- Insertions keep the graph consistent and reject exactly the edges that close a cycle. -/
theorem Consistent.insertEdge (hx : r.Live x) (hy : r.Live y) :
    Inserted r x y (r.insertEdge x y).1 (r.insertEdge x y).2 := by
  unfold Rep.insertEdge
  by_cases hxy : x = y
  · rw [if_pos hxy]
    exact ⟨hc, rfl, rfl, by simp [hxy], fun _ => ⟨fun _ _ => Iff.rfl, fun _ => rfl⟩, nofun⟩
  rw [if_neg hxy]
  by_cases hedge : r.hasEdge x y = true
  · have he : r.Edge x y := hasEdge_iff.mp hedge
    have hno : ¬ r.Reaches y x := hc.not_reaches (hc.ordered x y he)
    rw [if_pos hedge]
    refine ⟨hc, rfl, rfl, by simp [hxy, hno], nofun, fun _ a b => ?_⟩
    constructor
    · exact .inl
    · rintro (hab | ⟨rfl, rfl⟩)
      · exact hab
      · exact he
  rw [if_neg hedge]
  have hno : ¬ r.Edge x y := fun he => hedge (hasEdge_iff.mpr he)
  have hl := linked_updateOuts_updateIns hx.1 hy.1
  have hun : ∀ i, (((r.updateOuts x (insert y)).updateIns y (insert x)).node i).visited =
      false := by
    intro i
    rw [visited_updateIns, visited_updateOuts, hc.unmarked]
  generalize (r.updateOuts x (insert y)).updateIns y (insert x) = r₁ at hl hun
  dsimp only
  rw [hl.rank, hl.rank]
  by_cases hle : (r.node x).rank ≤ (r.node y).rank
  · have hlt : (r.node x).rank < (r.node y).rank :=
      lt_of_le_of_ne hle fun he => hxy (hc.rank_inj x hx.1 y hy.1 he)
    rw [if_pos hle]
    refine ⟨hc.relink hl hx hy ⟨rfl, rfl, fun _ => rfl, fun _ => rfl⟩ ?_ ?_ ?_ hun,
      hl.length, hl.free, by simp [hxy, hc.not_reaches hlt], nofun, fun _ a b => hl.outs a b⟩
    · simpa [hl.rank] using hc.rank_lt
    · simpa [hl.rank] using hc.rank_inj
    · rintro a b (hab | ⟨rfl, rfl⟩)
      · rw [hl.rank, hl.rank]
        exact hc.ordered a b hab
      · rwa [hl.rank, hl.rank]
  rw [if_neg hle]
  have hyx : (r.node y).rank < (r.node x).rank := lt_of_not_ge hle
  obtain ⟨hm, hcycle, hmem⟩ := hl.forwardDFS hc hx hy hyx hun rfl
  generalize r₁.forwardDFS y (r.node x).rank = f at hm hcycle hmem
  obtain ⟨ok, r₂, deltaf⟩ := f
  cases ok with
  | false =>
    obtain ⟨hc', hlen, hfree, hedges, hranks⟩ := hc.restore hno hl hun hm rfl
    exact ⟨hc', hlen, hfree, by simp [hcycle.mp rfl], fun _ => ⟨hedges, hranks⟩, nofun⟩
  | true =>
    have hacyclic : ¬ r.Reaches y x := fun hreach => Bool.noConfusion (hcycle.mpr hreach)
    have hl₂ : Linked r r₂ x y := hl.sameButVisited hm.toSameButVisited
    have hun₂ : ∀ i, r.Reaches i x → (r₂.node i).visited = false := by
      intro i hi
      have hni : i ∉ deltaf := fun hmemi => hacyclic (((hmem rfl i).mp hmemi).1.trans hi)
      rw [hm.visited, hun]
      simp [hni]
    obtain ⟨hm', hb⟩ := hl₂.backwardDFS hc hx hy hyx hun₂ rfl
    have hre := reordered_reorder (r₂.backwardDFS x (r.node y).rank).1
      (r₂.backwardDFS x (r.node y).rank).2 deltaf
    have hl₃ := hl₂.sameButVisited hm'.toSameButVisited
    simp only [Bool.not_true, Bool.false_eq_true, if_false, hl₂.rank]
    refine ⟨hc.reorder hl hx hy hyx hun hacyclic hm hm' (hmem rfl) hb,
      hre.length.trans hl₃.length, hre.free.trans hl₃.free, by simp [hxy, hacyclic], nofun, ?_⟩
    intro _ a b
    rw [Edge, hre.outs, hl₃.outs]

end Insertion

end Rep

end Tension.GraphCycles
