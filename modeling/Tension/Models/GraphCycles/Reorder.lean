import Tension.Core.TopologicalOrder
import Tension.Models.GraphCycles.Search

/-!
# Handing out ranks again

`Reorder` sorts the two sets of visited nodes by rank, puts one after the other and gives
them the sorted ranks of both. It also takes their marks away.
-/

namespace Tension.GraphCycles

open UnorderedSet List

variable {S : Type*} [UnorderedSet S Nat]

namespace Rep

/-! ## Sorting -/

variable (r : Rep S)

theorem perm_sort (delta : List Nat) : (r.sort delta).Perm delta :=
  perm_insertionSort _ delta

theorem mem_sort {r : Rep S} {delta : List Nat} {n : Nat} : n ∈ r.sort delta ↔ n ∈ delta :=
  (r.perm_sort delta).mem_iff

/-- Different nodes have different ranks, so that sorting is strict. -/
theorem pairwise_sort {r : Rep S} {delta : List Nat} (hnodup : delta.Nodup)
    (hinj : ∀ a ∈ delta, ∀ b ∈ delta, (r.node a).rank = (r.node b).rank → a = b) :
    (r.sort delta).Pairwise fun a b => (r.node a).rank < (r.node b).rank := by
  have hle : (r.sort delta).Pairwise fun a b => (r.node a).rank ≤ (r.node b).rank := by
    exact pairwise_insertionSort _ delta
  have hne : (r.sort delta).Pairwise (· ≠ ·) := (r.perm_sort delta).nodup_iff.mpr hnodup
  refine (hle.and hne).imp_of_mem ?_
  rintro a b ha hb ⟨hab, hne⟩
  exact lt_of_le_of_ne hab fun he => hne (hinj a (mem_sort.mp ha) b (mem_sort.mp hb) he)

/-! ## Moving to the list -/

/-- `MoveToList` collects ranks and takes marks away. -/
theorem moveToList_eq (src dst : List Nat) : r.moveToList src dst =
      (r.clearVisitedBits src, src.map fun w => (r.node w).rank, dst ++ src) := by
  induction src generalizing r dst with
  | nil => simp [moveToList, clearVisitedBits]
  | cons w src ih =>
    have hrank : ∀ i, ((r.setVisited w false).node i).rank = (r.node i).rank :=
      (sameButVisited_setVisited r w false).rank
    rw [moveToList, ih]
    simp only [hrank, append_assoc]
    rfl

/-! ## Assigning ranks -/

/-- Assign ranks to nodes one by one. -/
def assignRanks (pairs : List (Nat × Nat)) : Rep S :=
  pairs.foldl (fun r p => r.modify p.1 fun n => { n with rank := p.2 }) r

omit [UnorderedSet S Nat] in
@[simp] theorem length_assignRanks (pairs : List (Nat × Nat)) :
    (r.assignRanks pairs).nodes.length = r.nodes.length := by
  induction pairs generalizing r with
  | nil => rfl
  | cons p pairs ih => exact (ih _).trans (length_modify r p.1 _)

omit [UnorderedSet S Nat] in
@[simp] theorem freeNodes_assignRanks (pairs : List (Nat × Nat)) :
    (r.assignRanks pairs).freeNodes = r.freeNodes := by
  induction pairs generalizing r with
  | nil => rfl
  | cons p pairs ih => exact ih _

/-- Fields other than the rank stay. -/
theorem node_assignRanks_frame {β : Type*} (g : Node S → β)
    (hg : ∀ n rank, g { n with rank := rank } = g n) (r : Rep S) (pairs : List (Nat × Nat))
    (i : Nat) : g ((r.assignRanks pairs).node i) = g (r.node i) := by
  induction pairs generalizing r with
  | nil => rfl
  | cons p pairs ih =>
    rw [assignRanks, foldl_cons, ← assignRanks, ih]
    exact node_modify_frame g (fun n => hg n p.2) r p.1 i

/-- Nodes that are not listed keep their rank. -/
theorem rank_assignRanks_of_not_mem {r : Rep S} {list merged : List Nat} {i : Nat}
    (hi : i ∉ list) : ((r.assignRanks (list.zip merged)).node i).rank = (r.node i).rank := by
  induction list generalizing r merged with
  | nil => simp [assignRanks]
  | cons w list ih =>
    cases merged with
    | nil => simp [assignRanks]
    | cons m merged =>
      rw [mem_cons, not_or] at hi
      rw [assignRanks, zip_cons_cons, foldl_cons, ← assignRanks, ih hi.2,
        node_modify_of_ne (Ne.symm hi.1)]

/-- The listed nodes get the ranks of the other list. -/
theorem map_rank_assignRanks {r : Rep S} {list merged : List Nat} (hnodup : list.Nodup)
    (hrange : ∀ n ∈ list, n < r.nodes.length) (hlen : merged.length = list.length) :
    (list.map fun n => ((r.assignRanks (list.zip merged)).node n).rank) = merged := by
  induction list generalizing r merged with
  | nil => exact (length_eq_zero_iff.mp hlen).symm
  | cons w list ih =>
    cases merged with
    | nil => cases hlen
    | cons m merged =>
      obtain ⟨hw, hnodup⟩ := nodup_cons.mp hnodup
      have hwlt : w < r.nodes.length := hrange w mem_cons_self
      have hstep : r.assignRanks ((w :: list).zip (m :: merged)) =
          (r.modify w fun n => { n with rank := m }).assignRanks (list.zip merged) := rfl
      rw [hstep, map_cons]
      congr 1
      · rw [rank_assignRanks_of_not_mem hw, node_modify_self hwlt]
      · refine ih hnodup ?_ (Nat.succ.inj hlen)
        intro n hn
        rw [length_modify]
        exact hrange n (mem_cons_of_mem w hn)

/-! ## Reordering -/

/-- The graph before ranks are assigned: the marks of both sets are gone. -/
theorem reorder_eq (deltab deltaf : List Nat) : r.reorder deltab deltaf =
      ((r.clearVisitedBits (r.sort deltab)).clearVisitedBits (r.sort deltaf)).assignRanks
        ((r.sort deltab ++ r.sort deltaf).zip
          (((r.sort deltab).map fun w => (r.node w).rank).merge
            ((r.sort deltaf).map fun w => (r.node w).rank))) := by
  have hrank := (sameButVisited_clearVisitedBits r (r.sort deltab)).rank
  simp only [reorder, moveToList_eq, hrank]
  rfl

/-- What reordering leaves alone. -/
structure Reordered (r r' : Rep S) : Prop where
  length : r'.nodes.length = r.nodes.length
  free : r'.freeNodes = r.freeNodes
  ins : ∀ i, (r'.node i).ins = (r.node i).ins
  outs : ∀ i, (r'.node i).outs = (r.node i).outs

theorem reordered_reorder (deltab deltaf : List Nat) :
    Reordered r (r.reorder deltab deltaf) := by
  have hb := sameButVisited_clearVisitedBits r (r.sort deltab)
  have hf := hb.trans (sameButVisited_clearVisitedBits _ (r.sort deltaf))
  rw [reorder_eq]
  constructor
  · rw [length_assignRanks, hf.length]
  · rw [freeNodes_assignRanks, hf.free]
  · intro i
    rw [node_assignRanks_frame Node.ins (fun _ _ => rfl), hf.ins]
  · intro i
    rw [node_assignRanks_frame Node.outs (fun _ _ => rfl), hf.outs]

variable {r : Rep S} {deltab deltaf : List Nat} (hb : ∀ n ∈ deltab, n < r.nodes.length)
  (hf : ∀ n ∈ deltaf, n < r.nodes.length)
include hb hf

/-- The marks of both sets are gone. -/
theorem visited_reorder (i : Nat) :
    ((r.reorder deltab deltaf).node i).visited =
      (!decide (i ∈ deltaf) && (!decide (i ∈ deltab) && (r.node i).visited)) := by
  have hsame := sameButVisited_clearVisitedBits r (r.sort deltab)
  have hb' : ∀ n ∈ r.sort deltab, n < r.nodes.length := fun n hn => hb n (mem_sort.mp hn)
  have hf' : ∀ n ∈ r.sort deltaf, n < (r.clearVisitedBits (r.sort deltab)).nodes.length := by
    intro n hn
    rw [hsame.length]
    exact hf n (mem_sort.mp hn)
  rw [reorder_eq, node_assignRanks_frame Node.visited (fun _ _ => rfl),
    visited_clearVisitedBits hf', visited_clearVisitedBits hb']
  simp [mem_sort]

/-- The ranks of both sets are handed out again. -/
theorem reassigned_reorder (hnodup : (deltab ++ deltaf).Nodup)
    (hinj : ∀ a < r.nodes.length, ∀ b < r.nodes.length,
      (r.node a).rank = (r.node b).rank → a = b) :
    TopologicalOrder.Reassigned (fun i => (r.node i).rank)
      (fun i => ((r.reorder deltab deltaf).node i).rank) (r.sort deltab) (r.sort deltaf) := by
  set back := r.sort deltab
  set front := r.sort deltaf
  set merged := (back.map fun w => (r.node w).rank).merge (front.map fun w => (r.node w).rank)
  have hperm : (back ++ front).Perm (deltab ++ deltaf) :=
    (r.perm_sort deltab).append (r.perm_sort deltaf)
  have hrange : ∀ n ∈ back ++ front, n < r.nodes.length := fun n hn =>
    forall_mem_append.mpr ⟨hb, hf⟩ n (hperm.mem_iff.mp hn)
  have hsb : back.Pairwise fun a b => (r.node a).rank < (r.node b).rank :=
    pairwise_sort (nodup_append.mp hnodup).1 fun a ha b hb' => hinj a (hb a ha) b (hb b hb')
  have hsf : front.Pairwise fun a b => (r.node a).rank < (r.node b).rank :=
    pairwise_sort (nodup_append.mp hnodup).2.1
      fun a ha b hb' => hinj a (hf a ha) b (hf b hb')
  have hmergedPerm : merged.Perm ((back ++ front).map fun w => (r.node w).rank) := by
    rw [map_append]
    exact merge_perm_append _
  have hsame : SameButVisited r ((r.clearVisitedBits back).clearVisitedBits front) :=
    (sameButVisited_clearVisitedBits r back).trans (sameButVisited_clearVisitedBits _ front)
  have hassigned : ((back ++ front).map
      fun i => ((r.reorder deltab deltaf).node i).rank) = merged := by
    rw [reorder_eq]
    refine map_rank_assignRanks (hperm.nodup_iff.mpr hnodup) ?_ ?_
    · rwa [hsame.length]
    · rw [hmergedPerm.length_eq, length_map]
  have hne : merged.Pairwise (· ≠ ·) := by
    refine hmergedPerm.nodup_iff.mpr ?_
    refine List.Nodup.map_on ?_ (hperm.nodup_iff.mpr hnodup)
    exact fun a ha b hb' he => hinj a (hrange a ha) b (hrange b hb') he
  have hle : merged.Pairwise (· ≤ ·) := by
    have hsorted := @pairwise_merge Nat (fun a b => decide (a ≤ b))
      (fun a b c => by simpa using le_trans) (fun a b => by simpa using le_total a b)
      (back.map fun w => (r.node w).rank) (front.map fun w => (r.node w).rank)
      (pairwise_map.mpr (hsb.imp fun hab => decide_eq_true hab.le))
      (pairwise_map.mpr (hsf.imp fun hab => decide_eq_true hab.le))
    exact hsorted.imp of_decide_eq_true
  refine ⟨hsb, hsf, ?_, ?_, ?_⟩
  · rw [hassigned]
    exact (hle.and hne).imp fun h => lt_of_le_of_ne h.1 h.2
  · rw [hassigned]
    exact hmergedPerm
  · intro v hv
    rw [reorder_eq, rank_assignRanks_of_not_mem hv, hsame.rank]

end Rep

end Tension.GraphCycles
