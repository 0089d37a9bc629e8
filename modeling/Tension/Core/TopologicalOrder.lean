import Mathlib.Data.List.Pairwise
import Mathlib.Data.List.Sort
import Mathlib.Logic.Relation

/-!
# Incremental topological orders

A ranking is a topological order when every edge leads to a higher rank. An edge from `x`
to `y` against the order is admitted by permuting the ranks of two sets: the ancestors of
`x` above `y` and the descendants of `y` below `x`. The ancestors receive the smallest of
the ranks and the descendants the largest, and both sets keep their internal order.
-/

namespace Tension.TopologicalOrder

open Relation List OrderDual

variable {V α : Type*} [LinearOrder α] {E : V → V → Prop} {ρ ρ' : V → α}

/-! ## Paths and ranks -/

section Paths

variable (hE : ∀ a b, E a b → ρ a < ρ b)

include hE

/-- Ranks do not decrease along a path. -/
theorem le_of_reaches {a b : V} (h : ReflTransGen E a b) : ρ a ≤ ρ b := by
  induction h with
  | refl => exact le_rfl
  | tail _ hbc ih => exact ih.trans (hE _ _ hbc).le

/-- A topological order excludes cycles. -/
theorem not_transGen_self (a : V) : ¬ TransGen E a a := by
  intro h
  obtain ⟨b, hab, hba⟩ := TransGen.tail'_iff.mp h
  exact absurd (le_of_reaches hE hab) (not_le.mpr (hE b a hba))

end Paths

/-- A search that follows the edges among the nodes with a property reaches what the edges reach
among them, if no edge leads into them from outside. -/
theorem reaches_within {step : V → V → Prop} {P : V → Prop} {a b : V}
    (hstep : ∀ u v, P u → (step u v ↔ E u v ∧ P v)) (hE : ∀ u v, E u v → P v → P u) (ha : P a) :
    ReflTransGen step a b ↔ ReflTransGen E a b ∧ P b := by
  constructor
  · intro h
    induction h with
    | refl => exact ⟨.refl, ha⟩
    | tail _ huv ih =>
      obtain ⟨hedge, hv⟩ := (hstep _ _ ih.2).mp huv
      exact ⟨ih.1.tail hedge, hv⟩
  · rintro ⟨h, hb⟩
    induction h with
    | refl => exact .refl
    | tail _ huv ih =>
      have hu := hE _ _ huv hb
      exact (ih hu).tail ((hstep _ _ hu).mpr ⟨huv, hb⟩)

/-! ## Sorted lists -/

/-- A sublist of a sorted list is pointwise after it. -/
theorem getElem_le_of_sublist {l m : List α} (h : l.Sublist m) (hm : m.Pairwise (· ≤ ·)) (i : Nat)
    (hl : i < l.length) (hi : i < m.length) : m[i] ≤ l[i] := by
  induction h generalizing i with
  | slnil => cases hl
  | @cons l m a hlm ih =>
    have hlen : i < m.length := hl.trans_le hlm.length_le
    have hstep : (a :: m)[i] ≤ m[i] :=
      pairwise_iff_getElem.mp hm i (i + 1) hi (Nat.succ_lt_succ hlen) (Nat.lt_succ_self i)
    exact hstep.trans (ih (pairwise_cons.mp hm).2 i hl hlen)
  | @cons_cons l m a hlm ih =>
    cases i with
    | zero => exact le_rfl
    | succ i =>
      exact ih (pairwise_cons.mp hm).2 i (Nat.lt_of_succ_lt_succ hl) (Nat.lt_of_succ_lt_succ hi)

/-! ## Reassigning ranks -/

/-- The ranks of `back` and `front` are handed out again in ascending order, first to
`back` and then to `front`, each in its old order. -/
structure Reassigned (ρ ρ' : V → α) (back front : List V) : Prop where
  sorted_back : back.Pairwise (ρ · < ρ ·)
  sorted_front : front.Pairwise (ρ · < ρ ·)
  sorted : ((back ++ front).map ρ').Pairwise (· < ·)
  perm : ((back ++ front).map ρ').Perm ((back ++ front).map ρ)
  frame : ∀ v, v ∉ back ++ front → ρ' v = ρ v

namespace Reassigned

variable {back front : List V}

section

variable (h : Reassigned ρ ρ' back front)
include h

/-- Seen from above, the lists are reversed and change places. -/
theorem dual : Reassigned (toDual ∘ ρ) (toDual ∘ ρ') front.reverse back.reverse where
  sorted_back := pairwise_reverse.mpr h.sorted_front
  sorted_front := pairwise_reverse.mpr h.sorted_back
  sorted := by
    rw [← reverse_append, map_reverse]
    exact pairwise_reverse.mpr h.sorted
  perm := by
    rw [← reverse_append, map_reverse, map_reverse]
    exact (reverse_perm _).trans (h.perm.trans (reverse_perm _).symm)
  frame v hv := h.frame v (by simpa [or_comm] using hv)

/-- The old ranks of one of the two lists are among the new ranks, in order. -/
theorem sublist {l : List V} (hl : l.Pairwise (ρ · < ρ ·)) (hsub : l.Sublist (back ++ front)) :
    (l.map ρ).Sublist ((back ++ front).map ρ') :=
  sublist_of_subperm_of_pairwise
    ((hsub.map ρ).subperm.trans h.perm.symm.subperm)
    ((pairwise_map.mpr hl).imp le_of_lt) (h.sorted.imp le_of_lt)

/-- The first list moves down. -/
theorem le_of_mem_back {v : V} (hv : v ∈ back) : ρ' v ≤ ρ v := by
  obtain ⟨i, hi, rfl⟩ := mem_iff_getElem.mp hv
  have hsub := h.sublist h.sorted_back (sublist_append_left back front)
  have hlt : i < (back.map ρ).length := by rwa [length_map]
  have hle := getElem_le_of_sublist hsub (h.sorted.imp le_of_lt) i hlt (hlt.trans_le hsub.length_le)
  rwa [getElem_map, getElem_map, getElem_append_left hi] at hle

/-- The second list moves up. -/
theorem le_of_mem_front {v : V} (hv : v ∈ front) : ρ v ≤ ρ' v :=
  h.dual.le_of_mem_back (mem_reverse.mpr hv)

end

/-- A list that is sorted by old and by new ranks keeps its order. -/
theorem lt_of_mem {l : List V} (hl : l.Pairwise (ρ · < ρ ·)) (hl' : (l.map ρ').Pairwise (· < ·))
    {u v : V} (hu : u ∈ l) (hv : v ∈ l) (huv : ρ u < ρ v) : ρ' u < ρ' v := by
  have hboth : l.Pairwise fun a b => ρ a < ρ b → ρ' a < ρ' b := by
    refine (pairwise_map.mp hl').imp ?_
    exact fun hab _ => hab
  have hflip : l.Pairwise fun a b => ρ b < ρ a → ρ' b < ρ' a :=
    hl.imp fun hab hba => absurd hab (lt_asymm hba)
  exact hboth.forall_of_forall_of_flip (fun a _ hlt => absurd hlt (lt_irrefl _)) hflip hu hv huv

variable (h : Reassigned ρ ρ' back front)
include h

/-- The first list comes before the second. -/
theorem lt_of_mem_back_of_mem_front {u v : V} (hu : u ∈ back) (hv : v ∈ front) : ρ' u < ρ' v := by
  have hs := h.sorted
  rw [map_append, pairwise_append] at hs
  exact hs.2.2 _ (mem_map_of_mem hu) _ (mem_map_of_mem hv)

/-- A new rank of the two lists is an old rank of the two lists. -/
theorem exists_eq {v : V} (hv : v ∈ back ++ front) : ∃ w ∈ back ++ front, ρ' v = ρ w := by
  obtain ⟨w, hw, he⟩ := mem_map.mp (h.perm.mem_iff.mp (mem_map_of_mem hv))
  exact ⟨w, hw, he.symm⟩

/-- Ranks that distinguish the nodes of a set still do. -/
theorem injOn {D : Set V} (hD : ∀ v ∈ back ++ front, v ∈ D) (hinj : Set.InjOn ρ D) :
    Set.InjOn ρ' D := by
  have hmix : ∀ u ∈ D, ∀ v ∈ D, u ∈ back ++ front → v ∉ back ++ front → ρ' u ≠ ρ' v := by
    intro u _ v hvD hu hv he
    obtain ⟨w, hw, hwu⟩ := h.exists_eq hu
    rw [hwu, h.frame v hv] at he
    exact hv (hinj (hD w hw) hvD he ▸ hw)
  intro u hu v hv he
  by_cases hul : u ∈ back ++ front <;> by_cases hvl : v ∈ back ++ front
  · exact inj_on_of_nodup_map (h.sorted.imp ne_of_lt) hul hvl he
  · exact absurd he (hmix u hu v hv hul hvl)
  · exact absurd he.symm (hmix v hv u hu hvl hul)
  · rw [h.frame u hul, h.frame v hvl] at he
    exact hinj hu hv he

/-- Reassigning the ancestors of `x` above `y` and the descendants of `y` below `x` makes
room for the edge from `x` to `y`. -/
theorem ordered {D : Set V} {x y : V} (hE : ∀ a b, E a b → ρ a < ρ b) (hinj : Set.InjOn ρ D)
    (hD : ∀ a b, E a b → a ∈ D ∧ b ∈ D) (hx : x ∈ D) (hy : y ∈ D) (hyx : ρ y < ρ x)
    (hacyclic : ¬ ReflTransGen E y x) (hback : ∀ w, w ∈ back ↔ ReflTransGen E w x ∧ ρ y < ρ w)
    (hfront : ∀ w, w ∈ front ↔ ReflTransGen E y w ∧ ρ w < ρ x) {a b : V}
    (hab : E a b ∨ a = x ∧ b = y) : ρ' a < ρ' b := by
  have hxb : x ∈ back := (hback x).mpr ⟨.refl, hyx⟩
  have hyf : y ∈ front := (hfront y).mpr ⟨.refl, hyx⟩
  have hs := h.sorted
  rw [map_append, pairwise_append] at hs
  have hbetween : ∀ v ∈ back ++ front, ρ y ≤ ρ' v ∧ ρ' v ≤ ρ x := by
    intro v hv
    obtain ⟨w, hw, he⟩ := h.exists_eq hv
    rw [he]
    rcases mem_append.mp hw with hw | hw
    · exact ⟨((hback w).mp hw).2.le, le_of_reaches hE ((hback w).mp hw).1⟩
    · exact ⟨le_of_reaches hE ((hfront w).mp hw).1, ((hfront w).mp hw).2.le⟩
  rcases hab with hab | ⟨rfl, rfl⟩
  · have hlt : ρ a < ρ b := hE a b hab
    by_cases hab' : a ∈ back
    · by_cases hbb : b ∈ back
      · exact lt_of_mem h.sorted_back hs.1 hab' hbb hlt
      · by_cases hbf : b ∈ front
        · exact h.lt_of_mem_back_of_mem_front hab' hbf
        · rw [h.frame b (by simp [hbb, hbf])]
          exact (h.le_of_mem_back hab').trans_lt hlt
    · by_cases haf : a ∈ front
      · by_cases hbb : b ∈ back
        · exact absurd ((((hfront a).mp haf).1.tail hab).trans ((hback b).mp hbb).1) hacyclic
        · by_cases hbf : b ∈ front
          · exact lt_of_mem h.sorted_front hs.2.1 haf hbf hlt
          · have hbx : ρ x ≤ ρ b := by
              by_contra hlt'
              exact hbf ((hfront b).mpr ⟨((hfront a).mp haf).1.tail hab, not_le.mp hlt'⟩)
            have hne : ρ x ≠ ρ b := fun he => hbb (hinj hx (hD a b hab).2 he ▸ hxb)
            rw [h.frame b (by simp [hbb, hbf])]
            exact (hbetween a (mem_append_right _ haf)).2.trans_lt (hbx.lt_of_ne hne)
      · rw [h.frame a (by simp [hab', haf])]
        by_cases hbb : b ∈ back
        · have hay : ρ a ≤ ρ y := by
            by_contra hlt'
            exact hab' ((hback a).mpr ⟨((hback b).mp hbb).1.head hab, not_le.mp hlt'⟩)
          have hne : ρ a ≠ ρ y := fun he => haf (hinj (hD a b hab).1 hy he ▸ hyf)
          exact (hay.lt_of_ne hne).trans_le (hbetween b (mem_append_left _ hbb)).1
        · by_cases hbf : b ∈ front
          · exact hlt.trans_le (h.le_of_mem_front hbf)
          · rwa [h.frame b (by simp [hbb, hbf])]
  · exact h.lt_of_mem_back_of_mem_front hxb hyf

end Reassigned

end Tension.TopologicalOrder
