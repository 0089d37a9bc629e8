import Mathlib.Data.Set.Card
import Mathlib.Data.List.Perm.Basic
import Mathlib.Tactic

/-!
# Finite partial maps represented by unordered entry lists

A store keeps its entries in some order of its own. `Represents key l m` says that
the entries `l`, whose keys are read off by `key`, are exactly the graph of the
partial map `m`. The rules follow the elementary changes of a store: permuting the
entries, adding one, replacing one and removing one.
-/

namespace Tension.PartialMap

open List Function

variable {Q W : Type*} (key : W → Q)

/-- The entries are the graph of the map, each key once. -/
structure Represents (l : List W) (m : Q → Option W) : Prop where
  /-- No key occurs twice. -/
  nodup : (l.map key).Nodup
  /-- Looking up a key gives exactly its entry. -/
  lookup : ∀ q w, m q = some w ↔ w ∈ l ∧ key w = q

variable {key} {l l' : List W} {m : Q → Option W}

theorem represents_nil : Represents key [] fun _ => none :=
  ⟨nodup_nil, fun _ _ => by simp⟩

section

variable (h : Represents key l m)
include h

theorem Represents.perm (hp : l.Perm l') : Represents key l' m :=
  ⟨(hp.map key).nodup_iff.mp h.nodup, fun q w => by rw [h.lookup, hp.mem_iff]⟩

theorem Represents.eq_some {w : W} (hw : w ∈ l) : m (key w) = some w := (h.lookup _ w).mpr ⟨hw, rfl⟩

/-- A key without an entry is mapped to nothing. -/
theorem Represents.eq_none {q : Q} (hq : ∀ w ∈ l, key w ≠ q) : m q = none := by
  cases hm : m q with
  | none => rfl
  | some w =>
    obtain ⟨hw, hk⟩ := (h.lookup q w).mp hm
    exact (hq w hw hk).elim

end

variable [DecidableEq Q]

/-- Adding an entry under a new key. -/
theorem Represents.cons (h : Represents key l m) {w : W} (hw : m (key w) = none) :
    Represents key (w :: l) (Function.update m (key w) (some w)) := by
  have hfresh : ∀ x ∈ l, key x ≠ key w := by
    intro x hx he
    rw [← he, h.eq_some hx] at hw
    cases hw
  refine ⟨?_, fun q x => ?_⟩
  · rw [map_cons, nodup_cons]
    refine ⟨?_, h.nodup⟩
    rw [mem_map]
    rintro ⟨x, hx, he⟩
    exact hfresh x hx he
  · rcases eq_or_ne q (key w) with rfl | hne
    · rw [update_self, Option.some.injEq, mem_cons]
      constructor
      · rintro rfl
        exact ⟨Or.inl rfl, rfl⟩
      · rintro ⟨rfl | hx, he⟩
        · rfl
        · exact (hfresh x hx he).elim
    · rw [update_of_ne hne, h.lookup, mem_cons]
      constructor
      · rintro ⟨hx, he⟩
        exact ⟨Or.inr hx, he⟩
      · rintro ⟨rfl | hx, he⟩
        · exact (hne he.symm).elim
        · exact ⟨hx, he⟩

/-- Removing an entry. -/
theorem Represents.tail {w : W} (h : Represents key (w :: l) m) :
    Represents key l (Function.update m (key w) none) := by
  have hnd := h.nodup
  rw [map_cons, nodup_cons] at hnd
  refine ⟨hnd.2, fun q x => ?_⟩
  rcases eq_or_ne q (key w) with rfl | hne
  · rw [update_self]
    constructor
    · rintro ⟨⟩
    · rintro ⟨hx, he⟩
      exact (hnd.1 (mem_map.mpr ⟨x, hx, he⟩)).elim
  · rw [update_of_ne hne, h.lookup, mem_cons]
    constructor
    · rintro ⟨rfl | hx, he⟩
      · exact (hne he.symm).elim
      · exact ⟨hx, he⟩
    · rintro ⟨hx, he⟩
      exact ⟨Or.inr hx, he⟩

/-- Replacing an entry by one with the same key. -/
theorem Represents.replace {w x : W} (h : Represents key (w :: l) m) (hk : key x = key w) :
    Represents key (x :: l) (Function.update m (key w) (some x)) := by
  have htail := h.tail
  have hnone : update m (key w) none (key x) = none := by
    rw [hk, update_self]
  have hcons := htail.cons hnone
  rwa [hk, update_idem] at hcons

omit [DecidableEq Q] in
/-- The domain of the map has as many keys as there are entries. -/
theorem Represents.ncard (h : Represents key l m) : {q | m q ≠ none}.ncard = l.length := by
  classical
  have hset : {q | m q ≠ none} = ((l.map key).toFinset : Set Q) := by
    ext q
    rw [Set.mem_ofPred_eq, Option.ne_none_iff_exists', coe_toFinset, Set.mem_ofPred_eq, mem_map]
    exact exists_congr fun w => h.lookup q w
  rw [hset, Set.ncard_coe_finset, toFinset_card_of_nodup h.nodup, length_map]

end Tension.PartialMap
