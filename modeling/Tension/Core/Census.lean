import Mathlib.Data.List.Perm.Basic

/-!
# Counting the entries of a table

Some entries of a table count. A census lists what these say. Changing an entry that does not
count leaves the census as it is; an entry that starts or stops to count is added to it or taken
from it, up to the order.
-/

namespace Tension.Census

open List

variable {α β : Type*} {g : α → Option β} {f : α → α} {l : List α} {i : Nat} {a : α} {b : β}

/-- What the entries that count say. -/
def census (g : α → Option β) (l : List α) : List β := l.filterMap g

/-- A new entry that does not count. -/
theorem census_append_of_none (h : g a = none) : census g (l ++ [a]) = census g l := by
  rw [census, filterMap_append, filterMap_cons_none h, filterMap_nil, append_nil, census]

/-- An entry says the same as before. -/
theorem census_modify_of_eq (h : ∀ a, l[i]? = some a → g (f a) = g a) :
    census g (l.modify i f) = census g l := by
  induction l generalizing i with
  | nil => rw [modify_nil]
  | cons c l ih =>
    cases i with
    | zero =>
      have hc : g (f c) = g c := h c rfl
      rw [modify_zero_cons, census, census, filterMap_cons, filterMap_cons, hc]
    | succ i =>
      have hl := ih h
      rw [census, census] at hl
      rw [modify_succ_cons, census, census, filterMap_cons, filterMap_cons, hl]

variable (hi : l[i]? = some a)
include hi

/-- Replacing an entry moves what it said out and what the new one says in. -/
theorem census_set (x : α) :
    ((g a).toList ++ census g (l.set i x)).Perm ((g x).toList ++ census g l) := by
  obtain ⟨hlt, hget⟩ := List.getElem?_eq_some_iff.mp hi
  have hcons : ∀ y, (census g (y :: l.eraseIdx i)).Perm
      ((g y).toList ++ census g (l.eraseIdx i)) := by
    intro y
    rw [census, filterMap_cons]
    cases g y <;> exact List.Perm.refl _
  have hnew := ((set_perm_cons_eraseIdx hlt x).filterMap g).trans (hcons x)
  have hold := ((getElem_cons_eraseIdx_perm hlt).symm.filterMap g).trans (hcons _)
  rw [hget] at hold
  refine (hnew.append_left _).trans (List.Perm.trans ?_ (hold.append_left _).symm)
  rw [← append_assoc, ← append_assoc]
  exact perm_append_comm.append_right _

theorem modify_eq_set : l.modify i f = l.set i (f a) := by
  obtain ⟨hlt, rfl⟩ := List.getElem?_eq_some_iff.mp hi
  exact modify_eq_set_get f hlt

/-- An entry starts to count. -/
theorem census_modify_enter (ha : g a = none) (hb : g (f a) = some b) :
    (census g (l.modify i f)).Perm (b :: census g l) := by
  have hset := census_set (g := g) hi (f a)
  rw [ha, hb] at hset
  rw [modify_eq_set hi]
  exact hset

/-- An entry stops to count. -/
theorem census_modify_leave (ha : g a = some b) (hf : g (f a) = none) :
    (census g l).Perm (b :: census g (l.modify i f)) := by
  have hset := census_set (g := g) hi (f a)
  rw [ha, hf] at hset
  rw [modify_eq_set hi]
  exact hset.symm

/-- The number of entries with a property after one entry has been replaced. -/
theorem countP_set_add (x : α) (p : α → Bool) :
    (l.set i x).countP p + (if p a then 1 else 0) = l.countP p + if p x then 1 else 0 := by
  obtain ⟨hlt, rfl⟩ := List.getElem?_eq_some_iff.mp hi
  have hle : (if p l[i] then 1 else 0) ≤ l.countP p := by
    split
    · next h => exact countP_pos_iff.mpr ⟨_, getElem_mem hlt, h⟩
    · exact Nat.zero_le _
  rw [countP_set hlt]
  omega

end Tension.Census
