import Mathlib.Data.List.Basic
import Mathlib.Data.List.Count
import Mathlib.Data.List.Nodup

/-!
# Tables of recycled objects

Objects are entered in a table under increasing numbers. An object that is removed leaves a gap
in the table and is put on a list of free objects, from which the next object is taken. Every
object stores its number.
-/

namespace Tension

open List Option

/-- The entries of a table, the free objects, and the number of objects in the table. -/
structure ObjectTable where
  entries : List (Option Nat)
  free : List Nat
  count : Int
  deriving DecidableEq

namespace ObjectTable

variable {t t' t'' : ObjectTable} {number number' : Nat → Int} {x y fresh : Nat}

def empty : ObjectTable := ⟨[], [], 0⟩

/-- The object that is taken next: a free one, or a new one. -/
def next (t : ObjectTable) (fresh : Nat) : Nat := t.free.getLast?.getD fresh

/-- The next object is entered. -/
def add (t : ObjectTable) (fresh : Nat) : ObjectTable where
  entries := t.entries ++ [some (t.next fresh)]
  free := t.free.dropLast
  count := t.count + 1

/-- An object is removed from its place. -/
def remove (t : ObjectTable) (i x : Nat) : ObjectTable where
  entries := t.entries.set i none
  free := t.free ++ [x]
  count := t.count - 1

/-- The object is in the table. -/
def Live (t : ObjectTable) (x : Nat) : Prop := some x ∈ t.entries

instance : Decidable (t.Live x) := inferInstanceAs (Decidable (some x ∈ t.entries))

/-- The object was never in the table. -/
def Unused (t : ObjectTable) (x : Nat) : Prop := ¬t.Live x ∧ x ∉ t.free

instance : Decidable (t.Unused x) := inferInstanceAs (Decidable (¬t.Live x ∧ x ∉ t.free))

/-- The objects in the table store their place, and free objects store none. -/
structure Valid (number : Nat → Int) (t : ObjectTable) : Prop where
  count : t.count = (t.entries.countP Option.isSome : Nat)
  number_eq : ∀ (i x : Nat), t.entries[i]? = some (some x) → number x = i
  free_nodup : t.free.Nodup
  free_number : ∀ x ∈ t.free, number x = -1

/-- The empty table is valid. -/
theorem valid_empty : Valid number empty :=
  ⟨rfl, fun i x h => by simp [empty] at h, nodup_nil, nofun⟩

section

variable (h : Valid number t)
include h

/-- A live object is found under its number. -/
theorem Valid.exists_of_live (hx : t.Live x) :
    ∃ i : Nat, number x = i ∧ t.entries[i]? = some (some x) := by
  obtain ⟨i, hi⟩ := getElem?_of_mem hx
  exact ⟨i, h.number_eq i x hi, hi⟩

theorem Valid.getElem?_of_live (hx : t.Live x) : t.entries[(number x).toNat]? = some (some x) := by
  obtain ⟨i, hi, hentry⟩ := h.exists_of_live hx
  rw [hi]
  exact hentry

theorem Valid.number_nonneg (hx : t.Live x) : 0 ≤ number x := by
  obtain ⟨i, hi, -⟩ := h.exists_of_live hx
  omega

/-- Free objects are not in the table. -/
theorem Valid.not_live_of_free (hx : x ∈ t.free) : ¬t.Live x := by
  intro hlive
  have hnonneg := h.number_nonneg hlive
  rw [h.free_number x hx] at hnonneg
  omega

/-- A table that has an object counts it. -/
theorem Valid.count_pos (hx : t.Live x) : 0 < t.count := by
  have hpos : 0 < t.entries.countP isSome := countP_pos_iff.mpr ⟨_, hx, rfl⟩
  rw [h.count]
  omega

end

/-- The next object is free or new. -/
theorem next_cases (t : ObjectTable) (fresh : Nat) : t.free = [] ∧ t.next fresh = fresh ∨
      t.free = t.free.dropLast ++ [t.next fresh] ∧ t.next fresh ∈ t.free := by
  rcases eq_nil_or_concat t.free with h | ⟨l, x, h⟩
  · exact .inl ⟨h, by rw [next, h]; rfl⟩
  · refine .inr ?_
    rw [next, h, concat_eq_append, getLast?_concat, dropLast_concat]
    exact ⟨rfl, mem_append_right _ (mem_singleton_self x)⟩

/-- The next object is not in the table. -/
theorem Valid.next_not_live (h : Valid number t) (hfresh : t.Unused fresh) :
    ¬t.Live (t.next fresh) := by
  rcases t.next_cases fresh with ⟨-, hnext⟩ | ⟨-, hmem⟩
  · rw [hnext]
    exact hfresh.1
  · exact h.not_live_of_free hmem

/-- An addition makes one object live. -/
theorem live_add : (t.add fresh).Live y ↔ t.Live y ∨ y = t.next fresh := by
  simp [Live, add]

theorem Valid.next_not_mem_dropLast (h : Valid number t) : t.next fresh ∉ t.free.dropLast := by
  rcases t.next_cases fresh with ⟨hnil, -⟩ | ⟨hfree, -⟩
  · rw [hnil]
    exact not_mem_nil
  · have hnodup := h.free_nodup
    rw [hfree] at hnodup
    obtain ⟨-, -, hne⟩ := nodup_append.mp hnodup
    exact fun hmem => hne _ hmem _ (mem_singleton_self _) rfl

/-- An addition uses one object. -/
theorem unused_add : (t.add fresh).Unused y ↔ t.Unused y ∧ y ≠ t.next fresh := by
  have hfree : y ≠ t.next fresh → (y ∈ t.free.dropLast ↔ y ∈ t.free) := by
    intro hne
    rcases t.next_cases fresh with ⟨hnil, -⟩ | ⟨hfree, -⟩
    · rw [hnil]
      rfl
    · conv_rhs => rw [hfree]
      simp [hne]
  rw [Unused, live_add]
  constructor
  · rintro ⟨hlive, hmem⟩
    obtain ⟨hlive, hne⟩ := not_or.mp hlive
    exact ⟨⟨hlive, (hfree hne).not.mp hmem⟩, hne⟩
  · rintro ⟨⟨hlive, hmem⟩, hne⟩
    exact ⟨not_or.mpr ⟨hlive, hne⟩, (hfree hne).not.mpr hmem⟩

/-- The next object is entered and stores its place. -/
theorem Valid.add (h : Valid number t) (hfresh : t.Unused fresh)
    (hnext : number' (t.next fresh) = t.entries.length)
    (hother : ∀ x, x ≠ t.next fresh → number' x = number x) : Valid number' (t.add fresh) where
  count := by
    simp only [ObjectTable.add, countP_append, h.count, countP_singleton, isSome_some, if_true]
    omega
  number_eq i x hi := by
    rcases Nat.lt_trichotomy i t.entries.length with hlt | rfl | hlt
    · rw [ObjectTable.add, getElem?_append_left hlt] at hi
      rw [hother x, h.number_eq i x hi]
      rintro rfl
      exact h.next_not_live hfresh (mem_of_getElem? hi)
    · simp only [ObjectTable.add, getElem?_concat_length, some.injEq] at hi
      rw [← hi, hnext]
    · rw [getElem?_eq_none (by simp [ObjectTable.add]; omega)] at hi
      cases hi
  free_nodup := h.free_nodup.sublist (dropLast_sublist _)
  free_number x hx := by
    rw [hother x, h.free_number x (dropLast_subset _ hx)]
    rintro rfl
    exact h.next_not_mem_dropLast hx

section

variable (h : Valid number t) (hx : t.Live x)
include h hx

/-- The other objects stay in the table. -/
theorem Valid.live_remove : (t.remove (number x).toNat x).Live y ↔ t.Live y ∧ y ≠ x := by
  have hplace := h.getElem?_of_live hx
  constructor
  · intro hy
    obtain ⟨i, hi⟩ := getElem?_of_mem hy
    rw [ObjectTable.remove, getElem?_set] at hi
    split at hi
    · split at hi <;> cases hi
    · refine ⟨mem_of_getElem? hi, ?_⟩
      rintro rfl
      have := h.number_eq i y hi
      omega
  · rintro ⟨hy, hne⟩
    obtain ⟨i, hi, hentry⟩ := h.exists_of_live hy
    refine mem_of_getElem? (i := i) ?_
    rw [ObjectTable.remove, getElem?_set, if_neg]
    · exact hentry
    · rintro rfl
      rw [hplace] at hentry
      exact hne (some.inj (some.inj hentry)).symm

/-- A removal does not make objects unused. -/
theorem Valid.unused_remove : (t.remove (number x).toNat x).Unused y ↔ t.Unused y := by
  rw [Unused, Unused, h.live_remove hx]
  simp only [ObjectTable.remove]
  rcases eq_or_ne y x with rfl | hne
  · simp [hx]
  · simp [hne]

/-- An object is removed and stores no place. -/
theorem Valid.remove (hnumber : number' x = -1) (hother : ∀ y, y ≠ x → number' y = number y) :
    Valid number' (t.remove (number x).toNat x) where
  count := by
    have hplace := h.getElem?_of_live hx
    obtain ⟨hlt, hentry⟩ := List.getElem?_eq_some_iff.mp hplace
    have hpos := h.count_pos hx
    rw [h.count] at hpos
    simp only [ObjectTable.remove, h.count, countP_set hlt, hentry, isSome_some,
      isSome_none, if_true, Bool.false_eq_true, if_false]
    omega
  number_eq i y hi := by
    have hy := (h.live_remove hx).mp (mem_of_getElem? hi)
    rw [ObjectTable.remove, getElem?_set] at hi
    split at hi
    · split at hi <;> cases hi
    · rw [hother y hy.2, h.number_eq i y hi]
  free_nodup := by
    refine nodup_append.mpr ⟨h.free_nodup, nodup_cons.mpr ⟨nofun, .nil⟩, ?_⟩
    rintro y hy z hz rfl
    rw [mem_singleton.mp hz] at hy
    exact h.not_live_of_free hy hx
  free_number y hy := by
    rcases mem_append.mp hy with hfree | hself
    · rw [hother y, h.free_number y hfree]
      rintro rfl
      exact h.not_live_of_free hfree hx
    · rw [mem_singleton.mp hself, hnumber]

end

/-! ## Numbers are not reused -/

/-- An entry is never filled again after it was made. -/
def Extends (t t' : ObjectTable) : Prop :=
  ∀ i, i < t.entries.length → t'.entries[i]? = t.entries[i]? ∨ t'.entries[i]? = some none

/-- Tables do not shrink. -/
theorem Extends.length_le (h : Extends t t') : t.entries.length ≤ t'.entries.length := by
  by_contra hlt
  have hlast := h (t.entries.length - 1) (by omega)
  rw [getElem?_eq_none (by omega), getElem?_eq_getElem (by omega)] at hlast
  rcases hlast with h | h <;> cases h

theorem Extends.refl (t : ObjectTable) : Extends t t := fun _ _ => .inl rfl

theorem Extends.trans (h₁ : Extends t t') (h₂ : Extends t' t'') : Extends t t'' := by
  intro i hi
  rcases h₂ i (Nat.lt_of_lt_of_le hi h₁.length_le) with h | h
  · rw [h]
    exact h₁ i hi
  · exact .inr h

/-- An addition extends the table. -/
theorem extends_add (t : ObjectTable) (fresh : Nat) : Extends t (t.add fresh) :=
  fun _ hi => .inl (getElem?_append_left hi)

/-- A removal extends the table. -/
theorem extends_remove (t : ObjectTable) (i x : Nat) : Extends t (t.remove i x) := by
  intro j hj
  rw [remove, getElem?_set]
  split
  · rename_i heq
    exact .inr (if_pos (heq ▸ hj))
  · exact .inl rfl

end ObjectTable

end Tension
