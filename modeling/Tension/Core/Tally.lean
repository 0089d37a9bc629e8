import Mathlib.Algebra.Order.BigOperators.Group.List
import Mathlib.Data.List.Nodup
import Mathlib.Tactic.Ring

/-!
# Tallies

A tally is a list of keys with quantities. What it says about a key is the sum of the
quantities listed for it, so that a key may be listed several times. Adding to a tally
changes the entry of a key or appends one; quantities wrap around at a modulus `w`, and
below the modulus addition is addition.
-/

namespace Tension.Tally

open List

variable {κ : Type*} [DecidableEq κ] {l l' : List (κ × ℕ)} {k : κ} {w : ℕ}

/-- The total quantity listed for a key. -/
def amount (l : List (κ × ℕ)) (k : κ) : ℕ := (l.map fun e => if e.1 = k then e.2 else 0).sum

/-- An empty tally lists nothing. -/
@[simp] theorem amount_nil (k : κ) : amount [] k = 0 := rfl

/-- The first entry counts for its key. -/
@[simp] theorem amount_cons (e : κ × ℕ) (l : List (κ × ℕ)) (k : κ) :
    amount (e :: l) k = (if e.1 = k then e.2 else 0) + amount l k := by
  rw [amount, map_cons, sum_cons, amount]

/-- Tallies that are put together add up. -/
@[simp] theorem amount_append (l l' : List (κ × ℕ)) (k : κ) :
    amount (l ++ l') k = amount l k + amount l' k := by
  rw [amount, map_append, sum_append, amount, amount]

/-- Many tallies that are put together add up. -/
theorem amount_flatten (ls : List (List (κ × ℕ))) (k : κ) :
    amount ls.flatten k = (ls.map (amount · k)).sum := by
  rw [amount, map_flatten, sum_flatten, map_map]
  rfl

/-- Entries without a quantity add nothing. -/
theorem amount_filter_ne_zero (l : List (κ × ℕ)) (k : κ) :
    amount (l.filter fun e => e.2 ≠ 0) k = amount l k := by
  induction l with
  | nil => rfl
  | cons e l ih =>
    by_cases hq : e.2 = 0
    · rw [filter_cons_of_neg (by simpa using hq), ih, amount_cons, hq, ite_self, zero_add]
    · rw [filter_cons_of_pos (by simpa using hq), amount_cons, ih, amount_cons]

/-- A key that is not listed has no quantity. -/
theorem amount_eq_zero (h : k ∉ l.map Prod.fst) : amount l k = 0 := by
  induction l with
  | nil => rfl
  | cons e l ih =>
    rw [map_cons, mem_cons, not_or] at h
    rw [amount_cons, if_neg (Ne.symm h.1), ih h.2]

/-- An entry is part of the amount of its key. -/
theorem le_amount {e : κ × ℕ} (h : e ∈ l) : e.2 ≤ amount l e.1 := by
  induction l with
  | nil => cases h
  | cons e' l ih =>
    rw [amount_cons]
    rcases mem_cons.mp h with rfl | h
    · rw [if_pos rfl]
      exact Nat.le_add_right ..
    · exact (ih h).trans (Nat.le_add_left ..)

/-- If no key is listed twice, the quantity of a key is that of its entry. -/
theorem amount_of_mem (hl : (l.map Prod.fst).Nodup) {e : κ × ℕ} (h : e ∈ l) :
    amount l e.1 = e.2 := by
  induction l with
  | nil => cases h
  | cons e' l ih =>
    obtain ⟨hnot, hl⟩ := nodup_cons.mp hl
    rw [amount_cons]
    rcases mem_cons.mp h with rfl | h
    · rw [if_pos rfl, amount_eq_zero hnot, add_zero]
    · have hne : e'.1 ≠ e.1 := fun he => hnot (he ▸ mem_map_of_mem h)
      rw [if_neg hne, ih hl h, zero_add]

/-- Without repeated keys amounts are below the bound of the entries. -/
theorem amount_lt (hl : (l.map Prod.fst).Nodup) (hlt : ∀ e ∈ l, e.2 < w) (hw : 0 < w) (k : κ) :
    amount l k < w := by
  by_cases hk : k ∈ l.map Prod.fst
  · obtain ⟨e, he, rfl⟩ := mem_map.mp hk
    rw [amount_of_mem hl he]
    exact hlt e he
  · rwa [amount_eq_zero hk]

/-- Change the quantity of a key, which is 0 if the key is not listed. -/
def upsert (k : κ) (f : ℕ → ℕ) : List (κ × ℕ) → List (κ × ℕ)
  | [] => [(k, f 0)]
  | e :: l => if e.1 = k then (k, f e.2) :: l else e :: upsert k f l

variable {f : ℕ → ℕ} {base : List (κ × ℕ)}

/-- A change lists its key. -/
theorem mem_keys_upsert {k' : κ} :
    k' ∈ (upsert k f l).map Prod.fst ↔ k' = k ∨ k' ∈ l.map Prod.fst := by
  induction l with
  | nil => simp [upsert]
  | cons e l ih =>
    rw [upsert]
    split
    · next he => simp [he]
    · rw [map_cons, mem_cons, map_cons, mem_cons]
      tauto

/-- A change lists no key twice. -/
theorem nodup_upsert (h : (l.map Prod.fst).Nodup) : ((upsert k f l).map Prod.fst).Nodup := by
  induction l with
  | nil => simp [upsert]
  | cons e l ih =>
    obtain ⟨hnot, hl⟩ := nodup_cons.mp h
    rw [upsert]
    split
    · next he =>
      rw [← he]
      exact h
    · next hne =>
      rw [map_cons, nodup_cons, mem_keys_upsert]
      exact ⟨not_or.mpr ⟨hne, hnot⟩, ih hl⟩

/-- A change changes the amount of its key. -/
theorem amount_upsert (h : (l.map Prod.fst).Nodup) (k' : κ) :
    amount (upsert k f l) k' = if k' = k then f (amount l k) else amount l k' := by
  induction l with
  | nil => simp [upsert, eq_comm]
  | cons e l ih =>
    obtain ⟨hnot, hl⟩ := nodup_cons.mp h
    rw [upsert]
    by_cases he : e.1 = k
    · have hk : amount l k = 0 := amount_eq_zero (he ▸ hnot)
      rw [if_pos he, amount_cons, amount_cons, amount_cons, if_pos he, hk, add_zero, he]
      by_cases hk' : k' = k
      · rw [if_pos hk'.symm, if_pos hk', hk', hk, add_zero]
      · rw [if_neg (Ne.symm hk'), if_neg hk', if_neg (Ne.symm hk')]
    · rw [if_neg he, amount_cons, amount_cons, amount_cons, ih hl, if_neg he, zero_add]
      by_cases hk' : k' = k
      · rw [if_pos hk', if_neg (hk' ▸ he), zero_add, if_pos hk']
      · rw [if_neg hk', if_neg hk']

/-- A change of one quantity keeps what holds of all quantities. -/
theorem forall_upsert {P : ℕ → Prop} (hl : ∀ e ∈ l, P e.2) (hf : ∀ q, q = 0 ∨ P q → P (f q)) :
    ∀ e ∈ upsert k f l, P e.2 := by
  induction l with
  | nil => simpa [upsert] using hf 0 (.inl rfl)
  | cons e l ih =>
    obtain ⟨he, hl⟩ := forall_mem_cons.mp hl
    rw [upsert]
    split
    · exact forall_mem_cons.mpr ⟨hf e.2 (.inr he), hl⟩
    · exact forall_mem_cons.mpr ⟨he, ih hl⟩

/-! ## One change after the other -/

/-- Change the quantities of the keys of a tally one after the other. -/
def upsertAll (g : κ × ℕ → ℕ → ℕ) (base l : List (κ × ℕ)) : List (κ × ℕ) :=
  l.foldl (fun base e => upsert e.1 (g e) base) base

variable {g : κ × ℕ → ℕ → ℕ}

/-- Changes list their keys. -/
theorem mem_keys_upsertAll :
    k ∈ (upsertAll g base l).map Prod.fst ↔ k ∈ base.map Prod.fst ∨ k ∈ l.map Prod.fst := by
  induction l generalizing base with
  | nil => simp [upsertAll]
  | cons e l ih =>
    rw [upsertAll, foldl_cons, ← upsertAll, ih, mem_keys_upsert, map_cons, mem_cons]
    tauto

/-- Changes list no key twice. -/
theorem nodup_upsertAll (h : (base.map Prod.fst).Nodup) :
    ((upsertAll g base l).map Prod.fst).Nodup := by
  induction l generalizing base with
  | nil => exact h
  | cons e l ih => exact ih (nodup_upsert h)

/-- Changes keep what holds of all quantities. -/
theorem forall_upsertAll {P : ℕ → Prop} (hbase : ∀ e ∈ base, P e.2)
    (hg : ∀ e ∈ l, ∀ q, q = 0 ∨ P q → P (g e q)) : ∀ e ∈ upsertAll g base l, P e.2 := by
  induction l generalizing base with
  | nil => exact hbase
  | cons e l ih =>
    obtain ⟨he, hl⟩ := forall_mem_cons.mp hg
    exact ih (forall_upsert hbase he) hl

/-- Changes keep what holds of all keys. -/
theorem forall_keys_upsertAll {P : κ → Prop} (hbase : ∀ e ∈ base, P e.1) (hl : ∀ e ∈ l, P e.1) :
    ∀ e ∈ upsertAll g base l, P e.1 := by
  intro e he
  rcases mem_keys_upsertAll.mp (mem_map_of_mem he) with hmem | hmem
  · obtain ⟨e', he', heq⟩ := mem_map.mp hmem
    exact heq ▸ hbase e' he'
  · obtain ⟨e', he', heq⟩ := mem_map.mp hmem
    exact heq ▸ hl e' he'

/-- If no key is changed twice, every change is made to the quantity in the base. -/
theorem amount_upsertAll (h : (base.map Prod.fst).Nodup) (hl : (l.map Prod.fst).Nodup) (k : κ) :
    amount (upsertAll g base l) k =
      match l.find? fun e => e.1 = k with
      | none => amount base k
      | some e => g e (amount base k) := by
  induction l generalizing base with
  | nil => rfl
  | cons e l ih =>
    obtain ⟨hnot, hl⟩ := nodup_cons.mp hl
    rw [upsertAll, foldl_cons, ← upsertAll, ih (nodup_upsert h) hl, amount_upsert h]
    by_cases hk : k = e.1
    · subst hk
      have hnone : (l.find? fun e' => e'.1 = e.1) = none :=
        find?_eq_none.mpr fun e' he' heq => hnot (of_decide_eq_true heq ▸ mem_map_of_mem he')
      simp [hnone]
    · simp [hk, Ne.symm hk]

/-- Add the quantities of a tally one after the other. -/
def addAll (w : ℕ) (base l : List (κ × ℕ)) : List (κ × ℕ) :=
  l.foldl (fun base e => upsert e.1 (fun q => (q + e.2) % w) base) base

/-- A sum lists the keys of both tallies. -/
theorem mem_keys_addAll :
    k ∈ (addAll w base l).map Prod.fst ↔ k ∈ base.map Prod.fst ∨ k ∈ l.map Prod.fst :=
  mem_keys_upsertAll

variable (h : (base.map Prod.fst).Nodup)
include h

/-- A sum lists no key twice. -/
theorem nodup_addAll : ((addAll w base l).map Prod.fst).Nodup :=
  nodup_upsertAll h

/-- The quantities are added modulo `w`. -/
theorem amount_addAll_mod (hbase : ∀ k, amount base k < w) (k : κ) :
    amount (addAll w base l) k = (amount base k + amount l k) % w := by
  induction l generalizing base with
  | nil =>
    rw [amount_nil, add_zero, Nat.mod_eq_of_lt (hbase k)]
    rfl
  | cons e l ih =>
    have hstep (k' : κ) : amount (upsert e.1 (fun q => (q + e.2) % w) base) k' =
        (amount base k' + if e.1 = k' then e.2 else 0) % w := by
      rw [amount_upsert h]
      by_cases hk : k' = e.1
      · rw [if_pos hk, if_pos hk.symm, hk]
      · rw [if_neg hk, if_neg (Ne.symm hk), add_zero, Nat.mod_eq_of_lt (hbase k')]
    have hlt (k' : κ) : amount (upsert e.1 (fun q => (q + e.2) % w) base) k' < w := by
      rw [hstep]
      exact Nat.mod_lt _ (Nat.zero_lt_of_lt (hbase k'))
    rw [addAll, foldl_cons, ← addAll, ih (nodup_upsert h) hlt, hstep, amount_cons,
      Nat.mod_add_mod, add_assoc]

end Tension.Tally
