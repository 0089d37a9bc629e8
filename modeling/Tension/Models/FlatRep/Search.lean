import Tension.Core.Probing
import Tension.Models.FlatRep.Table

/-!
# Termination and result of the probing loops

All three loops follow the triangular probe sequence of the table. A slot that
stops a loop is reached within one sweep as soon as some slot of the table is
empty, so the fuel of one unit per slot is never exhausted. Each loop gets one
lemma that names the slot where it stops.
-/

namespace Tension.Gtl

open Probing

namespace Slot

variable {K V : Type*}

/-- The marker is `kEmpty`. -/
@[simp] def isEmpty : Slot K V → Bool
  | empty => true
  | _ => false

/-- The marker is `kDeleted`. -/
@[simp] def isDeleted : Slot K V → Bool
  | deleted => true
  | _ => false

/-- The entry is occupied. -/
@[simp] def isFull : Slot K V → Bool
  | full _ _ _ => true
  | _ => false

end Slot

namespace FlatRep

variable {K V : Type*} {H : Hashing K}

/-- The array has `2 ^ k` entries and the mask selects the low `k` bits. -/
structure Geometry (t : FlatRep K V) (k : Nat) : Prop where
  /-- Number of entries. -/
  length_array : t.array.length = 2 ^ k
  /-- Index mask. -/
  mask_eq : t.mask = 2 ^ k - 1

namespace Geometry

variable {t : FlatRep K V} {k : Nat}

theorem bucketCount_eq (g : t.Geometry k) : t.bucketCount = 2 ^ k := by
  have hp : 0 < 2 ^ k := by positivity
  rw [bucketCount, g.mask_eq]
  omega

theorem and_mask (g : t.Geometry k) (i : Nat) : i &&& t.mask = i % 2 ^ k := by
  rw [g.mask_eq, Nat.and_two_pow_sub_one_eq_mod]

theorem startIndex_eq (g : t.Geometry k) (h : Nat) :
    t.startIndex h = probeAt (2 ^ k) (t.startIndex h) 0 := by
  rw [probeAt_zero]
  rw [startIndex, g.and_mask]
  exact Nat.mod_lt _ (by positivity)

theorem nextIndex_probeAt (g : t.Geometry k) (s j : Nat) :
    t.nextIndex (probeAt (2 ^ k) s j) (j + 1) = probeAt (2 ^ k) s (j + 1) := by
  rw [nextIndex, g.and_mask, probeAt_succ]

theorem probeAt_lt_length (g : t.Geometry k) (s j : Nat) :
    probeAt (2 ^ k) s j < t.array.length := by
  rw [g.length_array]
  exact probeAt_lt (by positivity) s j

theorem getElem?_probeAt (g : t.Geometry k) (s j : Nat) :
    ∃ x, t.array[probeAt (2 ^ k) s j]? = some x :=
  ⟨_, List.getElem?_eq_getElem (g.probeAt_lt_length s j)⟩

end Geometry

/-- The entry stops a search for `k`: it is empty or holds an equal key. -/
def Stops (H : Hashing K) (k : K) (m : Nat) : Slot K V → Prop
  | .empty => True
  | .deleted => False
  | .full x key _ => x = m ∧ H.equal key k = true

/-- What `Find` reports at the entry where it stops. -/
def stopResult (i : Nat) : Slot K V → SearchResult
  | .full _ _ _ => ⟨true, i⟩
  | _ => ⟨false, 0⟩

variable {t : FlatRep K V} {k : Nat}

/-- The slot in which a new entry goes: the first deleted slot before step `d`. -/
def firstDeleted (t : FlatRep K V) (k s : Nat) : Nat → Nat → Option Nat
  | _, 0 => none
  | j, d + 1 =>
    (match t.array[probeAt (2 ^ k) s j]? with
    | some .deleted => some (probeAt (2 ^ k) s j)
    | _ => none).or (firstDeleted t k s (j + 1) d)

/-- A remembered slot is one of the deleted slots that were passed. -/
theorem firstDeleted_some {s : Nat} : ∀ {d j i : Nat}, firstDeleted t k s j d = some i →
    ∃ e < d, i = probeAt (2 ^ k) s (j + e) ∧ t.array[i]? = some .deleted := by
  intro d
  induction d with
  | zero => intro j i h; cases h
  | succ d ih =>
    intro j i h
    rw [firstDeleted, Option.or_eq_some_iff] at h
    rcases h with h | ⟨_, h⟩
    · split at h
      · next he =>
        cases h
        exact ⟨0, by omega, rfl, he⟩
      · cases h
    · obtain ⟨e, he, hi, hdel⟩ := ih h
      exact ⟨e + 1, by omega, by rw [hi, show j + 1 + e = j + (e + 1) by omega], hdel⟩

theorem firstDeleted_succ (s d j : Nat) : firstDeleted t k s j (d + 1) =
    (firstDeleted t k s j d).or (match t.array[probeAt (2 ^ k) s (j + d)]? with
      | some .deleted => some (probeAt (2 ^ k) s (j + d))
      | _ => none) := by
  induction d generalizing j with
  | zero => rw [firstDeleted, firstDeleted, firstDeleted, Option.or_none, Option.none_or, add_zero]
  | succ d ih =>
    rw [firstDeleted, ih, firstDeleted, Option.or_assoc, show j + 1 + d = j + (d + 1) by omega]

/-- What `FindOrInsert` does at the entry where it stops. -/
def stopInsert (t : FlatRep K V) (key : K) (v : V) (m i : Nat) (del : Option Nat) :
    Slot K V → SearchResult × FlatRep K V
  | .full _ _ _ => (⟨true, i⟩, t)
  | _ => t.place key v m i del

section Stop

variable (g : t.Geometry k) (key : K) {m s d n : Nat} (hd : d < n)
  (hbefore : ∀ i < d, ∀ x, t.array[probeAt (2 ^ k) s i]? = some x → ¬ Stops H key m x)
  {x : Slot K V} (hx : t.array[probeAt (2 ^ k) s d]? = some x) (hs : Stops H key m x)
include g hd hbefore hx hs

/-- `Find` reports the first stopping slot of the probe sequence. -/
theorem findLoop_eq :
    t.findLoop H key m n (probeAt (2 ^ k) s 0) 1 = some (stopResult (probeAt (2 ^ k) s d) x) := by
  obtain ⟨fuel, hloop⟩ := exists_fuel_of_steps
    (fun fuel i => t.findLoop H key m fuel (probeAt (2 ^ k) s i) (i + 1)) hd
    fun i hi fuel => by
      obtain ⟨y, hy⟩ := g.getElem?_probeAt s i
      have hns := hbefore i hi y hy
      rw [findLoop, hy, g.nextIndex_probeAt]
      cases y with
      | empty => exact (hns trivial).elim
      | deleted => rfl
      | full z kz vz => exact if_neg hns
  refine hloop.trans ?_
  rw [findLoop, hx]
  cases x with
  | empty => rfl
  | deleted => exact hs.elim
  | full y ky vy => exact if_pos hs

/-- `FindOrInsert` stops at the same slot as `Find` and remembers the first
deleted slot on the way. -/
theorem findOrInsertLoop_eq (v : V) :
    t.findOrInsertLoop H key v m n (probeAt (2 ^ k) s 0) 1 none =
      some (stopInsert t key v m (probeAt (2 ^ k) s d) (firstDeleted t k s 0 d) x) := by
  obtain ⟨fuel, hloop⟩ := exists_fuel_of_steps
    (fun fuel i => t.findOrInsertLoop H key v m fuel (probeAt (2 ^ k) s i) (i + 1)
      (firstDeleted t k s 0 i)) hd
    fun i hi fuel => by
      obtain ⟨y, hy⟩ := g.getElem?_probeAt s i
      have hns := hbefore i hi y hy
      rw [findOrInsertLoop, g.nextIndex_probeAt, firstDeleted_succ, zero_add, hy]
      cases y with
      | empty => exact (hns trivial).elim
      | deleted => rfl
      | full z kz vz =>
        rw [Option.or_none]
        exact if_neg hns
  refine hloop.trans ?_
  rw [findOrInsertLoop, hx]
  cases x with
  | empty => rfl
  | deleted => exact hs.elim
  | full y ky vy => exact if_pos hs

end Stop

/-- `FreshInsert` stores the entry in the first empty slot of the probe sequence. -/
theorem freshInsertLoop_eq (g : t.Geometry k) (key : K) (v : V) {m s d n : Nat} (hd : d < n)
    (hbefore : ∀ i < d, t.array[probeAt (2 ^ k) s i]? ≠ some .empty)
    (hx : t.array[probeAt (2 ^ k) s d]? = some .empty) :
    t.freshInsertLoop key v m n (probeAt (2 ^ k) s 0) 1 = some { t with
      array := t.array.set (probeAt (2 ^ k) s d) (.full m key v)
      notEmpty := (t.notEmpty + 1) % 2 ^ 64 } := by
  obtain ⟨fuel, hloop⟩ := exists_fuel_of_steps
    (fun fuel i => t.freshInsertLoop key v m fuel (probeAt (2 ^ k) s i) (i + 1)) hd
    fun i hi fuel => by
      obtain ⟨y, hy⟩ := g.getElem?_probeAt s i
      rw [freshInsertLoop, hy, g.nextIndex_probeAt]
      cases y with
      | empty => exact (hbefore i hi hy).elim
      | deleted | full _ _ _ => rfl
  refine hloop.trans ?_
  rw [freshInsertLoop, hx]

/-! ## The searches as a whole -/

/-- Some slot of the table is empty. -/
def HasEmpty (t : FlatRep K V) : Prop := Slot.empty ∈ t.array

/-- Some slot of the table stops a search for the key. -/
def Returns (H : Hashing K) (t : FlatRep K V) (key : K) : Prop :=
  ∃ x ∈ t.array, Stops H key (marker (H.hash key &&& 0xff)) x

/-- A stopping slot gives every probe sequence a first one. -/
theorem exists_stop (g : t.Geometry k) {key : K} {m : Nat} (he : ∃ x ∈ t.array, Stops H key m x)
    (s : Nat) :
    ∃ d < 2 ^ k, (∃ x, t.array[probeAt (2 ^ k) s d]? = some x ∧ Stops H key m x) ∧
      ∀ i < d, ∀ x, t.array[probeAt (2 ^ k) s i]? = some x → ¬ Stops H key m x := by
  obtain ⟨x, hmem, hs⟩ := he
  obtain ⟨i, hi, hx⟩ := List.getElem_of_mem hmem
  have hex : ∃ i < 2 ^ k, ∃ x, t.array[i]? = some x ∧ Stops H key m x :=
    ⟨i, g.length_array ▸ hi, x, by rw [List.getElem?_eq_getElem hi, hx], hs⟩
  obtain ⟨d, hd, hstop, hmin⟩ := exists_first_probe hex s
  exact ⟨d, hd, hstop, fun i hi x hx hs => hmin i hi ⟨x, hx, hs⟩⟩

/-- `Find` and `FindOrInsert` return if some slot stops them. They stop at the same slot. -/
theorem search_spec (g : t.Geometry k) {H : Hashing K} {key : K} (he : t.Returns H key) :
    ∃ d x,
      let s := t.startIndex (H.hash key)
      let m := marker (H.hash key &&& 0xff)
      t.array[probeAt (2 ^ k) s d]? = some x ∧ Stops H key m x ∧
      (∀ i < d, ∀ y, t.array[probeAt (2 ^ k) s i]? = some y → ¬ Stops H key m y) ∧
      t.find H key = some (stopResult (probeAt (2 ^ k) s d) x) ∧
      ∀ v, t.findOrInsert H key v = some (stopInsert t key v m (probeAt (2 ^ k) s d)
        (firstDeleted t k s 0 d) x) := by
  obtain ⟨d, hd, ⟨x, hx, hs⟩, hmin⟩ := exists_stop g he (t.startIndex (H.hash key))
  refine ⟨d, x, hx, hs, hmin, ?_, fun v => ?_⟩
  · have h := findLoop_eq g key hd hmin hx hs
    rw [← g.startIndex_eq] at h
    rw [find, g.bucketCount_eq]
    exact h
  · have h := findOrInsertLoop_eq g key hd hmin hx hs v
    rw [← g.startIndex_eq] at h
    rw [findOrInsert, g.bucketCount_eq]
    exact h

/-- `FreshInsert` returns on every table with an empty slot. -/
theorem freshInsert_spec (g : t.Geometry k) (he : t.HasEmpty) (H : Hashing K) (key : K)
    (v : V) : ∃ d,
      let s := t.startIndex (H.hash key)
      t.array[probeAt (2 ^ k) s d]? = some .empty ∧
      (∀ i < d, t.array[probeAt (2 ^ k) s i]? ≠ some .empty) ∧
      t.freshInsert H key v = some { t with
        array := t.array.set (probeAt (2 ^ k) s d) (.full (marker (H.hash key &&& 0xff)) key v)
        notEmpty := (t.notEmpty + 1) % 2 ^ 64 } := by
  obtain ⟨i, hi, hx⟩ := List.getElem_of_mem he
  have hex : ∃ i < 2 ^ k, t.array[i]? = some .empty :=
    ⟨i, g.length_array ▸ hi, by rw [List.getElem?_eq_getElem hi, hx]⟩
  obtain ⟨d, hd, hstop, hmin⟩ := exists_first_probe hex (t.startIndex (H.hash key))
  refine ⟨d, hstop, hmin, ?_⟩
  have h := freshInsertLoop_eq g key v (m := marker (H.hash key &&& 0xff)) hd hmin hstop
  rw [← g.startIndex_eq] at h
  rw [freshInsert, g.bucketCount_eq]
  exact h

end FlatRep

end Tension.Gtl
