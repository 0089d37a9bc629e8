import Tension.Core.Census
import Tension.Core.Run
import Tension.Models.FlatRep.Search

/-!
# Occupancy counters and the guaranteed empty slot

`not_empty_` and `deleted_` are maintained incrementally. While they agree with
the markers and the load stays below the growth threshold, some slot is empty and
every search returns. `clear_no_resize` leaves `kDeleted` markers behind and resets
both counters, so it keeps the invariant only on tables without deletions.
-/

namespace Tension.Gtl

open Probing List Option

namespace Slot

variable {K V : Type*}

/-- Every nonempty slot is deleted or occupied, never both. -/
theorem countP_not_isEmpty (l : List (Slot K V)) :
    l.countP (!·.isEmpty) = l.countP isDeleted + l.countP isFull := by
  induction l with
  | nil => rfl
  | cons s l ih =>
    rw [countP_cons, countP_cons, countP_cons, ih]
    cases s <;> simp <;> omega

end Slot

namespace FlatRep

variable {K V : Type*}

/-- Number of slots for a given `lglen_`. -/
def capacity (lg : Nat) : Nat := 2 ^ (lg + 3)

/-- The representation invariant that every constructor establishes. -/
structure WellFormed (t : FlatRep K V) : Prop where
  /-- The 32-bit product `(1 << lglen_) * kWidth` does not wrap. -/
  lg_le : t.lglen ≤ 28
  /-- The array and the mask have the size `lglen_` says. -/
  geometry : t.Geometry (t.lglen + 3)
  /-- `not_empty_` counts the markers that are not `kEmpty`. -/
  notEmpty_eq : t.notEmpty = t.array.countP (!·.isEmpty)
  /-- `deleted_` counts the `kDeleted` markers. -/
  deleted_eq : t.deleted = t.array.countP Slot.isDeleted
  /-- The load never exceeds the growth threshold. -/
  load_le : t.notEmpty ≤ capacity t.lglen * 4 / 5
  /-- `grow_` is the threshold or the special value that asks for a shrink check. -/
  grow_eq : t.grow = 0 ∨ t.grow = capacity t.lglen * 4 / 5

theorem capacity_le {lg : Nat} (h : lg ≤ 28) : capacity lg ≤ 2 ^ 31 :=
  Nat.pow_le_pow_right (by norm_num) (by omega)

namespace WellFormed

variable {t : FlatRep K V}

variable (h : t.WellFormed)
include h

theorem notEmpty_lt : t.notEmpty < 2 ^ 64 := by
  have hc := capacity_le h.lg_le
  have hl := h.load_le
  omega

/-- `size()` is the number of occupied slots. -/
theorem size_eq : t.size = t.array.countP Slot.isFull := by
  have hn := h.notEmpty_lt
  have hs := Slot.countP_not_isEmpty t.array
  rw [size, sizeSub_eq (by rw [h.notEmpty_eq, h.deleted_eq]; omega) hn, h.notEmpty_eq, h.deleted_eq]
  omega

theorem size_add_deleted : t.size + t.deleted = t.notEmpty := by
  rw [h.size_eq, h.deleted_eq, h.notEmpty_eq, Slot.countP_not_isEmpty]
  omega

/-- The load bound leaves an empty slot. -/
theorem hasEmpty : t.HasEmpty := by
  by_contra hno
  have hall : t.array.countP (!·.isEmpty) = t.array.length := by
    rw [countP_eq_length]
    intro s hs
    cases s with
    | empty => exact (hno hs).elim
    | deleted => rfl
    | full m k v => rfl
  have hc : 0 < capacity t.lglen := Nat.two_pow_pos _
  have hl := h.load_le
  rw [h.notEmpty_eq, hall, h.geometry.length_array] at hl
  change capacity t.lglen ≤ _ at hl
  omega

/-- The empty slot stops every search. -/
theorem returns (H : Hashing K) (k : K) : t.Returns H k := ⟨.empty, h.hasEmpty, trivial⟩

/-- Both searches return. -/
theorem search_isSome (H : Hashing K) (k : K) :
    (t.find H k).isSome ∧ ∀ v, (t.findOrInsert H k v).isSome := by
  obtain ⟨d, x, -, -, -, hf, hi⟩ := search_spec h.geometry (h.returns H k)
  simp [hf, hi]

/-- Replacing a slot, with counters that follow. -/
theorem set {i n d g : Nat} {x y : Slot K V} (hi : t.array[i]? = some x)
    (hn : n + (if !x.isEmpty then 1 else 0) = t.notEmpty + if !y.isEmpty then 1 else 0)
    (hd : d + (if x.isDeleted then 1 else 0) = t.deleted + if y.isDeleted then 1 else 0)
    (hload : n ≤ capacity t.lglen * 4 / 5) (hg : g = 0 ∨ g = capacity t.lglen * 4 / 5) :
    WellFormed { t with array := t.array.set i y, notEmpty := n, deleted := d, grow := g } := by
  refine ⟨h.lg_le, ⟨by simpa using h.geometry.length_array, h.geometry.mask_eq⟩, ?_, ?_, hload, hg⟩
  · have hcount := Census.countP_set_add hi y (!·.isEmpty)
    rw [h.notEmpty_eq, ← hcount] at hn
    exact Nat.add_right_cancel hn
  · have hcount := Census.countP_set_add hi y Slot.isDeleted
    rw [h.deleted_eq, ← hcount] at hd
    exact Nat.add_right_cancel hd

/-- Replacing an empty slot by an occupied one. -/
theorem fill_empty {i m : Nat} {k : K} {v : V} (hi : t.array[i]? = some .empty)
    (hload : t.notEmpty < capacity t.lglen * 4 / 5) : WellFormed { t with
      array := t.array.set i (.full m k v), notEmpty := (t.notEmpty + 1) % 2 ^ 64 } := by
  have hc := capacity_le h.lg_le
  have hmod : (t.notEmpty + 1) % 2 ^ 64 = t.notEmpty + 1 := Nat.mod_eq_of_lt (by omega)
  rw [hmod]
  exact h.set hi rfl rfl hload h.grow_eq

/-- Reusing a deleted slot. -/
theorem fill_deleted {i m : Nat} {k : K} {v : V} (hi : t.array[i]? = some .deleted) :
    WellFormed { t with
      array := t.array.set i (.full m k v), deleted := sizeSub t.deleted 1 } := by
  have hpos : 0 < t.deleted := by
    rw [h.deleted_eq]
    exact countP_pos_iff.mpr ⟨_, mem_of_getElem? hi, rfl⟩
  have hsum := h.size_add_deleted
  have hn := h.notEmpty_lt
  rw [sizeSub_eq hpos (by omega)]
  exact h.set hi rfl (Nat.sub_add_cancel hpos) h.load_le h.grow_eq

/-- Rewriting the value of an occupied slot. -/
theorem refill {i m m' : Nat} {k k' : K} {v v' : V} (hi : t.array[i]? = some (.full m k v)) :
    WellFormed { t with array := t.array.set i (.full m' k' v') } :=
  h.set hi rfl rfl h.load_le h.grow_eq

/-- `Erase` of an occupied slot. -/
theorem erase {i m : Nat} {k : K} {v : V} (hi : t.array[i]? = some (.full m k v)) :
    (t.erase i).WellFormed := by
  have hsum := h.size_add_deleted
  have hc := capacity_le h.lg_le
  have hl := h.load_le
  have hmod : (t.deleted + 1) % 2 ^ 64 = t.deleted + 1 := Nat.mod_eq_of_lt (by omega)
  rw [FlatRep.erase, hmod]
  exact h.set hi rfl rfl hl (.inl rfl)

/-- `grow_` may be recomputed at any time. -/
theorem setGrow {g : Nat} (hg : g = 0 ∨ g = capacity t.lglen * 4 / 5) :
    WellFormed { t with grow := g } :=
  { h with geometry := { h.geometry with }, grow_eq := hg }

end WellFormed

/-! ## Construction and growth -/

/-- `Init(n)` fits when its sizing loop ends before the 32-bit product wraps. -/
def Fits (n : Nat) : Prop := 5 * n < 2 ^ 33

instance (n : Nat) : Decidable (Fits n) := inferInstanceAs (Decidable (_ < _))

theorem shift_mul_kWidth {lg : Nat} (h : lg ≤ 28) : 2 ^ lg * kWidth % 2 ^ 32 = capacity lg := by
  have hle := capacity_le h
  have he : 2 ^ lg * kWidth = capacity lg := by rw [capacity, pow_add]; rfl
  rw [he]
  exact Nat.mod_eq_of_lt (by omega)

/-- The product never exceeds `2 ^ 31`: past `lg = 28` it wraps to zero. -/
theorem shift_mul_kWidth_le (lg : Nat) : 2 ^ lg * kWidth % 2 ^ 32 ≤ 2 ^ 31 := by
  rcases lt_or_ge 28 lg with h | h
  · obtain ⟨e, rfl⟩ := Nat.exists_eq_add_of_le (show 29 ≤ lg by omega)
    have he : 2 ^ (29 + e) * kWidth = 2 ^ 32 * 2 ^ e := by rw [kWidth]; ring
    rw [he, Nat.mul_mod_right]
    positivity
  · rw [shift_mul_kWidth h]
    exact capacity_le h

variable {n : Nat} {t : FlatRep K V}

/-- The sizing loop ends at the first capacity with load below four fifths. -/
theorem initLoop_eq (hn : Fits n) : ∀ {f l : Nat}, l + f = 32 → l ≤ 28 →
    ∃ r, initLoop n f l = some r ∧ r ≤ 28 ∧ 5 * n < 4 * capacity r := by
  unfold Fits at hn
  intro fuel
  induction fuel with
  | zero => intro lg h h28; omega
  | succ fuel ih =>
    intro lg h h28
    rw [initLoop, shift_mul_kWidth h28]
    split
    · refine ih (by omega) ?_
      by_contra hgt
      have he : lg = 28 := by omega
      subst he
      have hc : capacity 28 = 2 ^ 31 := rfl
      omega
    · next hgt => exact ⟨lg, rfl, h28, by omega⟩

/-- Beyond the 32-bit range the sizing loop has no defined end. -/
theorem initLoop_eq_none (hn : ¬ Fits n) (fuel lg : Nat) : initLoop n fuel lg = none := by
  unfold Fits at hn
  induction fuel generalizing lg with
  | zero => rfl
  | succ fuel ih =>
    have h := shift_mul_kWidth_le lg
    rw [initLoop, if_pos (by omega), ih]

/-- `Init` returns exactly on the sizes that fit. -/
theorem init_isSome_iff (n : Nat) : (init n : Option (FlatRep K V)).isSome ↔ Fits n := by
  constructor
  · intro h
    by_contra hn
    rw [init, initLoop_eq_none hn] at h
    cases h
  · intro hn
    obtain ⟨r, hr, -, -⟩ := initLoop_eq hn (f := 32) rfl (by omega)
    simp [init, hr]

/-- `Init` builds an empty table with room for `n` entries. -/
theorem init_spec (hn : Fits n) : ∃ t : FlatRep K V, init n = some t ∧
    t.WellFormed ∧ t.notEmpty = 0 ∧ t.array = List.replicate (capacity t.lglen) .empty ∧
    5 * n < 4 * capacity t.lglen := by
  obtain ⟨r, hr, h28, hload⟩ := initLoop_eq hn (f := 32) rfl (by omega)
  have hinit : (init n : Option (FlatRep K V)) = some
      { array := replicate (capacity r) .empty, lglen := r, mask := capacity r - 1,
        notEmpty := 0, deleted := 0, grow := capacity r * 4 / 5,
        shrink := if r = 0 then 0 else capacity r * 4 / 5 * 2 / 5 } := by
    rw [init, hr, map_some]
    rw [shift_mul_kWidth h28]
  refine ⟨_, hinit, ⟨h28, ⟨length_replicate, rfl⟩, ?_, ?_, Nat.zero_le _, Or.inr rfl⟩,
    rfl, rfl, hload⟩
  · simp [countP_replicate]
  · simp [countP_replicate]

variable (H : Hashing K)

/-- `FreshInsert` adds one entry when the load allows it. -/
theorem WellFormed.freshInsert (h : t.WellFormed) (k : K) (v : V)
    (hload : 5 * (t.notEmpty + 1) < 4 * capacity t.lglen) :
    ∃ t', t.freshInsert H k v = some t' ∧ t'.WellFormed ∧ t'.notEmpty = t.notEmpty + 1 ∧
      t'.lglen = t.lglen := by
  obtain ⟨d, hd, -, he⟩ := freshInsert_spec h.geometry h.hasEmpty H k v
  have hc := capacity_le h.lg_le
  exact ⟨_, he, h.fill_empty hd (by omega), Nat.mod_eq_of_lt (by omega), rfl⟩

/-- `CopyEntries` transfers every occupied entry of the source. -/
theorem WellFormed.copyEntries (h : t.WellFormed) (src : List (Slot K V))
    (hload : 5 * (t.notEmpty + src.countP Slot.isFull) < 4 * capacity t.lglen) :
    ∃ t', t.copyEntries H src = some t' ∧ t'.WellFormed ∧
      t'.notEmpty = t.notEmpty + src.countP Slot.isFull ∧ t'.lglen = t.lglen := by
  induction src generalizing t with
  | nil => exact ⟨t, rfl, h, rfl, rfl⟩
  | cons s src ih =>
    cases s with
    | empty => simpa [FlatRep.copyEntries] using ih h (by simpa using hload)
    | deleted => simpa [FlatRep.copyEntries] using ih h (by simpa using hload)
    | full m k v =>
      rw [countP_cons_of_pos (by rfl)] at hload ⊢
      obtain ⟨t₁, h₁, hw₁, hn₁, hl₁⟩ := h.freshInsert H k v (by omega)
      obtain ⟨t₂, h₂, hw₂, hn₂, hl₂⟩ := ih hw₁ (by rw [hl₁]; omega)
      exact ⟨t₂, by rw [FlatRep.copyEntries, h₁, bind_some, h₂], hw₂, by omega, hl₂.trans hl₁⟩

/-- Building a fresh table for `n` entries out of any slot list that holds at most `n`. -/
theorem rebuild_spec (hn : Fits n) (src : List (Slot K V)) (hsrc : src.countP Slot.isFull ≤ n) :
    ∃ t, (init n).bind (fun fresh => fresh.copyEntries H src) = some t ∧ t.WellFormed ∧
      t.notEmpty = src.countP Slot.isFull ∧ 5 * n < 4 * capacity t.lglen := by
  obtain ⟨t₀, h₀, hw₀, hn₀, -, hl₀⟩ := init_spec hn
  obtain ⟨t, h, hw, hne, hl⟩ := hw₀.copyEntries H src (by omega)
  exact ⟨t, by rw [h₀, bind_some, h], hw, by omega, hl ▸ hl₀⟩

/-- The room `MaybeResize` leaves for one more entry. -/
def HasRoom (t : FlatRep K V) : Prop := t.notEmpty < capacity t.lglen * 4 / 5

section

variable (h : t.WellFormed)
include h

/-- `MaybeResize` keeps the array or rebuilds it, and leaves room for one entry. -/
theorem WellFormed.maybeResize_cases (hfit : Fits (t.size + 1)) :
    ∃ t', t.maybeResize H = some t' ∧ t'.WellFormed ∧ t'.HasRoom ∧
      ((∃ g, t' = { t with grow := g }) ∨ t.resize H (t.size + 1) = some t') := by
  have hrebuild : ∃ t', t.resize H (t.size + 1) = some t' ∧ t'.WellFormed ∧ t'.HasRoom ∧
      ((∃ g, t' = { t with grow := g }) ∨ t.resize H (t.size + 1) = some t') := by
    obtain ⟨t', h', hw, hn, hl⟩ := rebuild_spec H hfit t.array (by rw [h.size_eq]; omega)
    refine ⟨t', h', hw, ?_, .inr h'⟩
    have hs := h.size_eq
    unfold HasRoom
    omega
  rw [maybeResize]
  split
  · refine ⟨t, rfl, h, ?_, Or.inl ⟨t.grow, rfl⟩⟩
    have hg := h.grow_eq
    unfold HasRoom
    omega
  · split
    · dsimp only
      split
      · next hlt =>
        have hcount : t.bucketCount = capacity t.lglen := h.geometry.bucketCount_eq
        rw [hcount] at hlt
        exact ⟨_, rfl, h.setGrow (Or.inr (by rw [hcount])), hlt, Or.inl ⟨_, rfl⟩⟩
      · exact hrebuild
    · exact hrebuild

/-- `FindOrInsert` on a table with room keeps the counters exact, and the returned
position is occupied. -/
theorem WellFormed.findOrInsert (hr : t.HasRoom) (k : K) (v : V) :
    ∃ r, t.findOrInsert H k v = some r ∧ r.2.WellFormed ∧
      ∃ m k' v', r.2.array[r.1.index]? = some (.full m k' v') := by
  obtain ⟨d, x, hx, hs, -, -, he⟩ := search_spec h.geometry (h.returns H k)
  refine ⟨_, he v, ?_⟩
  cases x with
  | deleted => exact hs.elim
  | full m k' v' => exact ⟨h, m, k', v', hx⟩
  | empty =>
    cases hf : firstDeleted t (t.lglen + 3) (t.startIndex (H.hash k)) 0 d with
    | none =>
      obtain ⟨hlt, -⟩ := List.getElem?_eq_some_iff.mp hx
      exact ⟨h.fill_empty hx hr, _, k, v, getElem?_set_self hlt⟩
    | some i =>
      obtain ⟨e, -, -, hdel⟩ := firstDeleted_some hf
      obtain ⟨hlt, -⟩ := List.getElem?_eq_some_iff.mp hdel
      exact ⟨h.fill_deleted hdel, _, k, v, getElem?_set_self hlt⟩

/-- An insertion below the capacity limit returns and keeps the counters exact. -/
theorem WellFormed.insert (hfit : Fits (t.size + 1)) (k : K) (v : V) :
    ∃ r, FlatMap.insert H t k v = some r ∧ r.2.WellFormed := by
  obtain ⟨t₁, h₁, hw₁, hr₁, -⟩ := h.maybeResize_cases H hfit
  obtain ⟨r, h₂, hw₂, -⟩ := hw₁.findOrInsert H hr₁ k v
  exact ⟨_, by rw [FlatMap.insert, h₁, bind_some, h₂]; rfl, hw₂⟩

/-- `Resize` to any size that fits and covers the current entries. -/
theorem WellFormed.resize (hn : Fits n) (hs : t.size ≤ n) :
    ∃ t', t.resize H n = some t' ∧ t'.WellFormed := by
  obtain ⟨t', h', hw, -⟩ := rebuild_spec H hn t.array (by rw [← h.size_eq]; exact hs)
  exact ⟨t', h', hw⟩

/-- The load bound makes the size of a well-formed table fit. -/
theorem WellFormed.fits_size : Fits t.size := by
  have hc := capacity_le h.lg_le
  have hl := h.load_le
  have hsum := h.size_add_deleted
  unfold Fits
  omega

theorem WellFormed.fits_max (hn : Fits n) : Fits (max n t.size) := by
  have hs := h.fits_size
  unfold Fits at *
  omega

/-- `clear_no_resize` keeps the counters exact when nothing was deleted. -/
theorem WellFormed.clearNoResize (hd : t.deleted = 0) : t.clearNoResize.WellFormed := by
  have hnone : ∀ s ∈ t.array, s.isDeleted = false := by
    have hz := h.deleted_eq.symm.trans hd
    intro s hs
    simpa using countP_eq_zero.mp hz s hs
  have hall : ∀ s ∈ t.clearNoResize.array, s = .empty := by
    intro s hs
    obtain ⟨x, hx, rfl⟩ := mem_map.mp hs
    cases x with
    | empty => rfl
    | deleted => exact absurd (hnone _ hx) (by simp)
    | full m k v => rfl
  refine ⟨h.lg_le, ⟨by simpa [FlatRep.clearNoResize] using h.geometry.length_array,
    h.geometry.mask_eq⟩, ?_, ?_, Nat.zero_le _, h.grow_eq⟩
  · exact (countP_eq_zero.mpr fun s hs => by simp [hall s hs]).symm
  · exact (countP_eq_zero.mpr fun s hs => by simp [hall s hs]).symm

end

/-- No occupied entry survives `clear_no_resize`. -/
theorem countP_isFull_clearNoResize (t : FlatRep K V) :
    t.clearNoResize.array.countP Slot.isFull = 0 := by
  rw [countP_eq_zero]
  intro s hs
  obtain ⟨x, -, rfl⟩ := mem_map.mp hs
  cases x <;> simp

theorem size_clearNoResize (t : FlatRep K V) (g : Nat) :
    ({ t.clearNoResize with grow := g } : FlatRep K V).size = 0 :=
  sizeSub_eq le_rfl (by simp [FlatRep.clearNoResize])

/-- `clear` rebuilds every table that may shrink, whatever its markers are. -/
theorem WellFormed.clear (h : t.WellFormed)
    (hd : t.deleted = 0 ∨ t.shrink ≠ 0) : ∃ t', t.clear H = some t' ∧ t'.WellFormed := by
  by_cases hsh : t.shrink = 0
  · have hw := (h.clearNoResize (hd.resolve_right (by simpa using hsh))).setGrow (Or.inl rfl)
    obtain ⟨t', h', hw', -⟩ := hw.maybeResize_cases H (by rw [size_clearNoResize]; decide)
    exact ⟨t', h', hw'⟩
  · obtain ⟨t', h', hw, -⟩ := rebuild_spec H (show Fits (0 + 1) by decide)
      t.clearNoResize.array (by rw [countP_isFull_clearNoResize]; omega)
    refine ⟨t', ?_, hw⟩
    rw [FlatRep.clear, FlatRep.maybeResize, if_neg (Nat.not_lt_zero _), size_clearNoResize,
      if_neg (fun hc => hsh (Nat.le_zero.mp hc.2))]
    exact h'

end FlatRep

/-! ## Operations on a family of tables -/

open FlatRep

/-- The operations of FlatMap and FlatSet on tables named by `ι`. -/
inductive Op (ι K V : Type*)
  /-- `insert`. -/
  | insert (i : ι) (k : K) (v : V)
  /-- `operator[]` followed by an assignment. -/
  | index (i : ι) (k : K) (v : V)
  /-- `erase` by key. -/
  | erase (i : ι) (k : K)
  /-- `erase` by iterator, at a position of the array. -/
  | eraseAt (i : ι) (pos : Nat)
  /-- `find`. -/
  | find (i : ι) (k : K)
  /-- `clear`. -/
  | clear (i : ι)
  /-- `clear_no_resize`. -/
  | clearNoResize (i : ι)
  /-- `reserve`, `rehash` and `resize`. -/
  | reserve (i : ι) (n : Nat)
  /-- `operator=`. -/
  | copyAssign (dst src : ι)
  /-- `swap`; the hashers stay with their tables. -/
  | swap (i j : ι)

section Tables

variable {ι K V : Type*} [DecidableEq ι] [Inhabited V] (H : ι → Hashing K)

variable (w : ι → FlatRep K V)

/-- One operation; `none` when the operation does not return. -/
def step : Op ι K V → Option (ι → FlatRep K V)
  | .insert i k v => (FlatMap.insert (H i) (w i) k v).map fun r => Function.update w i r.2
  | .index i k v => (FlatMap.assign (H i) (w i) k v).map fun t => Function.update w i t
  | .erase i k => (FlatMap.erase (H i) (w i) k).map fun r => Function.update w i r.2
  | .eraseAt i pos => some (Function.update w i ((w i).erase pos))
  | .find i k => (FlatMap.find (H i) (w i) k).map fun _ => w
  | .clear i => ((w i).clear (H i)).map fun t => Function.update w i t
  | .clearNoResize i => some (Function.update w i (w i).clearNoResize)
  | .reserve i n => (FlatMap.reserve (H i) (w i) n).map fun t => Function.update w i t
  | .copyAssign dst src =>
    if dst = src then some w
    else ((w src).copyFrom (H dst)).map fun t => Function.update w dst t
  | .swap i j => some (Function.update (Function.update w i (w j)) j (w i))

/-- The operations that keep the counters exact: room below the 32-bit capacity
limit, valid iterators, and no clearing in place of a table that has deletions. -/
def Safe : Op ι K V → Prop
  | .insert i _ _ | .index i _ _ => Fits ((w i).size + 1)
  | .reserve _ n => Fits n
  | .eraseAt i pos => ∃ s, (w i).array[pos]? = some s ∧ s.isFull
  | .clearNoResize i => (w i).deleted = 0
  | .clear i => (w i).deleted = 0 ∨ (w i).shrink ≠ 0
  | .erase _ _ | .find _ _ | .copyAssign _ _ | .swap _ _ => True

/-- The counters agree with the markers, some slot is empty and both searches return. -/
structure Occupancy (H : Hashing K) (t : FlatRep K V) : Prop where
  /-- `not_empty_`. -/
  notEmpty_eq : t.notEmpty = t.array.countP (!·.isEmpty)
  /-- `deleted_`. -/
  deleted_eq : t.deleted = t.array.countP Slot.isDeleted
  /-- At least one slot is `kEmpty`. -/
  hasEmpty : t.HasEmpty
  /-- `Find` terminates. -/
  find_isSome : ∀ k, (t.find H k).isSome
  /-- `FindOrInsert` terminates. -/
  findOrInsert_isSome : ∀ k v, (t.findOrInsert H k v).isSome

omit [Inhabited V] in
theorem FlatRep.WellFormed.occupancy {t : FlatRep K V} (h : t.WellFormed) (H : Hashing K) :
    Occupancy H t :=
  ⟨h.notEmpty_eq, h.deleted_eq, h.hasEmpty, fun k => (h.search_isSome H k).1,
    fun k => (h.search_isSome H k).2⟩

omit [Inhabited V] in
theorem forall_update {P : FlatRep K V → Prop} {w : ι → FlatRep K V} (hw : ∀ j, P (w j))
    (i : ι) {t : FlatRep K V} (ht : P t) : ∀ j, P (Function.update w i t j) := by
  intro j
  rcases eq_or_ne j i with rfl | hne
  · rwa [Function.update_self]
  · rw [Function.update_of_ne hne]
    exact hw j

omit [Inhabited V] in
theorem FlatRep.WellFormed.setVal {t : FlatRep K V} (h : t.WellFormed) (i : Nat) (v : V) :
    (FlatMap.setVal t i v).WellFormed := by
  unfold FlatMap.setVal
  split
  · next hx => exact h.refill hx
  · exact h

/-- A safe operation returns and keeps every table well formed. -/
theorem step_wellFormed {w : ι → FlatRep K V} (hw : ∀ i, (w i).WellFormed) (op : Op ι K V)
    (hop : Safe w op) : ∃ w', step H w op = some w' ∧ ∀ i, (w' i).WellFormed := by
  cases op with
  | insert i k v =>
    obtain ⟨r, hr, hwr⟩ := (hw i).insert (H i) hop k v
    exact ⟨_, by rw [step, hr]; rfl, forall_update hw i hwr⟩
  | index i k v =>
    obtain ⟨t₁, h₁, hw₁, hr₁, -⟩ := (hw i).maybeResize_cases (H i) hop
    obtain ⟨r, h₂, hw₂, -⟩ := hw₁.findOrInsert (H i) hr₁ k default
    refine ⟨_, ?_, forall_update hw i (hw₂.setVal r.1.index v)⟩
    simp [step, FlatMap.assign, h₁, h₂]
  | erase i k =>
    obtain ⟨d, x, hx, hs, -, he, -⟩ := search_spec (hw i).geometry ((hw i).returns (H i) k)
    cases x with
    | deleted => exact hs.elim
    | empty => exact ⟨_, by rw [step, FlatMap.erase, he]; rfl, forall_update hw i (hw i)⟩
    | full m k' v' =>
      exact ⟨_, by rw [step, FlatMap.erase, he]; rfl, forall_update hw i ((hw i).erase hx)⟩
  | eraseAt i pos =>
    obtain ⟨s, hx, hs⟩ := hop
    cases s with
    | empty => cases hs
    | deleted => cases hs
    | full m k v => exact ⟨_, rfl, forall_update hw i ((hw i).erase hx)⟩
  | find i k =>
    obtain ⟨r, hr⟩ := isSome_iff_exists.mp ((hw i).search_isSome (H i) k).1
    exact ⟨w, by simp [step, FlatMap.find, hr], hw⟩
  | clear i =>
    obtain ⟨t, ht, hwt⟩ := (hw i).clear (H i) hop
    exact ⟨_, by rw [step, ht]; rfl, forall_update hw i hwt⟩
  | clearNoResize i => exact ⟨_, rfl, forall_update hw i ((hw i).clearNoResize hop)⟩
  | reserve i n =>
    obtain ⟨t, ht, hwt⟩ := (hw i).resize (H i) ((hw i).fits_max hop) (le_max_right _ _)
    exact ⟨_, by rw [step, FlatMap.reserve, ht]; rfl, forall_update hw i hwt⟩
  | copyAssign dst src =>
    rw [step]
    split
    · exact ⟨w, rfl, hw⟩
    · obtain ⟨t, ht, hwt⟩ := (hw src).resize (H dst) (hw src).fits_size le_rfl
      exact ⟨_, by rw [show (w src).copyFrom (H dst) = some t from ht]; rfl,
        forall_update hw dst hwt⟩
  | swap i j => exact ⟨_, rfl, forall_update (forall_update hw i (hw j)) j (hw i)⟩

/-- After every sequence of safe operations on newly constructed tables, every
operation has returned and the occupancy invariant holds of every table. -/
theorem occupancy_of_safe_run
    (hinit : ∀ i, ∃ n, FlatRep.init n = some (w i)) (ops : List (Op ι K V))
    (hops : Run.Admissible (step H) Safe w ops) :
    ∃ w', Run.run (step H) w ops = some w' ∧ ∀ i, Occupancy (H i) (w' i) := by
  have hw : ∀ i, (w i).WellFormed := by
    intro i
    obtain ⟨n, hn⟩ := hinit i
    have hfit : Fits n := (init_isSome_iff n).mp (by rw [hn]; rfl)
    obtain ⟨t, ht, hwf, -⟩ := init_spec hfit
    rw [hn] at ht
    exact (some.inj ht) ▸ hwf
  obtain ⟨w', hrun, hw'⟩ := Run.run_total
    (fun w op h ho => step_wellFormed H h op ho) hw hops
  exact ⟨w', hrun, fun i => (hw' i).occupancy (H i)⟩

end Tables

/-- Natural-number keys hashed by themselves. -/
def natHashing : Hashing Nat := ⟨id, (· == ·)⟩

/-- The run theorem applied to an insertion, an erasure and a search. -/
theorem occupancy_after_insert_erase_find : ∃ t : FlatRep Nat Nat, FlatRep.init 1 = some t ∧
      ∃ w', Run.run (step fun _ : Unit => natHashing) (fun _ => t)
        [.insert () 300 1, .erase () 300, .find () 300] = some w' ∧
          ∀ i, Occupancy natHashing (w' i) := by
  refine ⟨_, rfl, occupancy_of_safe_run _ _ (fun _ => ⟨1, rfl⟩) _ ⟨?_, fun _ _ =>
    ⟨trivial, fun _ _ => ⟨trivial, fun _ _ => trivial⟩⟩⟩⟩
  change Fits _
  decide

/-- One insertion, its erasure and `clear_no_resize`: a `kDeleted` marker survives
while `not_empty_` says that every slot is empty. -/
theorem clearNoResize_breaks_occupancy : ∃ t w', FlatRep.init 1 = some t ∧
      Run.run (step fun _ : Unit => natHashing) (fun _ => t)
        [.insert () 300 1, .erase () 300, .clearNoResize ()] = some w' ∧
      ¬ Occupancy (V := Nat) natHashing (w' ()) := by
  refine ⟨_, _, rfl, rfl, fun h => ?_⟩
  exact absurd h.notEmpty_eq (by decide)

end Tension.Gtl
