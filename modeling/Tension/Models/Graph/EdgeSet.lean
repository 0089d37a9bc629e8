import Mathlib.Data.List.Nodup
import Tension.Core.OrderedSet

/-!
# Sets of edges

A small set of edges is stored in place. A set that does not fit is stored as an ordered set of
pointers. Edges are known by their addresses.
-/

namespace Tension.Graphs

open List Option

namespace EdgeSet

/-- `kInline`. -/
def kInline : Nat := 4

/-- `ptrs_`: pointers stored in place, or a `std::set` of them. -/
inductive Ptrs where
  | inline (ptrs : List (Option Nat))
  | set (s : List Nat)
  deriving DecidableEq

/-- The order of a `std::set` of pointers. -/
def before (e e' : Nat) : Bool := e < e'

/-- Elements in place, followed by null pointers. -/
def slots (elems : List Nat) : List (Option Nat) :=
  elems.map some ++ List.replicate (kInline - elems.length) none

namespace Ptrs

/-- Elements in place have no gaps, and an ordered set is ordered. -/
def Valid : Ptrs → Prop
  | inline ptrs => ∃ elems : List Nat, elems.Nodup ∧ elems.length ≤ kInline ∧ ptrs = slots elems
  | set s => s.Pairwise fun e e' => before e e' = true

/-- The elements in the order of iteration. -/
def elems : Ptrs → List Nat
  | inline ptrs => ptrs.filterMap id
  | set s => s

/-- `size`. -/
def size : Ptrs → Nat
  | inline ptrs => ptrs.countP Option.isSome
  | set s => s.length

/-- The element that `begin` points to. -/
def begin? : Ptrs → Option Nat
  | inline ptrs => ptrs[0]?.join
  | set s => s.head?

/-- `insert` into the `std::set`. -/
def insertSet (s : List Nat) (value : Nat) : Ptrs × Bool :=
  (set (OrderedSet.insert before value s), !OrderedSet.contains before value s)

/-- `insert`, with whether the value is new. A full array is converted to a set. -/
def insert (value : Nat) : Ptrs → Ptrs × Bool
  | inline ptrs =>
    if some value ∈ ptrs then (inline ptrs, false)
    else
      match ptrs.findIdx? Option.isNone with
      | some i => (inline (ptrs.set i (some value)), true)
      | none =>
        insertSet ((ptrs.filterMap id).foldl (fun s e => OrderedSet.insert before e s) []) value
  | set s => insertSet s value

/-- `erase`, with the number of elements that were erased. The last element fills the gap. -/
def erase (key : Nat) : Ptrs → Ptrs × Nat
  | inline ptrs =>
    match ptrs.findIdx? (· = some key) with
    | some i =>
      let n := size (inline ptrs)
      (inline ((ptrs.set i (ptrs[n - 1]?.join)).set (n - 1) none), 1)
    | none => (inline ptrs, 0)
  | set s =>
    (set (OrderedSet.erase before key s), if OrderedSet.contains before key s then 1 else 0)

end Ptrs

end EdgeSet

/-- `EdgeSet`. -/
structure EdgeSet where
  ptrs : EdgeSet.Ptrs
  valid : ptrs.Valid

namespace EdgeSet

/-! ## Elements in place -/

section Slots

variable {elems : List Nat} {value key : Nat} {i : Nat}

/-- The elements are read back from their slots. -/
theorem filterMap_slots (elems : List Nat) : (slots elems).filterMap id = elems := by
  simp [slots]

/-- As many slots are in use as there are elements. -/
theorem countP_slots (elems : List Nat) : (slots elems).countP Option.isSome = elems.length := by
  simp [slots, countP_replicate]

/-- The slots hold the elements. -/
theorem mem_slots : some value ∈ slots elems ↔ value ∈ elems := by
  simp [slots]

/-- A slot in use holds the element with its index. -/
theorem getElem?_of_slots (h : (slots elems)[i]? = some (some value)) : elems[i]? = some value := by
  rw [slots, getElem?_append] at h
  split at h
  · simpa using h
  · simp [getElem?_replicate] at h

/-- A new element goes into the first slot that is not in use. -/
theorem slots_concat (h : elems.length < kInline) :
    (slots elems).set elems.length (some value) = slots (elems ++ [value]) := by
  obtain ⟨k, hk⟩ : ∃ k, kInline - elems.length = k + 1 := ⟨kInline - elems.length - 1, by omega⟩
  have hk' : kInline - (elems ++ [value]).length = k := by
    rw [length_append, length_singleton]
    omega
  rw [slots, slots, hk, hk', replicate_succ]
  simp

/-- The first free slot is behind the elements. -/
theorem findIdx?_slots_of_lt (h : elems.length < kInline) :
    (slots elems).findIdx? Option.isNone = some elems.length := by
  have hnone : (elems.map some).findIdx? isNone = none := by simp
  have hpos : 0 < kInline - elems.length := by omega
  rw [slots, findIdx?_append, hnone, findIdx?_replicate, if_pos ⟨hpos, rfl⟩]
  simp

/-- A full array has no free slot. -/
theorem findIdx?_slots_of_full (h : elems.length = kInline) :
    (slots elems).findIdx? Option.isNone = none := by
  simp [slots, h]

/-- The last element is moved to the place of the element that is erased. -/
theorem slots_erase (hlength : elems.length ≤ kInline) (h : elems[i]? = some key) : ∃ rest,
    ((slots elems).set i ((slots elems)[elems.length - 1]?.join)).set (elems.length - 1) none =
      slots rest ∧ elems.Perm (key :: rest) := by
  obtain ⟨l, z, rfl⟩ := (eq_nil_or_concat elems).resolve_left (by rintro rfl; simp at h)
  simp only [concat_eq_append, length_append, length_singleton] at h hlength ⊢
  obtain ⟨k, hk⟩ : ∃ k, kInline - l.length = k + 1 := ⟨kInline - l.length - 1, by omega⟩
  have hslots : slots (l ++ [z]) = l.map some ++ some z :: replicate k none := by
    rw [slots, map_append, append_assoc, length_append, length_singleton,
      show kInline - (l.length + 1) = k by omega]
    rfl
  have hi : i < l.length ∨ i = l.length := by
    have hlt := (List.getElem?_eq_some_iff.mp h).1
    rw [length_append, length_singleton] at hlt
    omega
  refine ⟨l.set i z, ?_, ?_⟩
  · have hrest : slots (l.set i z) = (l.set i z).map some ++ none :: replicate k none := by
      rw [slots, length_set, hk, replicate_succ]
    rw [hslots, hrest]
    rcases hi with hi | rfl
    · rw [set_append_left _ _ (by simpa using hi)]
      simp
    · rw [set_eq_of_length_le (Nat.le_refl _)]
      simp
  · rcases hi with hi | rfl
    · rw [getElem?_append_left hi, getElem?_eq_getElem hi, some.injEq] at h
      obtain ⟨l₁, l₂, hl, -, hset⟩ : ∃ l₁ l₂, l = l₁ ++ l[i] :: l₂ ∧ l₁.length = i ∧
          l.set i z = l₁ ++ z :: l₂ := exists_of_set hi
      rw [hset, hl, h, append_assoc]
      exact perm_middle.trans ((List.Perm.append_left l₁ (perm_append_singleton z l₂)).cons key)
    · rw [getElem?_concat_length, some.injEq] at h
      rw [set_eq_of_length_le (Nat.le_refl _), h]
      exact perm_append_singleton key l

end Slots

/-! ## Ordered sets -/

section OrderedSets

variable {s : List Nat} {value : Nat}

/-- Of two edges one comes first. -/
theorem before_total (e e' : Nat) : before e e' = true ∨ before e' e = true ∨ e = e' := by
  simp only [before, decide_eq_true_iff]
  omega

/-- The order of the edges is transitive. -/
theorem before_trans (a b c : Nat) (h : before a b = true) (h' : before b c = true) :
    before a c = true := by
  rw [before, decide_eq_true_iff] at h h' ⊢
  omega

/-- An edge is not before itself. -/
theorem nodup_of_pairwise_before (h : s.Pairwise fun e e' => before e e' = true) : s.Nodup :=
  h.imp fun h heq => by simp [before, heq] at h

/-- Lookups find the members. -/
theorem contains_iff : OrderedSet.contains before value s = true ↔ value ∈ s := by
  simp only [OrderedSet.contains, List.any_eq_true, before]
  constructor
  · rintro ⟨e, he, h⟩
    obtain rfl : value = e := by
      simp at h
      omega
    exact he
  · exact fun h => ⟨value, h, by simp⟩

/-- An insertion adds its value. -/
theorem mem_insert {e : Nat} : e ∈ OrderedSet.insert before value s ↔ e = value ∨ e ∈ s :=
  OrderedSet.mem_insert fun e _ => before_total value e

/-- Insertions keep the order. -/
theorem pairwise_insert (h : s.Pairwise fun e e' => before e e' = true) :
    (OrderedSet.insert before value s).Pairwise fun e e' => before e e' = true :=
  OrderedSet.pairwise_insert (fun e _ => before_total value e) before_trans h

/-- The elements of the array are inserted one after the other. -/
theorem foldl_insert (l : List Nat) (h : s.Pairwise fun e e' => before e e' = true) :
    (l.foldl (fun s e => OrderedSet.insert before e s) s).Pairwise
        (fun e e' => before e e' = true) ∧
      ∀ e, e ∈ l.foldl (fun s e => OrderedSet.insert before e s) s ↔ e ∈ l ∨ e ∈ s := by
  induction l generalizing s with
  | nil => exact ⟨h, fun e => by simp⟩
  | cons x l ih =>
    have hinsert : (OrderedSet.insert before x s).Pairwise fun e e' => before e e' = true :=
      pairwise_insert h
    obtain ⟨hpairwise, hmem⟩ := ih hinsert
    refine ⟨hpairwise, fun e => ?_⟩
    rw [foldl_cons, hmem, mem_insert, mem_cons]
    tauto

end OrderedSets

/-! ## The operations -/

namespace Ptrs

variable {p : Ptrs} {value key : Nat}

/-- No edge occurs twice. -/
theorem nodup_elems (h : p.Valid) : p.elems.Nodup := by
  cases p with
  | inline ptrs =>
    obtain ⟨l, hl, -, rfl⟩ := h
    rw [elems, filterMap_slots]
    exact hl
  | set s => exact nodup_of_pairwise_before h

/-- `size` counts the elements. -/
theorem size_eq (h : p.Valid) : p.size = p.elems.length := by
  cases p with
  | inline ptrs =>
    obtain ⟨l, -, -, rfl⟩ := h
    rw [size, elems, filterMap_slots, countP_slots]
  | set s => rfl

/-- A set that is not empty has a first element. -/
theorem begin?_eq (h : p.Valid) : p.begin? = p.elems.head? := by
  cases p with
  | inline ptrs =>
    obtain ⟨l, -, -, rfl⟩ := h
    cases l <;> rfl
  | set s => rfl

/-- An insertion into the `std::set`. -/
theorem insertSet_spec {s : List Nat} (h : s.Pairwise fun e e' => before e e' = true) :
    (insertSet s value).1.Valid ∧ ∀ e, e ∈ (insertSet s value).1.elems ↔ e = value ∨ e ∈ s :=
  ⟨pairwise_insert h, fun _ => mem_insert⟩

/-- An insertion adds its value in every representation. -/
theorem insert_spec (h : p.Valid) :
    (p.insert value).1.Valid ∧ ∀ e, e ∈ (p.insert value).1.elems ↔ e = value ∨ e ∈ p.elems := by
  cases p with
  | set s => exact insertSet_spec h
  | inline ptrs =>
    obtain ⟨l, hnodup, hlength, rfl⟩ := id h
    rw [insert]
    split
    · rename_i hmem
      refine ⟨h, fun e => ?_⟩
      rw [mem_slots] at hmem
      rw [elems, filterMap_slots]
      exact ⟨.inr, fun he => he.elim (fun he => he ▸ hmem) id⟩
    · rename_i hmem
      rw [mem_slots] at hmem
      rcases Nat.lt_or_eq_of_le hlength with hlt | hfull
      · rw [findIdx?_slots_of_lt hlt]
        simp only [slots_concat hlt, elems, filterMap_slots]
        refine ⟨⟨l ++ [value], ?_, ?_, rfl⟩, fun e => ?_⟩
        · exact nodup_append.mpr ⟨hnodup, nodup_cons.mpr ⟨nofun, .nil⟩,
            fun x hx y hy hxy => hmem (mem_singleton.mp hy ▸ hxy ▸ hx)⟩
        · rw [length_append]
          exact hlt
        · rw [mem_append, mem_singleton, or_comm]
      · rw [findIdx?_slots_of_full hfull]
        obtain ⟨hpairwise, hmem'⟩ := foldl_insert l .nil
        have helems : (inline (slots l)).elems = l := filterMap_slots l
        simp only [filterMap_slots, helems]
        refine ⟨(insertSet_spec hpairwise).1, fun e => ?_⟩
        rw [(insertSet_spec hpairwise).2, hmem', or_iff_left not_mem_nil]

/-- The insertion of a new value says so. -/
theorem insert_new (h : p.Valid) (hvalue : value ∉ p.elems) : (p.insert value).2 = true := by
  cases p with
  | set s =>
    simp only [insert, insertSet, Bool.not_eq_true', Bool.eq_false_iff, ne_eq, contains_iff]
    exact hvalue
  | inline ptrs =>
    obtain ⟨l, hnodup, hlength, rfl⟩ := h
    rw [elems, filterMap_slots] at hvalue
    rw [insert, if_neg (mem_slots.not.mpr hvalue)]
    rcases Nat.lt_or_eq_of_le hlength with hlt | hfull
    · rw [findIdx?_slots_of_lt hlt]
    · rw [findIdx?_slots_of_full hfull]
      obtain ⟨-, hmem⟩ := foldl_insert l .nil
      simp only [filterMap_slots, insertSet, Bool.not_eq_true', Bool.eq_false_iff, ne_eq,
        contains_iff, hmem]
      simpa using hvalue

/-- An erasure removes its key. -/
theorem mem_erase {s : List Nat} {e : Nat} :
    e ∈ OrderedSet.erase before key s ↔ e ∈ s ∧ e ≠ key := by
  rw [OrderedSet.mem_erase]
  refine and_congr_right fun _ => ?_
  simp only [before, decide_eq_true_iff]
  omega

/-- What is erased from the array. -/
theorem erase_inline {l : List Nat} (hnodup : l.Nodup) (hlength : l.length ≤ kInline)
    (hkey : key ∈ l) : ∃ rest, erase key (inline (slots l)) = (inline (slots rest), 1) ∧
      l.Perm (key :: rest) ∧ rest.Nodup ∧ rest.length ≤ kInline := by
  obtain ⟨i, hi⟩ : ∃ i, (slots l).findIdx? (· = some key) = some i := by
    rw [← isSome_iff_exists, findIdx?_isSome]
    exact any_eq_true.mpr ⟨_, mem_slots.mpr hkey, by simp⟩
  have hplace : l[i]? = some key := by
    obtain ⟨hlt, hentry, -⟩ := findIdx?_eq_some_iff_getElem.mp hi
    exact getElem?_of_slots (by rw [getElem?_eq_getElem hlt, of_decide_eq_true hentry])
  obtain ⟨rest, hrest, hperm⟩ := slots_erase hlength hplace
  have hlength' := hperm.length_eq
  rw [length_cons] at hlength'
  refine ⟨rest, ?_, hperm, (nodup_cons.mp (hperm.nodup hnodup)).2, by omega⟩
  simp [erase, hi, size, countP_slots, hrest]

/-- Erasures keep the representation valid. -/
theorem valid_erase (h : p.Valid) : (p.erase key).1.Valid := by
  cases p with
  | set s => exact OrderedSet.pairwise_erase h
  | inline ptrs =>
    obtain ⟨l, hnodup, hlength, rfl⟩ := id h
    by_cases hkey : key ∈ l
    · obtain ⟨rest, herase, -, hrest⟩ := erase_inline hnodup hlength hkey
      rw [herase]
      exact ⟨rest, hrest.1, hrest.2, rfl⟩
    · have hnone : (slots l).findIdx? (· = some key) = none := by
        rw [findIdx?_eq_none_iff]
        rintro x hx
        refine decide_eq_false ?_
        rintro rfl
        exact hkey (mem_slots.mp hx)
      rw [erase, hnone]
      exact h

/-- Erasing a member says so and leaves the others. -/
theorem erase_spec (h : p.Valid) (hkey : key ∈ p.elems) :
    (p.erase key).2 = 1 ∧ p.elems.Perm (key :: (p.erase key).1.elems) := by
  cases p with
  | set s =>
    refine ⟨if_pos (contains_iff.mpr hkey), ?_⟩
    have hnodup : (key :: OrderedSet.erase before key s).Nodup :=
      nodup_cons.mpr ⟨fun h => (mem_erase.mp h).2 rfl,
        nodup_of_pairwise_before (OrderedSet.pairwise_erase h)⟩
    refine (perm_ext_iff_of_nodup (nodup_elems h) hnodup).mpr fun e => ?_
    rw [mem_cons, mem_erase]
    by_cases he : e = key
    · exact ⟨fun _ => .inl he, fun _ => he ▸ hkey⟩
    · exact ⟨fun h => .inr ⟨h, he⟩, fun h => (h.resolve_left he).1⟩
  | inline ptrs =>
    obtain ⟨l, hnodup, hlength, rfl⟩ := h
    rw [elems, filterMap_slots] at hkey
    obtain ⟨rest, herase, hperm, -⟩ := erase_inline hnodup hlength hkey
    rw [herase]
    refine ⟨rfl, ?_⟩
    simp only [elems, filterMap_slots]
    exact hperm

end Ptrs

/-! ## The sets -/

variable (s : EdgeSet)

/-- The elements in the order of iteration. -/
def elems : List Nat := s.ptrs.elems

/-- The constructor, and `clear`. -/
def empty : EdgeSet := ⟨.inline (slots []), [], .nil, Nat.zero_le _, rfl⟩

/-- `size`. -/
def size : Nat := s.ptrs.size

/-- `empty`. -/
def isEmpty : Bool := s.size = 0

/-- The element that `begin` points to. -/
def begin? : Option Nat := s.ptrs.begin?

/-- `insert`, with whether the value is new. -/
def insert (value : Nat) : EdgeSet × Bool :=
  (⟨(s.ptrs.insert value).1, (Ptrs.insert_spec s.valid).1⟩, (s.ptrs.insert value).2)

/-- `erase`, with the number of elements that were erased. -/
def erase (key : Nat) : EdgeSet × Nat :=
  (⟨(s.ptrs.erase key).1, Ptrs.valid_erase s.valid⟩, (s.ptrs.erase key).2)

variable (s : EdgeSet) {value key : Nat}

/-- `size` counts the elements of a set. -/
theorem size_eq : s.size = s.elems.length := Ptrs.size_eq s.valid

/-- `empty` holds of the set without elements. -/
theorem isEmpty_iff : s.isEmpty = true ↔ s.elems = [] := by
  rw [isEmpty, decide_eq_true_iff, size_eq, length_eq_zero_iff]

/-- An iteration starts at the first element. -/
theorem begin?_eq : s.begin? = s.elems.head? := Ptrs.begin?_eq s.valid

/-- What is in a set after an insertion. -/
theorem mem_insert_iff {e : Nat} : e ∈ (s.insert value).1.elems ↔ e = value ∨ e ∈ s.elems :=
  (Ptrs.insert_spec s.valid).2 e

/-- A new value is reported as inserted. -/
theorem insert_new (h : value ∉ s.elems) : (s.insert value).2 = true := Ptrs.insert_new s.valid h

/-- One member is erased. -/
theorem erase_eq_one (h : key ∈ s.elems) : (s.erase key).2 = 1 := (Ptrs.erase_spec s.valid h).1

/-- What is in a set after an erasure. -/
theorem mem_erase_iff (h : key ∈ s.elems) {e : Nat} :
    e ∈ (s.erase key).1.elems ↔ e ∈ s.elems ∧ e ≠ key := by
  have hperm := (Ptrs.erase_spec s.valid h).2
  have hnodup := nodup_cons.mp (hperm.nodup (Ptrs.nodup_elems s.valid))
  have hmem : e ∈ s.elems ↔ e = key ∨ e ∈ (s.erase key).1.elems := by
    rw [← mem_cons]
    exact hperm.mem_iff
  rw [hmem]
  constructor
  · intro he
    refine ⟨.inr he, ?_⟩
    rintro rfl
    exact hnodup.1 he
  · rintro ⟨he, hne⟩
    exact he.resolve_left hne

end EdgeSet

end Tension.Graphs
