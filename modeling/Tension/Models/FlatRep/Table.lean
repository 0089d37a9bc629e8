import Mathlib.Tactic

/-!
# The open-addressed table behind FlatMap and FlatSet

The bucket array is flattened: entry `i` is entry `i & 7` of bucket `i >> 3`.
Counters are `size_t` values, so decrements wrap. The probing loops carry one
unit of fuel per slot; a search that inspects every slot without stopping never
returns, which is the result `none`. The load factors `0.8` and `0.4` are the
exact rationals: on the capacities `8 * 2 ^ lg` of the code the double products
have the same truncations and the same comparisons with integers.
-/

namespace Tension.Gtl

/-- One entry: the marker byte together with the key and the value it guards. -/
inductive Slot (K V : Type*)
  /-- Marker `kEmpty`. -/
  | empty
  /-- Marker `kDeleted`. -/
  | deleted
  /-- Any other marker: the entry is occupied. -/
  | full (marker : Nat) (key : K) (val : V)
  deriving DecidableEq, Repr

/-- The user-supplied hasher and comparator. -/
structure Hashing (K : Type*) where
  hash : K → Nat
  equal : K → K → Bool

/-- The representation shared by FlatMap and FlatSet. -/
structure FlatRep (K V : Type*) where
  /-- The entries of all buckets. -/
  array : List (Slot K V)
  /-- `lg(#buckets)`. -/
  lglen : Nat
  /-- `(# of entries in table) - 1`. -/
  mask : Nat
  /-- Count of entries with marker `!= kEmpty`. -/
  notEmpty : Nat
  /-- Count of entries with marker `== kDeleted`. -/
  deleted : Nat
  /-- Grow array when `not_empty_ >= grow_`. -/
  grow : Nat
  /-- Shrink array when `size() < shrink_`. -/
  shrink : Nat
  deriving DecidableEq, Repr

/-- The result of a search; the index is meaningful only where the code sets it. -/
structure SearchResult where
  /-- Whether an equal key was present. -/
  found : Bool
  /-- Flattened position of the entry. -/
  index : Nat
  deriving DecidableEq, Repr

/-- Wrapping `size_t` subtraction. -/
def sizeSub (a b : Nat) : Nat := (a + 2 ^ 64 - b) % 2 ^ 64

theorem sizeSub_eq {a b : Nat} (hba : b ≤ a) (ha : a < 2 ^ 64) : sizeSub a b = a - b := by
  unfold sizeSub
  omega

/-- `kWidth`, the number of entries of a bucket. -/
def kWidth : Nat := 8

/-- Avoid the `kEmpty` and `kDeleted` markers. -/
def marker (hb : Nat) : Nat := hb + (if hb < 2 then 2 else 0)

namespace FlatRep

variable {K V : Type*} (H : Hashing K)

variable (t : FlatRep K V)

/-- `size()`. -/
def size : Nat := sizeSub t.notEmpty t.deleted

/-- `bucket_count()`. -/
def bucketCount : Nat := t.mask + 1

/-- Quadratic probing. -/
def nextIndex (i numProbes : Nat) : Nat := (i + numProbes) &&& t.mask

/-- Position of the first probe for a hash value. -/
def startIndex (h : Nat) : Nat := (h >>> 8) &&& t.mask

/-- The probing loop of `Find`. -/
def findLoop (t : FlatRep K V) (k : K) (m : Nat) : Nat → Nat → Nat → Option SearchResult
  | 0, _, _ => none
  | fuel + 1, index, numProbes =>
    match t.array[index]? with
    | none => none
    | some .empty => some ⟨false, 0⟩
    | some .deleted => findLoop t k m fuel (t.nextIndex index numProbes) (numProbes + 1)
    | some (.full x key _) =>
      if x = m ∧ H.equal key k then some ⟨true, index⟩
      else findLoop t k m fuel (t.nextIndex index numProbes) (numProbes + 1)

/-- `Find`. -/
def find (k : K) : Option SearchResult :=
  let h := H.hash k
  t.findLoop H k (marker (h &&& 0xff)) t.bucketCount (t.startIndex h) 1

/-- Store a new entry where the search ended: in the first deleted slot that was
passed, otherwise in the empty slot that stopped the search. -/
def place (k : K) (v : V) (m index : Nat) :
    Option Nat → SearchResult × FlatRep K V
  | some d => (⟨false, d⟩,
      { t with array := t.array.set d (.full m k v), deleted := sizeSub t.deleted 1 })
  | none => (⟨false, index⟩,
      { t with array := t.array.set index (.full m k v), notEmpty := (t.notEmpty + 1) % 2 ^ 64 })

/-- The probing loop of `FindOrInsert`; `del` is the first deleted slot seen. -/
def findOrInsertLoop (t : FlatRep K V) (k : K) (v : V) (m : Nat) :
    Nat → Nat → Nat → Option Nat → Option (SearchResult × FlatRep K V)
  | 0, _, _, _ => none
  | fuel + 1, index, numProbes, del =>
    match t.array[index]? with
    | none => none
    | some .empty => some (t.place k v m index del)
    | some .deleted => findOrInsertLoop t k v m fuel (t.nextIndex index numProbes)
        (numProbes + 1) (del.or (some index))
    | some (.full x key _) =>
      if x = m ∧ H.equal key k then some (⟨true, index⟩, t)
      else findOrInsertLoop t k v m fuel (t.nextIndex index numProbes) (numProbes + 1) del

/-- `FindOrInsert`; `v` is the value the caller constructs in a new slot. -/
def findOrInsert (k : K) (v : V) : Option (SearchResult × FlatRep K V) :=
  let h := H.hash k
  t.findOrInsertLoop H k v (marker (h &&& 0xff)) t.bucketCount (t.startIndex h) 1 none

/-- `Erase`. -/
def erase (i : Nat) : FlatRep K V :=
  { t with array := t.array.set i .deleted, deleted := (t.deleted + 1) % 2 ^ 64, grow := 0 }

/-- The sizing loop of `Init`. The product `(1 << lg) * kWidth` is a `uint32`, and
the shift is undefined from `lg = 32` on. -/
def initLoop (n : Nat) : Nat → Nat → Option Nat
  | 0, _ => none
  | fuel + 1, lg =>
    if 4 * (2 ^ lg * kWidth % 2 ^ 32) ≤ 5 * n then initLoop n fuel (lg + 1) else some lg

/-- `Init`. -/
def init (n : Nat) : Option (FlatRep K V) :=
  (initLoop n 32 0).map fun lg =>
    let capacity := 2 ^ lg * kWidth % 2 ^ 32
    let grow := capacity * 4 / 5
    { array := List.replicate capacity .empty
      lglen := lg
      mask := capacity - 1
      notEmpty := 0
      deleted := 0
      grow := grow
      shrink := if lg = 0 then 0 else grow * 2 / 5 }

/-- The probing loop of `FreshInsert`. -/
def freshInsertLoop (t : FlatRep K V) (k : K) (v : V) (m : Nat) :
    Nat → Nat → Nat → Option (FlatRep K V)
  | 0, _, _ => none
  | fuel + 1, index, numProbes =>
    match t.array[index]? with
    | none => none
    | some .empty => some
        { t with array := t.array.set index (.full m k v), notEmpty := (t.notEmpty + 1) % 2 ^ 64 }
    | some _ => freshInsertLoop t k v m fuel (t.nextIndex index numProbes) (numProbes + 1)

/-- `FreshInsert`. -/
def freshInsert (k : K) (v : V) : Option (FlatRep K V) :=
  let h := H.hash k
  t.freshInsertLoop k v (marker (h &&& 0xff)) t.bucketCount (t.startIndex h) 1

/-- `CopyEntries`: re-insert every occupied entry, in storage order. -/
def copyEntries (t : FlatRep K V) : List (Slot K V) → Option (FlatRep K V)
  | [] => some t
  | .full _ k v :: rest => (t.freshInsert H k v).bind fun t' => copyEntries t' rest
  | _ :: rest => copyEntries t rest

/-- `Resize`. -/
def resize (n : Nat) : Option (FlatRep K V) :=
  (init n).bind fun fresh => fresh.copyEntries H t.array

/-- `MaybeResize`. -/
def maybeResize : Option (FlatRep K V) :=
  if t.notEmpty < t.grow then some t
  else if t.grow = 0 ∧ t.shrink ≤ t.size then
    let t' := { t with grow := t.bucketCount * 4 / 5 }
    if t'.notEmpty < t'.grow then some t' else t'.resize H (t'.size + 1)
  else t.resize H (t.size + 1)

/-- `clear_no_resize`: only occupied entries become empty. -/
def clearNoResize : FlatRep K V :=
  { t with
    array := t.array.map fun s => match s with
      | .full _ _ _ => .empty
      | s => s
    notEmpty := 0
    deleted := 0 }

/-- `clear`. -/
def clear : Option (FlatRep K V) :=
  { t.clearNoResize with grow := 0 }.maybeResize H

/-- `CopyFrom` for distinct objects: the old array is destroyed and rebuilt. -/
def copyFrom (src : FlatRep K V) : Option (FlatRep K V) :=
  (init src.size).bind fun fresh => fresh.copyEntries H src.array

end FlatRep

/-! ## FlatMap -/

namespace FlatMap

variable {K V : Type*} (H : Hashing K)

/-- `FlatMap()`. -/
def empty : Option (FlatRep K V) := FlatRep.init 1

variable (t : FlatRep K V)

/-- `Insert`; the flag says whether the key was new. -/
def insert (k : K) (v : V) : Option (Bool × FlatRep K V) :=
  (t.maybeResize H).bind fun t₁ =>
    (t₁.findOrInsert H k v).map fun r => (!r.1.found, r.2)

/-- Assign through a reference to the value stored at position `i`. -/
def setVal (i : Nat) (v : V) : FlatRep K V :=
  match t.array[i]? with
  | some (.full m k _) => { t with array := t.array.set i (.full m k v) }
  | _ => t

/-- `map[k] = v`: `IndexOp` default-constructs a missing value, then it is assigned. -/
def assign [Inhabited V] (t : FlatRep K V) (k : K) (v : V) : Option (FlatRep K V) :=
  (t.maybeResize H).bind fun t₁ =>
    (t₁.findOrInsert H k default).map fun r => setVal r.2 r.1.index v

/-- `erase(k)`; the result counts the erased entries. -/
def erase (k : K) : Option (Nat × FlatRep K V) :=
  (t.find H k).map fun r => if r.found then (1, t.erase r.index) else (0, t)

/-- The entry an iterator at position `i` refers to. -/
def entryAt (i : Nat) : Option (K × V) :=
  match t.array[i]? with
  | some (.full _ k v) => some (k, v)
  | _ => none

/-- `find(k)`; the end iterator is `none`. -/
def find (k : K) : Option (Option (K × V)) :=
  (t.find H k).map fun r => if r.found then entryAt t r.index else none

/-- `reserve`, `rehash` and `resize`. -/
def reserve (n : Nat) : Option (FlatRep K V) :=
  t.resize H (max n t.size)

end FlatMap

end Tension.Gtl
