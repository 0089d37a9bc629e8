import Tension.Core.PartialMap
import Tension.Models.FlatRep.Occupancy

/-!
# FlatMap as a finite map modulo key equality

The live entries of a table are unordered. Every occupied slot lies on the probe
sequence of its key with no empty slot before it, so a search that stops at an
empty slot has seen every slot where an equal key could be. Keys are compared
modulo `equal_`, hence the mathematical map is indexed by equality classes.
-/

namespace Tension.Gtl

open Probing FlatRep PartialMap Census List

variable {K V : Type*}

/-- `equal_` is an equivalence that the hash function respects. -/
structure Hashing.Lawful (H : Hashing K) : Prop where
  refl : ∀ a, H.equal a a = true
  symm : ∀ {a b}, H.equal a b = true → H.equal b a = true
  trans : ∀ {a b c}, H.equal a b = true → H.equal b c = true → H.equal a c = true
  hash_eq : ∀ {a b}, H.equal a b = true → H.hash a = H.hash b

/-- Keys modulo `equal_`. -/
def Hashing.Lawful.setoid {H : Hashing K} (h : H.Lawful) : Setoid K :=
  ⟨fun a b => H.equal a b = true, h.refl, h.symm, h.trans⟩

/-- Equality classes of keys. -/
def KeyClass {H : Hashing K} (h : H.Lawful) : Type _ := Quotient h.setoid

/-- The class of a key. -/
def KeyClass.mk {H : Hashing K} (h : H.Lawful) (k : K) : KeyClass h := Quotient.mk h.setoid k

theorem KeyClass.mk_eq_iff {H : Hashing K} (h : H.Lawful) {a b : K} :
    KeyClass.mk h a = KeyClass.mk h b ↔ H.equal a b = true := Quotient.eq

/-- The entry an occupied slot holds. -/
def Slot.entry? : Slot K V → Option (K × V)
  | .full _ k v => some (k, v)
  | _ => none

namespace FlatRep

variable {t : FlatRep K V} {n : Nat}

/-- The occupied entries in storage order. -/
def live (t : FlatRep K V) : List (K × V) := t.array.filterMap Slot.entry?

theorem mem_live {e : K × V} : e ∈ t.live ↔ ∃ i m : Nat, t.array[i]? = some (.full m e.1 e.2) := by
  rw [live, mem_filterMap]
  constructor
  · rintro ⟨s, hs, he⟩
    obtain ⟨i, hi, hx⟩ := getElem_of_mem hs
    cases s with
    | empty => cases he
    | deleted => cases he
    | full m k v =>
      cases he
      exact ⟨i, m, by rw [getElem?_eq_getElem hi, hx]⟩
  · rintro ⟨i, m, hi⟩
    exact ⟨_, mem_of_getElem? hi, rfl⟩

theorem length_live (t : FlatRep K V) : t.live.length = t.array.countP Slot.isFull := by
  rw [live, length_filterMap_eq_countP]
  apply countP_congr
  intro s _
  cases s <;> simp [Slot.entry?]

variable {i : Nat} {s : Slot K V} {t' : FlatRep K V} {k : K} {mk : Nat} {v : V}

/-- Every occupied slot carries the marker of its key and lies on the probe
sequence of its key, with no empty slot before it. -/
def Probed (H : Hashing K) (t : FlatRep K V) (n : Nat) : Prop :=
  ∀ (i m : Nat) (k : K) (v : V), t.array[i]? = some (.full m k v) →
    m = marker (H.hash k &&& 0xff) ∧
    ∃ d, i = probeAt (2 ^ n) (t.startIndex (H.hash k)) d ∧
      ∀ e < d, t.array[probeAt (2 ^ n) (t.startIndex (H.hash k)) e]? ≠ some .empty

variable {H : Hashing K}

/-- Changing one slot to a non-empty one keeps the probe chains connected. -/
theorem Probed.set (hp : t.Probed H n) {p : Nat} (hs : s ≠ .empty)
    (hnew : ∀ m k v, s = .full m k v → m = marker (H.hash k &&& 0xff) ∧
      ∃ d, p = probeAt (2 ^ n) (t.startIndex (H.hash k)) d ∧
        ∀ e < d, t.array[probeAt (2 ^ n) (t.startIndex (H.hash k)) e]? ≠ some .empty)
    (harr : t'.array = t.array.set p s) (hmask : t'.mask = t.mask) : t'.Probed H n := by
  have hstart : ∀ h, t'.startIndex h = t.startIndex h := fun h => by
    rw [startIndex, startIndex, hmask]
  have hkeep : ∀ j : Nat, t.array[j]? ≠ some .empty → t'.array[j]? ≠ some .empty := by
    intro j hj
    rw [harr, getElem?_set]
    split
    · split
      · simpa using hs
      · simp
    · exact hj
  intro i m k v hi
  rw [hstart]
  rw [harr, getElem?_set] at hi
  split at hi
  · next hpi =>
    subst hpi
    split at hi
    · obtain ⟨hm, d, hd, hbefore⟩ := hnew m k v (Option.some.inj hi)
      exact ⟨hm, d, hd, fun e he => hkeep _ (hbefore e he)⟩
    · cases hi
  · obtain ⟨hm, d, hd, hbefore⟩ := hp i m k v hi
    exact ⟨hm, d, hd, fun e he => hkeep _ (hbefore e he)⟩

/-- The entries of a table are those of a map, whatever its counters say. -/
structure Stored (hH : H.Lawful) (t : FlatRep K V) (m : KeyClass hH → Option (K × V)) :
    Prop where
  /-- Array and mask. -/
  geometry : t.Geometry (t.lglen + 3)
  /-- Probe chains. -/
  probed : t.Probed H (t.lglen + 3)
  /-- The live entries are the graph of the map. -/
  represents : Represents (fun e => KeyClass.mk hH e.1) t.live m

/-- The refinement relation between a table and the map it stands for. -/
structure Models (hH : H.Lawful) (t : FlatRep K V) (m : KeyClass hH → Option (K × V)) : Prop
    extends Stored hH t m where
  /-- Counters and load. -/
  wellFormed : t.WellFormed

variable {hH : H.Lawful} {m : KeyClass hH → Option (K × V)}

section

variable (h : t.Stored hH m)
include h

/-- A search that reaches an empty slot first has missed no equal key. -/
theorem Stored.eq_none_of_stop {d : Nat}
    (hd : t.array[probeAt (2 ^ (t.lglen + 3)) (t.startIndex (H.hash k)) d]? = some .empty)
    (hbefore : ∀ e < d, ∀ x,
      t.array[probeAt (2 ^ (t.lglen + 3)) (t.startIndex (H.hash k)) e]? = some x →
        ¬ Stops H k (marker (H.hash k &&& 0xff)) x) : m (KeyClass.mk hH k) = none := by
  refine h.represents.eq_none fun e he hk => ?_
  have hequal : H.equal e.1 k = true := (KeyClass.mk_eq_iff hH).mp hk
  have hhash : H.hash e.1 = H.hash k := hH.hash_eq hequal
  obtain ⟨i, mk, hi⟩ := mem_live.mp he
  obtain ⟨hm, d', hi', hchain⟩ := h.probed i mk e.1 e.2 hi
  rw [hhash] at hm hi' hchain
  rcases lt_trichotomy d' d with hlt | heq | hgt
  · exact hbefore d' hlt (.full mk e.1 e.2) (hi' ▸ hi) ⟨hm, hequal⟩
  · subst heq
    rw [← hi', hi] at hd
    cases hd
  · exact hchain d hgt hd

/-- The class of an occupied slot's key is mapped to the slot's entry. -/
theorem Stored.eq_some_of_slot {k' : K} (hi : t.array[i]? = some (.full mk k' v))
    (hk : H.equal k' k = true) : m (KeyClass.mk hH k) = some (k', v) := by
  have he := h.represents.eq_some (mem_live.mpr ⟨i, mk, hi⟩ : ((k', v) : K × V) ∈ t.live)
  rwa [← (KeyClass.mk_eq_iff hH).mpr hk]

/-- `find` returns the entry of the map. -/
theorem Stored.find (hr : t.Returns H k) :
    FlatMap.find H t k = some (m (KeyClass.mk hH k)) := by
  obtain ⟨d, x, hx, hs, hbefore, he, -⟩ := search_spec h.geometry hr
  rw [FlatMap.find, he]
  cases x with
  | deleted => exact hs.elim
  | empty =>
    rw [h.eq_none_of_stop hx hbefore]
    rfl
  | full mk k' v =>
    rw [h.eq_some_of_slot hx hs.2]
    simp [stopResult, FlatMap.entryAt, hx]

/-- Storing an entry with a new key in a slot that held none. -/
theorem Stored.fill [DecidableEq (KeyClass hH)] {p d : Nat} (hp : t.array[p]? = some s)
    (hs : s.entry? = none) (hd : p = probeAt (2 ^ (t.lglen + 3)) (t.startIndex (H.hash k)) d)
    (hbefore : ∀ e < d,
      t.array[probeAt (2 ^ (t.lglen + 3)) (t.startIndex (H.hash k)) e]? ≠ some .empty)
    (hnone : m (KeyClass.mk hH k) = none)
    (harr : t'.array = t.array.set p (.full (marker (H.hash k &&& 0xff)) k v))
    (hmask : t'.mask = t.mask) (hlg : t'.lglen = t.lglen) :
    t'.Stored hH (Function.update m (KeyClass.mk hH k) (some (k, v))) := by
  refine ⟨?_, ?_, ?_⟩
  · rw [hlg]
    exact ⟨by rw [harr, length_set, h.geometry.length_array], hmask.trans h.geometry.mask_eq⟩
  · rw [hlg]
    refine h.probed.set (by simp) ?_
      harr hmask
    rintro _ _ _ ⟨⟩
    exact ⟨rfl, d, hd, hbefore⟩
  · have hperm := census_set (g := Slot.entry?) hp (.full (marker (H.hash k &&& 0xff)) k v)
    rw [hs] at hperm
    have hlive : t'.live = (t.array.set p (.full (marker (H.hash k &&& 0xff)) k v)).filterMap
        Slot.entry? := by rw [live, harr]
    rw [hlive]
    exact (h.represents.cons hnone).perm hperm.symm

/-- `FindOrInsert` finds the entry of the map or adds one. What holds of a table with one more
entry, in an empty or a deleted slot, holds of the new table. -/
theorem Stored.findOrInsert [DecidableEq (KeyClass hH)] {I : FlatRep K V → Prop} (v : V)
    (hempty : ∀ i m, t.array[i]? = some .empty → I { t with
      array := t.array.set i (.full m k v), notEmpty := (t.notEmpty + 1) % 2 ^ 64 })
    (hdeleted : ∀ i m, t.array[i]? = some .deleted → I { t with
      array := t.array.set i (.full m k v), deleted := sizeSub t.deleted 1 })
    (hr : t.Returns H k) : ∃ r, t.findOrInsert H k v = some r ∧
      ((∃ mk k' v', m (KeyClass.mk hH k) = some (k', v') ∧ r.1.found = true ∧ r.2 = t ∧
        t.array[r.1.index]? = some (.full mk k' v')) ∨
      (∃ mk, m (KeyClass.mk hH k) = none ∧ r.1.found = false ∧
        r.2.Stored hH (Function.update m (KeyClass.mk hH k) (some (k, v))) ∧ I r.2 ∧
        r.2.array[r.1.index]? = some (.full mk k v))) := by
  obtain ⟨d, x, hx, hs, hbefore, -, he⟩ := search_spec h.geometry hr
  have hchain : ∀ e ≤ d, ∀ i < e,
      t.array[probeAt (2 ^ (t.lglen + 3)) (t.startIndex (H.hash k)) i]? ≠ some .empty :=
    fun e hed i hi hempty => hbefore i (by omega) _ hempty trivial
  refine ⟨_, he v, ?_⟩
  cases x with
  | deleted => exact hs.elim
  | full mk k' v' => exact Or.inl ⟨mk, k', v', h.eq_some_of_slot hx hs.2, rfl, rfl, hx⟩
  | empty =>
    have hnone := h.eq_none_of_stop hx hbefore
    cases hf : firstDeleted t (t.lglen + 3) (t.startIndex (H.hash k)) 0 d with
    | none =>
      obtain ⟨hlt, -⟩ := List.getElem?_eq_some_iff.mp hx
      exact Or.inr ⟨_, hnone, rfl, h.fill hx rfl rfl (hchain d le_rfl) hnone rfl rfl rfl,
        hempty _ _ hx, getElem?_set_self hlt⟩
    | some i =>
      obtain ⟨e, hed, hie, hdel⟩ := firstDeleted_some hf
      rw [zero_add] at hie
      obtain ⟨hlt, -⟩ := List.getElem?_eq_some_iff.mp hdel
      exact Or.inr ⟨_, hnone, rfl, h.fill hdel rfl hie (hchain e hed.le) hnone rfl rfl rfl,
        hdeleted _ _ hdel, getElem?_set_self hlt⟩

/-- Assigning to the value of an occupied slot. -/
theorem Stored.setVal [DecidableEq (KeyClass hH)] (hi : t.array[i]? = some (.full mk k v))
    (v' : V) : (FlatMap.setVal t i v').Stored hH
      (Function.update m (KeyClass.mk hH k) (some (k, v'))) := by
  have hset : FlatMap.setVal t i v' = { t with array := t.array.set i (.full mk k v') } := by
    simp [FlatMap.setVal, hi]
  rw [hset]
  refine ⟨⟨by rw [length_set, h.geometry.length_array], h.geometry.mask_eq⟩, ?_, ?_⟩
  · refine h.probed.set (by simp) ?_ rfl rfl
    rintro _ _ _ ⟨⟩
    exact h.probed i mk k v hi
  · have hold := census_set (g := Slot.entry?) hi .deleted
    have hnew := census_set (g := Slot.entry?)
      (List.getElem?_set_self (a := .deleted) (List.getElem?_eq_some_iff.mp hi).1) (.full mk k v')
    rw [set_set] at hnew
    exact ((h.represents.perm hold.symm).replace (x := (k, v')) rfl).perm hnew.symm

/-- Erasing an occupied slot removes its key from the map. -/
theorem Stored.erase [DecidableEq (KeyClass hH)] (hi : t.array[i]? = some (.full mk k v)) :
    (t.erase i).Stored hH (Function.update m (KeyClass.mk hH k) none) := by
  refine ⟨⟨(length_set ..).trans h.geometry.length_array, h.geometry.mask_eq⟩, ?_, ?_⟩
  · exact h.probed.set (by simp) (by rintro _ _ _ ⟨⟩) rfl rfl
  · have hold := census_set (g := Slot.entry?) hi .deleted
    exact (h.represents.perm hold.symm).tail

/-- `grow_` plays no part in what is stored. -/
theorem Stored.setGrow (g : Nat) : Stored hH { t with grow := g } m :=
  ⟨{ h.geometry with }, h.probed, h.represents⟩

end

/-- `size()` is the number of keys of the map. -/
theorem Models.size_eq (h : t.Models hH m) : t.size = {q | m q ≠ none}.ncard := by
  rw [h.wellFormed.size_eq, h.represents.ncard, length_live]

/-! ## Rebuilding -/

/-- A table of empty slots stands for the empty map. -/
theorem probed_of_replicate {c : Nat} (h : t.array = replicate c .empty) :
    t.Probed H n ∧ t.live = [] := by
  refine ⟨fun i mk k v hi => ?_, by rw [live, h, filterMap_replicate_of_none rfl]⟩
  rw [h, getElem?_replicate] at hi
  split at hi <;> cases hi

/-- `CopyEntries` puts every occupied entry of the source on its probe chain. -/
theorem WellFormed.copyEntries_live (h : t.WellFormed) (hp : t.Probed H (t.lglen + 3))
    (src : List (Slot K V))
    (hload : 5 * (t.notEmpty + src.countP Slot.isFull) < 4 * capacity t.lglen)
    (he : t.copyEntries H src = some t') :
    t'.Probed H (t'.lglen + 3) ∧ t'.live.Perm (src.filterMap Slot.entry? ++ t.live) := by
  induction src generalizing t with
  | nil =>
    cases he
    exact ⟨hp, List.Perm.refl _⟩
  | cons s src ih =>
    cases s with
    | empty => exact ih h hp (by simpa using hload) he
    | deleted => exact ih h hp (by simpa using hload) he
    | full mk k v =>
      rw [countP_cons_of_pos (by rfl)] at hload
      obtain ⟨t₁, h₁, hw₁, hn₁, hl₁⟩ := h.freshInsert H k v (by omega)
      obtain ⟨d, hd, hbefore, hins⟩ := freshInsert_spec h.geometry h.hasEmpty H k v
      rw [h₁] at hins
      have hp₁ : t₁.Probed H (t₁.lglen + 3) := by
        rw [hl₁]
        refine hp.set (s := .full (marker (H.hash k &&& 0xff)) k v) (by simp) ?_
          (by rw [Option.some.inj hins]) (by rw [Option.some.inj hins])
        rintro _ _ _ ⟨⟩
        exact ⟨rfl, d, rfl, hbefore⟩
      have hlive : t₁.live.Perm ((k, v) :: t.live) := by
        have hperm := census_set (g := Slot.entry?) hd (.full (marker (H.hash k &&& 0xff)) k v)
        rw [Option.some.inj hins]
        exact hperm
      rw [FlatRep.copyEntries, h₁] at he
      obtain ⟨hp₂, hlive₂⟩ := ih hw₁ hp₁ (by rw [hl₁]; omega) he
      refine ⟨hp₂, hlive₂.trans ((hlive.append_left _).trans ?_)⟩
      exact perm_middle

/-- `Resize` keeps the map and makes the counters exact. -/
theorem Stored.resize (h : t.Stored hH m) {n : Nat} (hn : Fits n)
    (hcount : t.array.countP Slot.isFull ≤ n) : ∃ t', t.resize H n = some t' ∧ t'.Models hH m := by
  obtain ⟨t', he, hw, -⟩ := rebuild_spec H hn t.array hcount
  obtain ⟨t₀, h₀, hw₀, hn₀, harr, hl₀⟩ := init_spec (V := V) hn
  obtain ⟨hp₀, hlive₀⟩ := probed_of_replicate harr
  rw [h₀, Option.bind_some] at he
  obtain ⟨hp, hlive⟩ := hw₀.copyEntries_live hp₀ t.array (by omega) he
  rw [hlive₀, append_nil] at hlive
  exact ⟨t', by rw [FlatRep.resize, h₀, Option.bind_some, he],
    ⟨hw.geometry, hp, h.represents.perm hlive.symm⟩, hw⟩

/-- `MaybeResize` keeps the map and leaves room for one entry. -/
theorem Models.maybeResize (h : t.Models hH m) (hfit : Fits (t.size + 1)) :
    ∃ t', t.maybeResize H = some t' ∧ t'.Models hH m ∧ t'.HasRoom := by
  obtain ⟨t', he, hw, hr, ⟨g, hg⟩ | hres⟩ := h.wellFormed.maybeResize_cases H hfit
  · subst hg
    exact ⟨_, he, ⟨h.setGrow g, hw⟩, hr⟩
  · obtain ⟨t'', he'', hm⟩ := h.resize hfit (by rw [h.wellFormed.size_eq]; omega)
    rw [hres] at he''
    exact ⟨t', he, (Option.some.inj he'') ▸ hm, hr⟩

end FlatRep

/-! ## Sequences of map operations -/

/-- The operations of a map client. -/
inductive MapOp (K V : Type*)
  /-- `insert({k, v})`. -/
  | insert (k : K) (v : V)
  /-- `map[k] = v`. -/
  | assign (k : K) (v : V)
  /-- `erase(k)`. -/
  | erase (k : K)
  /-- `reserve(n)`. -/
  | reserve (n : Nat)
  /-- `find(k)`. -/
  | find (k : K)

/-- What an operation returns. -/
inductive Outcome (K V : Type*)
  /-- Whether the key was new. -/
  | inserted (new : Bool)
  /-- The assignment has no result. -/
  | assigned
  /-- Number of erased entries. -/
  | erased (count : Nat)
  /-- No result. -/
  | reserved
  /-- The entry found, or the end iterator. -/
  | found (entry : Option (K × V))

/-- One operation on the table. -/
def FlatMap.exec [Inhabited V] (H : Hashing K) (t : FlatRep K V) :
    MapOp K V → Option (Outcome K V × FlatRep K V)
  | .insert k v => (FlatMap.insert H t k v).map fun r => (.inserted r.1, r.2)
  | .assign k v => (FlatMap.assign H t k v).map fun t' => (.assigned, t')
  | .erase k => (FlatMap.erase H t k).map fun r => (.erased r.1, r.2)
  | .reserve n => (FlatMap.reserve H t n).map fun t' => (.reserved, t')
  | .find k => (FlatMap.find H t k).map fun r => (.found r, t)

/-- The results of a sequence of operations, each with the value of `size()` after it. -/
def FlatMap.results [Inhabited V] (H : Hashing K) :
    FlatRep K V → List (MapOp K V) → Option (List (Outcome K V × Nat))
  | _, [] => some []
  | t, op :: ops => (FlatMap.exec H t op).bind fun r =>
      (FlatMap.results H r.2 ops).map fun rs => (r.1, r.2.size) :: rs

namespace FiniteMap

variable {H : Hashing K} (hH : H.Lawful)

variable (m : KeyClass hH → Option (K × V))

/-- Number of keys of the map. -/
noncomputable def size : Nat := {q | m q ≠ none}.ncard

open Classical in
/-- One operation on the mathematical map. -/
noncomputable def exec :
    MapOp K V → Outcome K V × (KeyClass hH → Option (K × V))
  | .insert k v =>
    match m (KeyClass.mk hH k) with
    | some _ => (.inserted false, m)
    | none => (.inserted true, Function.update m (KeyClass.mk hH k) (some (k, v)))
  | .assign k v =>
    match m (KeyClass.mk hH k) with
    | some (k', _) => (.assigned, Function.update m (KeyClass.mk hH k) (some (k', v)))
    | none => (.assigned, Function.update m (KeyClass.mk hH k) (some (k, v)))
  | .erase k =>
    match m (KeyClass.mk hH k) with
    | some _ => (.erased 1, Function.update m (KeyClass.mk hH k) none)
    | none => (.erased 0, m)
  | .reserve _ => (.reserved, m)
  | .find k => (.found (m (KeyClass.mk hH k)), m)

/-- The results the mathematical map gives for a sequence of operations. -/
noncomputable def results :
    (KeyClass hH → Option (K × V)) → List (MapOp K V) → List (Outcome K V × Nat)
  | _, [] => []
  | m, op :: ops => ((exec hH m op).1, size hH (exec hH m op).2) :: results (exec hH m op).2 ops

/-- The operation asks for no table beyond the 32-bit capacity limit. -/
def Roomy : MapOp K V → Prop
  | .insert _ _ | .assign _ _ => Fits (size hH m + 1)
  | .reserve n => Fits n
  | .erase _ | .find _ => True

/-- Every operation of the sequence stays within the capacity limit. -/
def RoomyRun : (KeyClass hH → Option (K × V)) → List (MapOp K V) → Prop
  | _, [] => True
  | m, op :: ops => Roomy hH m op ∧ RoomyRun (exec hH m op).2 ops

variable {hH} {m : KeyClass hH → Option (K × V)}

open Classical in
theorem size_update_some_le (q : KeyClass hH) (entry : K × V) :
    size hH (Function.update m q (some entry)) ≤ size hH m + 1 := by
  have hkeys : {q' | Function.update m q (some entry) q' ≠ none} = insert q {q' | m q' ≠ none} := by
    ext q'
    by_cases hq : q' = q <;> simp [hq, Function.update_apply]
  rw [size, hkeys]
  exact Set.ncard_insert_le q _

open Classical in
theorem size_update_none_le (q : KeyClass hH) :
    size hH (Function.update m q none) ≤ size hH m := by
  have hkeys : {q' | Function.update m q none q' ≠ none} = {q' | m q' ≠ none} \ {q} := by
    ext q'
    by_cases hq : q' = q <;> simp [hq, Function.update_apply]
  rw [size, hkeys]
  exact Set.ncard_sdiff_singleton_le _ q

/-- An operation adds at most one key. -/
theorem size_exec_le (op : MapOp K V) : size hH (exec hH m op).2 ≤ size hH m + 1 := by
  cases op with
  | insert k v =>
    rw [exec]
    split
    · exact Nat.le_succ _
    · exact size_update_some_le _ _
  | assign k v =>
    rw [exec]
    split <;> exact size_update_some_le _ _
  | erase k =>
    rw [exec]
    split
    · exact (size_update_none_le _).trans (Nat.le_succ _)
    · exact Nat.le_succ _
  | reserve n | find k => exact Nat.le_succ _

/-- A sequence is within the limit if the map would be after as many insertions. -/
theorem roomyRun_of_length {ops : List (MapOp K V)} (hfit : Fits (size hH m + ops.length))
    (hreserve : ∀ n, .reserve n ∈ ops → Fits n) : RoomyRun hH m ops := by
  induction ops generalizing m with
  | nil => trivial
  | cons op ops ih =>
    rw [List.length_cons] at hfit
    have hstep := size_exec_le (m := m) op
    refine ⟨?_, ih ?_ fun n hn => hreserve n (List.mem_cons_of_mem _ hn)⟩
    · cases op with
      | insert k v | assign k v =>
        rw [Roomy]
        unfold Fits at hfit ⊢
        omega
      | reserve n => exact hreserve n List.mem_cons_self
      | erase k | find k => trivial
    · unfold Fits at hfit ⊢
      omega

end FiniteMap

attribute [local simp] FlatMap.exec FiniteMap.exec FlatMap.insert FlatMap.assign FlatMap.erase
  FlatMap.reserve stopResult

open Classical in
/-- One operation of the table is one operation of the map. -/
theorem FlatRep.Models.exec [Inhabited V] {H : Hashing K} {hH : H.Lawful} {t : FlatRep K V}
    {m : KeyClass hH → Option (K × V)} (h : t.Models hH m) (op : MapOp K V)
    (hop : FiniteMap.Roomy hH m op) :
    ∃ t', FlatMap.exec H t op = some ((FiniteMap.exec hH m op).1, t') ∧
      t'.Models hH (FiniteMap.exec hH m op).2 := by
  cases op with
  | insert k v =>
    have hfit : Fits (t.size + 1) := by rw [h.size_eq]; exact hop
    obtain ⟨t₁, h₁, hm₁, hr₁⟩ := h.maybeResize hfit
    have hw₁ := hm₁.wellFormed
    obtain ⟨r, h₂, ⟨mk, k', v', hk, hf, ht, -⟩ | ⟨mk, hk, hf, hm, hw, -⟩⟩ :=
      hm₁.findOrInsert v (fun _ _ hi => hw₁.fill_empty hi hr₁)
        (fun _ _ hi => hw₁.fill_deleted hi) (hw₁.returns H k)
    · refine ⟨r.2, ?_, ?_⟩
      · simp [h₁, h₂, hk, hf]
      · simpa [hk, ht] using hm₁
    · refine ⟨r.2, ?_, ?_⟩
      · simp [h₁, h₂, hk, hf]
      · simpa [hk] using Models.mk hm hw
  | assign k v =>
    have hfit : Fits (t.size + 1) := by rw [h.size_eq]; exact hop
    obtain ⟨t₁, h₁, hm₁, hr₁⟩ := h.maybeResize hfit
    have hw₁ := hm₁.wellFormed
    obtain ⟨r, h₂, ⟨mk, k', v', hk, -, ht, hi⟩ | ⟨mk, hk, -, hm, hw, hi⟩⟩ :=
      hm₁.findOrInsert default (fun _ _ hi => hw₁.fill_empty hi hr₁)
        (fun _ _ hi => hw₁.fill_deleted hi) (hw₁.returns H k)
    · have hkk : KeyClass.mk hH k' = KeyClass.mk hH k := ((hm₁.represents.lookup _ _).mp hk).2
      refine ⟨FlatMap.setVal r.2 r.1.index v, ?_, ?_⟩
      · simp [h₁, h₂, hk]
      · have hset : Models hH _ _ := ⟨hm₁.setVal hi v, hw₁.setVal _ v⟩
        rw [hkk] at hset
        simpa [hk, ht] using hset
    · refine ⟨FlatMap.setVal r.2 r.1.index v, ?_, ?_⟩
      · simp [h₁, h₂, hk]
      · have hset : Models hH _ _ := ⟨hm.setVal hi v, hw.setVal _ v⟩
        simpa [hk] using hset
  | erase k =>
    have hwf := h.wellFormed
    obtain ⟨d, x, hx, hs, hbefore, he, -⟩ := search_spec hwf.geometry (hwf.returns H k)
    cases x with
    | deleted => exact hs.elim
    | empty =>
      have hk := h.eq_none_of_stop hx hbefore
      refine ⟨t, ?_, ?_⟩
      · simp [he, hk]
      · simpa [hk] using h
    | full mk k' v' =>
      have hk := h.eq_some_of_slot hx hs.2
      refine ⟨t.erase (probeAt (2 ^ (t.lglen + 3)) (t.startIndex (H.hash k)) d), ?_, ?_⟩
      · simp [he, hk]
      · have her : Models hH _ _ := ⟨h.erase hx, hwf.erase hx⟩
        rw [(KeyClass.mk_eq_iff hH).mpr hs.2] at her
        simpa [hk] using her
  | reserve n =>
    obtain ⟨t', ht', hm⟩ := h.resize (h.wellFormed.fits_max hop)
      (by rw [← h.wellFormed.size_eq]; exact le_max_right _ _)
    exact ⟨t', by simp [ht'], hm⟩
  | find k => exact ⟨t, by simp [h.find (h.wellFormed.returns H k)], h⟩

/-- A run of the table returns the results of the run of the map. -/
theorem FlatRep.Models.results [Inhabited V] {H : Hashing K} {hH : H.Lawful} :
    ∀ {ops : List (MapOp K V)} {t : FlatRep K V} {m : KeyClass hH → Option (K × V)},
      t.Models hH m → FiniteMap.RoomyRun hH m ops →
      FlatMap.results H t ops = some (FiniteMap.results hH m ops) := by
  intro ops
  induction ops with
  | nil => intro t m _ _; rfl
  | cons op ops ih =>
    intro t m h hrun
    obtain ⟨t', he, hm⟩ := h.exec op hrun.1
    rw [FlatMap.results, he, Option.bind_some, ih hm hrun.2, hm.size_eq]
    rfl

/-- A new table stands for the empty map. -/
theorem FlatMap.empty_models {H : Hashing K} (hH : H.Lawful) :
    ∃ t : FlatRep K V, FlatMap.empty = some t ∧ t.Models hH fun _ => none := by
  obtain ⟨t, ht, hw, -, harr, -⟩ := init_spec (show Fits 1 by decide)
  obtain ⟨hp, hlive⟩ := probed_of_replicate harr
  exact ⟨t, ht, ⟨hw.geometry, hp, hlive ▸ represents_nil⟩, hw⟩

/-- Starting from an empty FlatMap, every sequence of operations that stays below the
capacity limit of the 32-bit sizing loop returns what the mathematical map returns. -/
theorem flatMap_refines_finiteMap [Inhabited V] (H : Hashing K) (hH : H.Lawful)
    (ops : List (MapOp K V)) (hops : FiniteMap.RoomyRun hH (fun _ => none) ops) :
    ∃ t, FlatMap.empty = some t ∧
      FlatMap.results H t ops = some (FiniteMap.results hH (fun _ => none) ops) := by
  obtain ⟨t, ht, hm⟩ := FlatMap.empty_models hH
  exact ⟨t, ht, hm.results hops⟩

theorem natHashing_lawful : natHashing.Lawful where
  refl a := by simp [natHashing]
  symm h := by simp_all [natHashing]
  trans h h' := by simp_all [natHashing]
  hash_eq h := by simp_all [natHashing]

/-- The slot of an erased key is used again, and the seventh key makes the table grow; the keys
`300` and `44` have the same marker. -/
def reuseAndGrow : List (MapOp Nat Nat) :=
  [.insert 300 1, .erase 300, .insert 300 2, .assign 44 3, .insert 1 4, .insert 2 5, .insert 3 6,
    .insert 4 7, .insert 5 8, .find 300, .erase 44, .find 44]

/-- The refinement applied to a run with a deleted slot and growth. -/
theorem flatMap_refines_reuseAndGrow : ∃ t : FlatRep Nat Nat, FlatMap.empty = some t ∧
    FlatMap.results natHashing t reuseAndGrow =
      some (FiniteMap.results natHashing_lawful (fun _ => none) reuseAndGrow) := by
  refine flatMap_refines_finiteMap natHashing natHashing_lawful _
    (FiniteMap.roomyRun_of_length ?_ (by simp [reuseAndGrow]))
  have hsize : FiniteMap.size natHashing_lawful
      (fun _ => (none : Option (Nat × Nat))) = 0 := by simp [FiniteMap.size]
  rw [hsize]
  decide

/-- `reserve(2 ^ 31)` never returns: the product `(1 << lg) * kWidth` wraps to zero
before it exceeds the requested size. -/
theorem reserve_two_pow_31_diverges : ∃ t : FlatRep Nat Nat, FlatMap.empty = some t ∧
      FlatMap.results natHashing t [.reserve (2 ^ 31)] = none := by
  refine ⟨_, rfl, ?_⟩
  have hnone : (FlatRep.init (2 ^ 31) : Option (FlatRep Nat Nat)) = none := by
    rw [FlatRep.init, initLoop_eq_none (by decide)]
    rfl
  rw [FlatMap.results, FlatMap.exec, FlatMap.reserve, FlatRep.resize, max_eq_left (by decide),
    hnone]
  rfl

end Tension.Gtl
