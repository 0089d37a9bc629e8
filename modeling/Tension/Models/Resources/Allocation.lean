import Tension.Models.Resources.ResourceTracker

/-!
# What the operations on allocations compute

For allocations in normal form the operations act on the quantity of each resource:
addition adds, overbinding adds the unbound quantity to every instance, and the
comparison finds room for the bound quantities together and for every unbound quantity
on top of them.
-/

namespace Tension.Resources

open Tally List Option

namespace ResourceUtil

variable {util : ResourceUtil} {a b : ResourceAllocation} {r : Resource}

/-! ## Validity -/

/-- The device is known and the instance, if any, exists. -/
structure Valid (util : ResourceUtil) (r : Resource) : Prop where
  device : util.devices r.device = some (util.numInstances r.device)
  inst : ∀ i, r.deviceInstance = some i → i < util.numInstances r.device

theorem verifyResourceValidity_ok_iff :
    (util.verifyResourceValidity r).code = .ok ↔ util.Valid r := by
  rw [verifyResourceValidity]
  constructor
  · intro h
    cases hd : util.devices r.device with
    | none => simp [hd] at h
    | some n =>
      have hn : util.numInstances r.device = n := by rw [numInstances, hd]; rfl
      refine ⟨by rw [hn, hd], fun i hi => ?_⟩
      simp only [hd, hi] at h
      split at h
      · cases h
      · omega
  · rintro ⟨hd, hi⟩
    rw [hd]
    cases hr : r.deviceInstance with
    | none => rfl
    | some i => simp [if_neg (Nat.not_le.mpr (hi i hr))]

theorem Valid.numInstances_pos (h : util.Valid r) : 0 < util.numInstances r.device :=
  util.pos _ _ h.device

variable {i : Nat} {device kind : String}

theorem Valid.bind (h : util.Valid r) (hi : i < util.numInstances r.device) :
    util.Valid (r.bind i) :=
  ⟨h.device, fun j hj => by
    obtain rfl : i = j := some.inj hj
    exact hi⟩

/-- Every entry is valid and no resource is listed twice. -/
structure Proper (util : ResourceUtil) (a : ResourceAllocation) : Prop where
  valid : ∀ e ∈ a, util.Valid e.1
  nodup : (a.map Prod.fst).Nodup

theorem verifyEntries_ok_iff {validated : ResourceAllocation} :
    (util.verifyEntries b validated a).code = .ok ↔ (∀ e ∈ a, util.Valid e.1) ∧
      (a.map Prod.fst).Nodup ∧ ∀ e ∈ a, e.1 ∉ validated.map Prod.fst := by
  induction a generalizing validated with
  | nil => simp [verifyEntries]
  | cons e a ih =>
    have hfind : (validated.find? fun e' => e'.1 = e.1).isSome ↔ e.1 ∈ validated.map Prod.fst := by
      simp
    rw [verifyEntries]
    by_cases hv : util.Valid e.1
    · have hcode := verifyResourceValidity_ok_iff.mpr hv
      by_cases hmem : e.1 ∈ validated.map Prod.fst
      · rw [if_neg (not_not.mpr hcode), if_pos (hfind.mpr hmem)]
        simp only [Status.code_invalidArgument, reduceCtorEq, false_iff]
        exact fun h => h.2.2 e mem_cons_self hmem
      · rw [if_neg (not_not.mpr hcode), if_neg (mt hfind.mp hmem), ih]
        simp only [forall_mem_cons, map_cons, nodup_cons, map_append,
          mem_append, map_nil, mem_singleton, not_or]
        constructor
        · rintro ⟨hvalid, hnodup, hfresh⟩
          refine ⟨⟨hv, hvalid⟩, ⟨fun hin => ?_, hnodup⟩, hmem, fun e' he' => (hfresh e' he').1⟩
          obtain ⟨e', he', heq⟩ := mem_map.mp hin
          exact (hfresh e' he').2 heq
        · rintro ⟨⟨-, hvalid⟩, ⟨hnot, hnodup⟩, -, hfresh⟩
          refine ⟨hvalid, hnodup, fun e' he' => ⟨hfresh e' he', fun heq => hnot ?_⟩⟩
          exact heq ▸ mem_map_of_mem he'
    · have hcode := mt verifyResourceValidity_ok_iff.mp hv
      rw [if_pos hcode]
      exact ⟨fun h => absurd h hcode, fun h => absurd (h.1 e mem_cons_self) hv⟩

theorem verifyValidity_ok_iff : (util.verifyValidity a).code = .ok ↔ util.Proper a := by
  rw [verifyValidity, verifyEntries_ok_iff]
  exact ⟨fun h => ⟨h.1, h.2.1⟩, fun h => ⟨h.valid, h.nodup, fun _ _ => by simp⟩⟩

/-! ## Normal form -/

theorem valid_normalizeResource (h : util.Valid r) : util.Valid (util.normalizeResource r) := by
  rw [normalizeResource]
  split
  · exact h.bind h.numInstances_pos
  · exact h

theorem normalizeResource_idem (util : ResourceUtil) (r : Resource) :
    util.normalizeResource (util.normalizeResource r) = util.normalizeResource r := by
  rw [normalizeResource]
  split
  · next h =>
    rw [normalizeResource] at h
    split at h
    · cases h.1
    · next hne => exact absurd h hne
  · rfl

theorem normalizeResource_bind (util : ResourceUtil) (r : Resource) (i : Nat) :
    util.normalizeResource (r.bind i) = r.bind i := by
  rw [normalizeResource, if_neg fun h => nomatch h.1]

/-- An entry as normal forms have them. -/
def Normal (util : ResourceUtil) (e : Resource × Nat) : Prop :=
  util.Valid e.1 ∧ 0 < e.2 ∧ util.normalizeResource e.1 = e.1

/-- `IsNormalized`. -/
structure Normalized (util : ResourceUtil) (a : ResourceAllocation) : Prop extends
    util.Proper a where
  pos : ∀ e ∈ a, 0 < e.2
  normal : ∀ e ∈ a, util.normalizeResource e.1 = e.1

theorem Normalized.normal_of_mem (h : util.Normalized a) {e : Resource × Nat} (he : e ∈ a) :
    util.Normal e :=
  ⟨h.valid e he, h.pos e he, h.normal e he⟩

theorem normalized_nil (util : ResourceUtil) : util.Normalized [] :=
  ⟨⟨nofun, nodup_nil⟩, nofun, nofun⟩

theorem normalize_of_proper (h : util.Proper a) : util.normalize a =
      (a.filter fun e => e.2 ≠ 0).map fun e => (util.normalizeResource e.1, e.2) := by
  rw [normalize, if_neg (not_not.mpr (verifyValidity_ok_iff.mpr h))]

theorem Normalized.normalize_eq (h : util.Normalized a) : util.normalize a = a := by
  rw [normalize_of_proper h.toProper, filter_eq_self.mpr fun e he => by
    simpa using Nat.pos_iff_ne_zero.mp (h.pos e he)]
  conv_rhs => rw [← map_id a]
  exact map_congr_left fun e he => Prod.ext (h.normal e he) rfl

/-- Every entry of the normal form of a valid allocation is positive, valid and normal. -/
theorem mem_normalize (h : util.Proper a) {e : Resource × Nat} (he : e ∈ util.normalize a) :
    util.Normal e := by
  rw [normalize_of_proper h, List.mem_map] at he
  obtain ⟨e', he', rfl⟩ := he
  obtain ⟨hmem, hpos⟩ := List.mem_filter.mp he'
  refine ⟨valid_normalizeResource (h.valid e' hmem), ?_, normalizeResource_idem util e'.1⟩
  exact Nat.pos_of_ne_zero (by simpa using hpos)

/-- The normal form of a valid allocation is in normal form if it repeats no resource. -/
theorem Proper.normalized_normalize (ha : util.Proper a)
    (hnodup : ((util.normalize a).map Prod.fst).Nodup) : util.Normalized (util.normalize a) :=
  ⟨⟨fun _ he => (mem_normalize ha he).1, hnodup⟩, fun _ he => (mem_normalize ha he).2.1,
    fun _ he => (mem_normalize ha he).2.2⟩

/-! ## Quantities -/

/-- What an allocation may ask of one instance of a device: the quantity bound to it and the
unbound quantity. -/
def demand (a : ResourceAllocation) (device : String) (i : Nat) (kind : String) : Nat :=
  amount a ⟨device, some i, kind⟩ + amount a ⟨device, none, kind⟩

theorem demand_append (a b : ResourceAllocation) (device : String) (i : Nat) (kind : String) :
    demand (a ++ b) device i kind = demand a device i kind + demand b device i kind := by
  rw [demand, amount_append, amount_append, demand, demand]
  omega

theorem demand_cons (e : Resource × Nat) (a : ResourceAllocation) (device : String) (i : Nat)
    (kind : String) :
    demand (e :: a) device i kind = demand [e] device i kind + demand a device i kind :=
  demand_append [e] a device i kind

/-- Normalising an entry keeps its demand on every instance that exists. -/
theorem demand_normalizeResource (e : Resource × Nat) (hi : i < util.numInstances device) :
    demand [(util.normalizeResource e.1, e.2)] device i kind = demand [e] device i kind := by
  obtain ⟨⟨d, o, k⟩, q⟩ := e
  rw [normalizeResource]
  split
  · next h =>
    obtain ⟨rfl, hone⟩ : o = none ∧ util.numInstances d = 1 := h
    by_cases hd : d = device
    · obtain rfl : i = 0 := by
        rw [hd] at hone
        omega
      simp [demand, Resource.bind]
    · simp [demand, Resource.bind, hd]
  · rfl

/-- Normalising keeps the demand on every instance that exists. -/
theorem demand_normalize (h : util.Proper a) (hi : i < util.numInstances device) :
    demand (util.normalize a) device i kind = demand a device i kind := by
  rw [normalize_of_proper h]
  clear h
  induction a with
  | nil => rfl
  | cons e a ih =>
    by_cases hq : e.2 = 0
    · rw [filter_cons_of_neg (by simpa using hq), ih]
      simp [demand, hq]
    · rw [filter_cons_of_pos (by simpa using hq), map_cons, demand_cons, ih,
        demand_normalizeResource e hi, ← demand_cons]

/-- No sum of quantities that meet in one instance overflows. -/
def Representable (util : ResourceUtil) (a : ResourceAllocation) : Prop :=
  ∀ device i kind, i < util.numInstances device → demand a device i kind < quantityBound

/-- In a representable allocation with valid entries no quantity overflows. -/
theorem Representable.amount_lt (h : util.Representable a) (hv : ∀ e ∈ a, util.Valid e.1)
    (r : Resource) : amount a r < quantityBound := by
  by_cases hr : r ∈ a.map Prod.fst
  · obtain ⟨e, he, rfl⟩ := mem_map.mp hr
    have hvalid := hv e he
    obtain ⟨⟨d, o, k⟩, q⟩ := e
    cases o with
    | none => exact (Nat.le_add_left _ _).trans_lt (h d 0 k hvalid.numInstances_pos)
    | some i => exact (Nat.le_add_right _ _).trans_lt (h d i k (hvalid.inst i rfl))
  · rw [amount_eq_zero hr]
    decide

section

variable (ha : util.Normalized a) (hb : ∀ e ∈ b, util.Normal e)
include ha hb

/-- The result of an addition is in normal form exactly if no sum is 0 modulo `2 ^ 64`. -/
theorem Normalized.addNormalized_iff (hlt : ∀ r, amount a r < quantityBound) :
    util.Normalized (addNormalized b a) ↔ ∀ r, r ∈ a.map Prod.fst ∨ r ∈ b.map Prod.fst →
      (amount a r + amount b r) % quantityBound ≠ 0 := by
  have hnodup : ((ResourceUtil.addNormalized b a).map Prod.fst).Nodup := nodup_addAll ha.nodup
  have hamount (r : Resource) : amount (ResourceUtil.addNormalized b a) r =
      (amount a r + amount b r) % quantityBound := amount_addAll_mod ha.nodup hlt r
  constructor
  · intro h r hr hzero
    obtain ⟨e, he, rfl⟩ := mem_map.mp (mem_keys_addAll.mpr hr)
    have hpos := h.pos e he
    rw [← amount_of_mem hnodup he, hamount, hzero] at hpos
    exact lt_irrefl 0 hpos
  · intro h
    refine ⟨⟨forall_keys_upsertAll ha.valid fun e he => (hb e he).1, hnodup⟩, fun e he => ?_,
      forall_keys_upsertAll (P := fun r => util.normalizeResource r = r) ha.normal
        fun e he => (hb e he).2.2⟩
    rw [← amount_of_mem hnodup he, hamount]
    exact Nat.pos_of_ne_zero (h e.1 (mem_keys_addAll.mp (mem_map_of_mem he)))

/-- Adding quantities below `2 ^ 64` to an allocation in normal form. -/
theorem Normalized.addNormalized (hw : ∀ r, amount a r + amount b r < quantityBound) :
    util.Normalized (addNormalized b a) ∧
      ∀ r, amount (ResourceUtil.addNormalized b a) r = amount a r + amount b r := by
  have hlt (r : Resource) : amount a r < quantityBound := Nat.lt_of_add_right_lt (hw r)
  refine ⟨(ha.addNormalized_iff hb hlt).mpr fun r hr => ?_, fun r =>
    (amount_addAll_mod ha.nodup hlt r).trans (Nat.mod_eq_of_lt (hw r))⟩
  rw [Nat.mod_eq_of_lt (hw r)]
  rcases hr with hr | hr
  · obtain ⟨e, he, rfl⟩ := mem_map.mp hr
    have hpos := (ha.pos e he).trans_le (le_amount he)
    omega
  · obtain ⟨e, he, rfl⟩ := mem_map.mp hr
    have hpos := (hb e he).2.1.trans_le (le_amount he)
    omega

end

theorem Representable.amount_add_lt (hsum : util.Representable (a ++ b))
    (ha : ∀ e ∈ a, util.Valid e.1) (hb : ∀ e ∈ b, util.Valid e.1) (r : Resource) :
    amount a r + amount b r < quantityBound := by
  rw [← amount_append]
  refine hsum.amount_lt (fun e he => ?_) r
  exact (mem_append.mp he).elim (ha e) (hb e)

/-- `Add` on allocations in normal form. -/
theorem Normalized.add (ha : util.Normalized a) (hb : util.Proper b)
    (hsum : util.Representable (a ++ util.normalize b)) : util.Normalized (util.add b a) ∧
      ∀ r, amount (util.add b a) r = amount a r + amount (util.normalize b) r := by
  rw [ResourceUtil.add, ha.normalize_eq]
  have hentries (e : Resource × Nat) (he : e ∈ util.normalize b) := mem_normalize hb he
  exact ha.addNormalized hentries (hsum.amount_add_lt ha.valid fun e he => (hentries e he).1)

/-! ## Overbinding -/

theorem overbind_eq (ha : util.Normalized a) :
    util.overbind a = ResourceUtil.addNormalized (a.flatMap util.overbindEntry) [] := by
  rw [overbind, ha.normalize_eq, overbindNormalized,
    if_neg (not_not.mpr (verifyValidity_ok_iff.mpr ha.toProper))]
  generalize ([] : ResourceAllocation) = base
  clear ha
  induction a generalizing base with
  | nil => rfl
  | cons e a ih =>
    rw [foldl_cons, ih]
    simp [ResourceUtil.addNormalized, addAll]

theorem overbind_normalize (ha : util.Normalized (util.normalize a)) :
    util.overbind a = util.overbind (util.normalize a) := by
  rw [overbind, overbind, ha.normalize_eq]

/-- A quantity that is listed for the first instances of a device. -/
theorem amount_bindAll (r : Resource) (q n i : Nat) :
    amount ((List.range n).map fun i => (r.bind i, q)) ⟨device, some i, kind⟩ =
      if r.device = device ∧ r.kind = kind ∧ i < n then q else 0 := by
  induction n with
  | zero => simp
  | succ n ih =>
    rw [range_succ, map_append, amount_append, ih, map_singleton, amount_cons, amount_nil]
    simp only [Resource.bind, Resource.mk.injEq]
    by_cases hr : r.device = device ∧ r.kind = kind
    · obtain ⟨hd, hk⟩ := hr
      rcases lt_trichotomy i n with hlt | rfl | hgt
      · simp [hlt, Nat.lt_succ_of_lt hlt, hlt.ne']
      · simp
      · simp [Nat.not_lt.mpr hgt.le, hgt.ne, Nat.not_lt.mpr hgt]
    · rw [if_neg fun h => hr ⟨h.1, h.2.1⟩, if_neg fun h => hr ⟨h.1, h.2.2⟩,
        if_neg fun h => hr ⟨h.1, h.2.1⟩]

/-- What the entries after overbinding ask of an instance. -/
theorem amount_overbindEntry (hi : i < util.numInstances device) :
    amount (a.flatMap util.overbindEntry) ⟨device, some i, kind⟩ = demand a device i kind := by
  induction a with
  | nil => rfl
  | cons e a ih =>
    obtain ⟨⟨d, o, k⟩, q⟩ := e
    rw [flatMap_cons, amount_append, ih, demand_cons]
    rw [overbindEntry]
    cases o with
    | some j => simp [demand]
    | none =>
      rw [if_neg (by simp), amount_bindAll]
      by_cases hr : d = device ∧ k = kind
      · obtain ⟨rfl, rfl⟩ := hr
        simp [demand, hi]
      · rw [if_neg fun h => hr ⟨h.1, h.2.1⟩]
        simp [demand, if_neg hr]

theorem amount_overbindEntry_none (device kind : String) :
    amount (a.flatMap util.overbindEntry) ⟨device, none, kind⟩ = 0 := by
  refine amount_eq_zero fun hmem => ?_
  obtain ⟨e, he, heq⟩ := mem_map.mp hmem
  obtain ⟨e', -, he⟩ := mem_flatMap.mp he
  rw [overbindEntry] at he
  split at he
  · next hsome =>
    rw [mem_singleton.mp he] at heq
    rw [heq] at hsome
    cases hsome
  · obtain ⟨i, -, rfl⟩ := mem_map.mp he
    cases heq

theorem Normalized.normal_overbindEntry (ha : util.Normalized a) {e : Resource × Nat}
    (he : e ∈ a.flatMap util.overbindEntry) : util.Normal e := by
  obtain ⟨e', he', he⟩ := mem_flatMap.mp he
  rw [overbindEntry] at he
  split at he
  · rw [mem_singleton.mp he]
    exact ha.normal_of_mem he'
  · obtain ⟨i, hi, rfl⟩ := mem_map.mp he
    exact ⟨(ha.valid e' he').bind (mem_range.mp hi), ha.pos e' he',
      normalizeResource_bind util e'.1 i⟩

/-- Overbinding moves the demand on every instance to the instance. -/
theorem Normalized.overbind (ha : util.Normalized a) (hsum : util.Representable a) :
    util.Normalized (util.overbind a) ∧
      (∀ device i kind, i < util.numInstances device →
        amount (util.overbind a) ⟨device, some i, kind⟩ = demand a device i kind) ∧
      ∀ device kind, amount (util.overbind a) ⟨device, none, kind⟩ = 0 := by
  have hentries (e : Resource × Nat) (he : e ∈ a.flatMap util.overbindEntry) :=
    ha.normal_overbindEntry he
  have hrep : util.Representable ([] ++ a.flatMap util.overbindEntry) := by
    intro device i kind hi
    rw [nil_append, demand, amount_overbindEntry hi, amount_overbindEntry_none]
    exact hsum device i kind hi
  obtain ⟨hnorm, hamount⟩ := (normalized_nil util).addNormalized hentries
    (hrep.amount_add_lt nofun fun e he => (hentries e he).1)
  rw [overbind_eq ha]
  refine ⟨hnorm, fun device i kind hi => ?_, fun device kind => ?_⟩
  · rw [hamount, amount_nil, amount_overbindEntry hi, zero_add]
  · rw [hamount, amount_nil, amount_overbindEntry_none]

/-! ## Comparison -/

/-- `GetQuantity` reads the quantity of a resource in normal form. -/
theorem Normalized.getQuantity (ha : util.Normalized a) (hv : util.Valid r)
    (hr : util.normalizeResource r = r) : util.getQuantity r a = amount a r := by
  have hequal : ∀ e ∈ a, (util.resourcesEqual e.1 r = true ↔ e.1 = r) := by
    intro e he
    simp [resourcesEqual, resourcesEqualNormalized, ha.normal e he, hr,
      verifyResourceValidity_ok_iff.mpr hv, verifyResourceValidity_ok_iff.mpr (ha.valid e he)]
  rw [ResourceUtil.getQuantity]
  split
  · next hnone =>
    refine (amount_eq_zero fun hmem => ?_).symm
    obtain ⟨e, he, heq⟩ := mem_map.mp hmem
    exact find?_eq_none.mp hnone e he ((hequal e he).mpr heq)
  · next e hsome =>
    have he := mem_of_find?_eq_some hsome
    have hpred := find?_some hsome
    obtain rfl := (hequal e he).mp hpred
    exact (amount_of_mem ha.nodup he).symm

/-- Normalising an allocation with normal resources drops the zero quantities only. -/
theorem Proper.normalize (ha : util.Proper a) (hn : ∀ e ∈ a, util.normalizeResource e.1 = e.1) :
    util.Normalized (util.normalize a) ∧ ∀ r, amount (util.normalize a) r = amount a r := by
  have heq : util.normalize a = a.filter fun e => e.2 ≠ 0 := by
    rw [normalize_of_proper ha]
    conv_rhs => rw [← map_id (a.filter fun e => e.2 ≠ 0)]
    exact map_congr_left fun e he => Prod.ext (hn e (mem_filter.mp he).1) rfl
  constructor
  · rw [heq]
    have hsub := filter_sublist (p := fun e : Resource × Nat => e.2 ≠ 0) (l := a)
    exact ⟨⟨fun e he => ha.valid e (hsub.subset he), ha.nodup.sublist (hsub.map _)⟩,
      fun e he => Nat.pos_of_ne_zero (by simpa using (mem_filter.mp he).2),
      fun e he => hn e (hsub.subset he)⟩
  · intro r
    rw [heq, amount_filter_ne_zero]

section

variable (ha : util.Normalized a)
include ha

/-- The new quantities of `SubtractNormalized`. -/
theorem mapM_subtract (hb : ∀ e ∈ b, 0 < e.2) : (b.mapM fun e => do
      let baseEntry ← a.find? fun e' => e'.1 = e.1
      if baseEntry.2 < e.2 then none else some (e.1, baseEntry.2 - e.2)) =
    if ∀ e ∈ b, e.2 ≤ amount a e.1 then some (b.map fun e => (e.1, amount a e.1 - e.2))
    else none := by
  induction b with
  | nil => rfl
  | cons e b ih =>
    obtain ⟨hpos, hb⟩ := forall_mem_cons.mp hb
    rw [mapM_cons, ih hb]
    cases hfind : a.find? fun e' => e'.1 = e.1 with
    | none =>
      have hzero : amount a e.1 = 0 := amount_eq_zero fun hmem => by
        obtain ⟨e', he', heq⟩ := mem_map.mp hmem
        exact find?_eq_none.mp hfind e' he' (decide_eq_true heq)
      have hnot : ¬∀ e' ∈ e :: b, e'.2 ≤ amount a e'.1 := by
        intro hle
        have hle := hle e mem_cons_self
        omega
      rw [if_neg hnot]
      rfl
    | some base =>
      have hbase : base.1 = e.1 := by simpa using find?_some hfind
      have hamount : amount a e.1 = base.2 :=
        hbase ▸ amount_of_mem ha.nodup (mem_of_find?_eq_some hfind)
      simp only [hamount, forall_mem_cons, map_cons]
      by_cases hlt : base.2 < e.2
      · simp [hlt]
      · by_cases hle : ∀ e ∈ b, e.2 ≤ amount a e.1
        · simp [if_neg hlt, if_pos hle, if_pos (And.intro (Nat.not_lt.mp hlt) hle)]
        · simp [if_neg hle, if_neg (mt And.right hle)]

/-- `SubtractNormalized` succeeds exactly if no quantity becomes negative. -/
theorem Normalized.subtractNormalized (hb : util.Normalized b) :
    (∀ r, amount b r ≤ amount a r) ∧ (∃ rest, util.subtractNormalized b a = some rest ∧
        util.Normalized rest ∧ ∀ r, amount rest r + amount b r = amount a r) ∨
      (¬∀ r, amount b r ≤ amount a r) ∧ util.subtractNormalized b a = none := by
  have hiff : (∀ e ∈ b, e.2 ≤ amount a e.1) ↔ ∀ r, amount b r ≤ amount a r := by
    refine ⟨fun h r => ?_, fun h e he => (le_amount he).trans (h e.1)⟩
    by_cases hr : r ∈ b.map Prod.fst
    · obtain ⟨e, he, rfl⟩ := mem_map.mp hr
      rw [amount_of_mem hb.nodup he]
      exact h e he
    · rw [amount_eq_zero hr]
      exact Nat.zero_le _
  rw [ResourceUtil.subtractNormalized, mapM_subtract ha hb.pos]
  by_cases hle : ∀ e ∈ b, e.2 ≤ amount a e.1
  · refine .inl ⟨hiff.mp hle, ?_⟩
    rw [if_pos hle]
    obtain ⟨rest, hrest⟩ : ∃ rest, upsertAll (fun e _ => e.2) a
        (b.map fun e => (e.1, amount a e.1 - e.2)) = rest := ⟨_, rfl⟩
    have hkeys : (b.map fun e => (e.1, amount a e.1 - e.2)).map Prod.fst = b.map Prod.fst := by
      rw [List.map_map]
      rfl
    have hentries {P : Resource → Prop} (hPa : ∀ e ∈ a, P e.1) (hPb : ∀ e ∈ b, P e.1) :
        ∀ e ∈ rest, P e.1 := by
      rw [← hrest]
      exact forall_keys_upsertAll hPa (forall_mem_map.mpr hPb)
    have hproper : util.Proper rest := by
      refine ⟨hentries ha.valid hb.valid, ?_⟩
      rw [← hrest]
      exact nodup_upsertAll ha.nodup
    obtain ⟨hnorm, hamount⟩ := hproper.normalize
      (hentries (P := fun r => util.normalizeResource r = r) ha.normal hb.normal)
    refine ⟨_, congrArg (fun l => some (util.normalize l)) hrest, hnorm, fun r => ?_⟩
    rw [hamount, ← hrest, amount_upsertAll ha.nodup (hkeys ▸ hb.nodup)]
    have hr := hiff.mp hle r
    cases hfind : (b.map fun e => (e.1, amount a e.1 - e.2)).find? fun e => e.1 = r with
    | none =>
      have hzero : amount b r = 0 := amount_eq_zero fun hmem => by
        obtain ⟨e, he, heq⟩ := mem_map.mp (hkeys ▸ hmem)
        exact find?_eq_none.mp hfind e he (decide_eq_true heq)
      rw [hzero, add_zero]
    | some e =>
      obtain ⟨e, he, rfl⟩ := mem_map.mp (mem_of_find?_eq_some hfind)
      obtain rfl : e.1 = r := by simpa using find?_some hfind
      rw [amount_of_mem hb.nodup he] at hr ⊢
      exact Nat.sub_add_cancel hr
  · rw [if_neg hle]
    exact .inr ⟨mt hiff.mpr hle, rfl⟩

end

theorem normalized_singleton {e : Resource × Nat} (he : util.Normal e) : util.Normalized [e] :=
  ⟨⟨by simpa using he.1, nodup_singleton _⟩, by simpa using he.2.1, by simpa using he.2.2⟩

/-- Phase 1 of the comparison succeeds exactly if the bound quantities fit together. -/
theorem Normalized.subtractBound (hb : util.Normalized b) (ha : ∀ e ∈ a, util.Normal e) :
    (∃ rest, util.subtractBound a b = some rest ∧ util.Normalized rest ∧
        ∀ device i kind, amount rest ⟨device, some i, kind⟩ + amount a ⟨device, some i, kind⟩ =
          amount b ⟨device, some i, kind⟩) ∨
      util.subtractBound a b = none ∧
        ¬∀ device i kind, amount a ⟨device, some i, kind⟩ ≤ amount b ⟨device, some i, kind⟩ := by
  rw [ResourceUtil.subtractBound]
  induction a generalizing b with
  | nil => exact .inl ⟨b, rfl, hb, fun _ _ _ => rfl⟩
  | cons e a ih =>
    obtain ⟨he, ha⟩ := forall_mem_cons.mp ha
    rw [foldlM_cons]
    split
    · have hsingle := normalized_singleton he
      rw [ResourceUtil.subtract, hsingle.normalize_eq, hb.normalize_eq]
      rcases hb.subtractNormalized hsingle with ⟨-, b', hb', hnorm, hsub⟩ | ⟨hnot, hnone⟩
      · rw [hb']
        have hsum (r : Resource) : amount b r = amount b' r + amount [e] r := (hsub r).symm
        rcases ih hnorm ha with ⟨rest, hrest, hnormal, hamount⟩ | ⟨hnone, hnot⟩
        · refine .inl ⟨rest, hrest, hnormal, fun device i kind => ?_⟩
          rw [hsum, ← hamount, amount_cons, amount_cons, amount_nil]
          omega
        · refine .inr ⟨hnone, fun h => hnot fun device i kind => ?_⟩
          have hle := h device i kind
          rw [hsum, amount_cons, amount_cons, amount_nil] at hle
          omega
      · rename_i hbound
        obtain ⟨i, hi⟩ := isSome_iff_exists.mp hbound
        rw [hnone]
        refine .inr ⟨rfl, fun h => hnot fun r => ?_⟩
        rw [amount_cons, amount_nil]
        split
        · rename_i heq
          have hle := h e.1.device i e.1.kind
          rw [← hi, amount_cons, if_pos rfl] at hle
          rw [← heq]
          change e.2 + amount a e.1 ≤ amount b e.1 at hle
          omega
        · exact Nat.zero_le _
    · rename_i hunbound
      have hskip (device : String) (i : Nat) (kind : String) :
          amount (e :: a) ⟨device, some i, kind⟩ = amount a ⟨device, some i, kind⟩ := by
        rw [amount_cons, if_neg, zero_add]
        intro heq
        rw [heq] at hunbound
        exact hunbound rfl
      simp only [hskip]
      exact ih hb ha

/-- An allocation in normal form compares as at most another one exactly if all its bound
quantities fit together, and every unbound quantity fits on top of them into some instance. -/
theorem Normalized.lessThanOrEqual_iff (ha : util.Normalized a) (hb : util.Normalized b) :
    util.lessThanOrEqual a b = true ↔
      (∀ device i kind, amount a ⟨device, some i, kind⟩ ≤ amount b ⟨device, some i, kind⟩) ∧
      ∀ e ∈ a, e.1.deviceInstance = none → ∃ i < util.numInstances e.1.device,
        amount a (e.1.bind i) + e.2 ≤ amount b (e.1.bind i) := by
  have hvalid : ¬((util.verifyValidity a).code ≠ .ok ∨ (util.verifyValidity b).code ≠ .ok) := by
    rw [not_or, not_not, not_not]
    exact ⟨verifyValidity_ok_iff.mpr ha.toProper, verifyValidity_ok_iff.mpr hb.toProper⟩
  rw [ResourceUtil.lessThanOrEqual, ha.normalize_eq, hb.normalize_eq, lessThanOrEqualNormalized,
    if_neg hvalid]
  rcases hb.subtractBound fun e he => ha.normal_of_mem he with
    ⟨rest, hrest, hnorm, hamount⟩ | ⟨hnone, hnot⟩
  · have hfit (device : String) (i : Nat) (kind : String) :
        amount a ⟨device, some i, kind⟩ ≤ amount b ⟨device, some i, kind⟩ := by
      rw [← hamount]
      exact Nat.le_add_left ..
    rw [hrest, and_iff_right hfit]
    simp only [fitsUnbound, List.all_eq_true, Bool.or_eq_true, List.any_eq_true, List.mem_range,
      decide_eq_true_eq]
    refine forall₂_congr fun e he => ?_
    rw [← Option.not_isSome_iff_eq_none, or_iff_not_imp_left]
    refine imp_congr_right fun _ => exists_congr fun i => and_congr_right fun hi => ?_
    have hsum : amount rest (e.1.bind i) + amount a (e.1.bind i) = amount b (e.1.bind i) :=
      hamount e.1.device i e.1.kind
    rw [hnorm.getQuantity ((ha.valid e he).bind hi) (normalizeResource_bind ..)]
    omega
  · rw [hnone]
    exact iff_of_false (by simp) fun h => hnot h.1

end ResourceUtil

end Tension.Resources
