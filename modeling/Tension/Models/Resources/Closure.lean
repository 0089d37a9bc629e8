import Mathlib
import Tension.Models.Resources.Allocation

/-!
# When the operations stay in normal form

Validity compares resources as they are written, the normal form identifies the two ways
of writing a device with one instance, and quantities wrap around. An allocation computed
by the operations is valid and in normal form exactly if no operand lists one resource
both ways and no sum or product of quantities wraps to zero.
-/

namespace Tension.Resources

open Tally List

namespace ResourceUtil

variable {util : ResourceUtil} {a b : ResourceAllocation} {r r' : Resource}

/-- Two ways of writing one resource: a device with one instance need not be bound. -/
def Same (util : ResourceUtil) (r r' : Resource) : Prop :=
  r.device = r'.device ∧ r.kind = r'.kind ∧
    (r.deviceInstance = r'.deviceInstance ∨ util.numInstances r.device = 1)

/-- For a valid resource of a device with one instance, the normal form is that instance. -/
theorem Valid.normalizeResource_eq (h : util.Valid r) :
    util.normalizeResource r = if util.numInstances r.device = 1 then r.bind 0 else r := by
  rw [normalizeResource]
  by_cases hone : util.numInstances r.device = 1
  · split
    · rfl
    · next hnot =>
      obtain ⟨i, hi⟩ := Option.ne_none_iff_exists'.mp fun hnone => hnot ⟨hnone, hone⟩
      have hlt := h.inst i hi
      obtain rfl : i = 0 := by omega
      exact (Resource.mk.injEq ..).mpr ⟨rfl, hi, rfl⟩
  · rw [if_neg hone, if_neg fun hand => hone hand.2]

/-- Valid resources are the same if their normal forms are equal. -/
theorem same_iff (h : util.Valid r) (h' : util.Valid r') :
    util.normalizeResource r = util.normalizeResource r' ↔ util.Same r r' := by
  obtain ⟨device, inst, kind⟩ := r
  obtain ⟨device', inst', kind'⟩ := r'
  rw [h.normalizeResource_eq, h'.normalizeResource_eq, Same]
  by_cases hdevice : device = device'
  · subst hdevice
    by_cases hone : util.numInstances device = 1
    · simp [hone, Resource.bind]
    · simp [hone, and_comm]
  · have hne : (if util.numInstances device = 1 then Resource.bind ⟨device, inst, kind⟩ 0
        else ⟨device, inst, kind⟩) ≠ if util.numInstances device' = 1 then
          Resource.bind ⟨device', inst', kind'⟩ 0 else ⟨device', inst', kind'⟩ := fun heq =>
      hdevice
        (by simpa [apply_ite Resource.device, Resource.bind] using congrArg Resource.device heq)
    exact ⟨fun heq => absurd heq hne, fun hsame => absurd hsame.1 hdevice⟩

/-- `IsNormalized` decides normal forms. -/
theorem isNormalized_iff : util.isNormalized a = true ↔ util.Normalized a := by
  have hresource (r : Resource) : util.isResourceNormalized r = true ↔
      util.Valid r ∧ util.normalizeResource r = r := by
    simp only [isResourceNormalized, Bool.and_eq_true, decide_eq_true_eq,
      verifyResourceValidity_ok_iff, Bool.or_eq_true]
    refine and_congr_right fun hv => ?_
    have hpos := hv.numInstances_pos
    cases hi : r.deviceInstance with
    | none =>
      rw [normalizeResource, hi]
      by_cases hone : util.numInstances r.device = 1
      · simp only [hone, Option.isSome_none, Bool.false_eq_true, lt_self_iff_false, or_self,
          false_iff]
        intro heq
        rw [← heq] at hi
        cases hi
      · simp only [hone, and_false, if_false, iff_true]
        exact .inr (by omega)
    | some i =>
      rw [normalizeResource, if_neg fun h => by simp [hi] at h]
      simp
  simp only [isNormalized, Bool.and_eq_true, decide_eq_true_eq, verifyValidity_ok_iff,
    all_eq_true, hresource]
  exact ⟨fun h => ⟨h.1, fun e he => Nat.pos_of_ne_zero (h.2 e he).1, fun e he => (h.2 e he).2.2⟩,
    fun h => ⟨h.toProper, fun e he => ⟨(h.pos e he).ne', h.valid e he, h.normal e he⟩⟩⟩

/-! ## Normal forms without repetition -/

/-- The entries of a normal form. -/
theorem mem_normalize_iff (h : util.Proper a) {e : Resource × Nat} :
    e ∈ util.normalize a ↔ ∃ e' ∈ a, e'.2 ≠ 0 ∧ (util.normalizeResource e'.1, e'.2) = e := by
  simp [normalize_of_proper h, and_assoc]

/-- No resource with a quantity is listed in both ways. -/
def NoRepeat (util : ResourceUtil) (a : ResourceAllocation) : Prop :=
  ∀ e ∈ a, ∀ e' ∈ a, e.2 ≠ 0 → e'.2 ≠ 0 → util.Same e.1 e'.1 → e = e'

/-- Normalization succeeds unless a resource is listed twice. -/
theorem Proper.normalized_iff (h : util.Proper a) :
    util.Normalized (util.normalize a) ↔ util.NoRepeat a := by
  have hnodup : (a.filter fun e => e.2 ≠ 0).Nodup := h.nodup.of_map.filter _
  have hkeys : ((util.normalize a).map Prod.fst).Nodup ↔ util.NoRepeat a := by
    rw [normalize_of_proper h, map_map, nodup_map_iff_inj_on hnodup]
    simp only [mem_filter, decide_eq_true_eq, and_imp]
    constructor
    · intro hinj e he e' he' hq hq' hsame
      exact hinj e he hq e' he' hq' ((same_iff (h.valid e he) (h.valid e' he')).mpr hsame)
    · intro hno e he hq e' he' hq' heq
      exact hno e he e' he' hq hq' ((same_iff (h.valid e he) (h.valid e' he')).mp heq)
  exact ⟨fun hn => hkeys.mp hn.nodup, fun hno => h.normalized_normalize (hkeys.mpr hno)⟩

/-- The quantities are representable. -/
def Bounded (a : ResourceAllocation) : Prop := ∀ e ∈ a, e.2 < quantityBound

/-- Normalization keeps quantities in their range. -/
theorem Bounded.normalize (h : Bounded a) : Bounded (util.normalize a) := by
  intro e he
  rw [ResourceUtil.normalize] at he
  split at he
  · exact h e he
  · obtain ⟨e', he', rfl⟩ := mem_map.mp he
    exact h e' (mem_filter.mp he').1

/-- The amount of a resource is in the range of quantities. -/
theorem Bounded.amount_lt (h : Bounded a) (hnodup : (a.map Prod.fst).Nodup) (r : Resource) :
    amount a r < quantityBound :=
  Tally.amount_lt hnodup h (by decide) r

/-- A resource with an amount has an entry. -/
theorem exists_mem_of_amount_pos (h : 0 < amount a r) (hnodup : (a.map Prod.fst).Nodup) :
    ∃ e ∈ a, e.1 = r ∧ e.2 = amount a r := by
  by_cases hr : r ∈ a.map Prod.fst
  · obtain ⟨e, he, rfl⟩ := mem_map.mp hr
    exact ⟨e, he, rfl, (amount_of_mem hnodup he).symm⟩
  · rw [amount_eq_zero hr] at h
    exact absurd h (lt_irrefl 0)

/-- A sum of two quantities wraps to zero only if it is the modulus, and then both are
positive. -/
theorem add_eq_of_mod_eq_zero {p q : Nat} (hp : p < quantityBound) (hq : q < quantityBound)
    (hpos : 0 < p + q) (hmod : (p + q) % quantityBound = 0) :
    0 < p ∧ 0 < q ∧ p + q = quantityBound := by
  rw [quantityBound] at *
  omega

/-! ## One operation -/

/-- A sum is normalized unless an amount wraps around to 0. -/
theorem Normalized.add_iff (ha : util.Normalized a) (hb : util.Normalized b)
    (hba : Bounded a) (hbb : Bounded b) : util.Normalized (ResourceUtil.addNormalized b a) ↔
      ∀ e ∈ a, ∀ e' ∈ b, e.1 = e'.1 → e.2 + e'.2 ≠ quantityBound := by
  rw [ha.addNormalized_iff (fun e he => hb.normal_of_mem he) (hba.amount_lt ha.nodup)]
  constructor
  · intro h e he e' he' heq hsum
    refine h e.1 (.inl (mem_map_of_mem he)) ?_
    rw [amount_of_mem ha.nodup he, heq, amount_of_mem hb.nodup he', hsum, Nat.mod_self]
  · intro h r hr hmod
    have hpos : 0 < amount a r + amount b r := by
      rcases hr with hr | hr
      · obtain ⟨e, he, rfl⟩ := mem_map.mp hr
        exact Nat.add_pos_left ((ha.pos e he).trans_le (le_amount he)) _
      · obtain ⟨e, he, rfl⟩ := mem_map.mp hr
        exact Nat.add_pos_right _ ((hb.pos e he).trans_le (le_amount he))
    obtain ⟨hpa, hpb, hsum⟩ := add_eq_of_mod_eq_zero (hba.amount_lt ha.nodup r)
      (hbb.amount_lt hb.nodup r) hpos hmod
    obtain ⟨e, he, rfl, hq⟩ := exists_mem_of_amount_pos hpa ha.nodup
    obtain ⟨e', he', heq, hq'⟩ := exists_mem_of_amount_pos hpb hb.nodup
    exact h e he e' he' heq.symm (by rw [hq, hq', hsum])

/-- An unbound and a bound quantity of a device and a kind do not add up to the modulus. -/
def NoOverflow (a : ResourceAllocation) : Prop :=
  ∀ e ∈ a, ∀ e' ∈ a, e.1.deviceInstance = none → e'.1.deviceInstance ≠ none →
    e.1.device = e'.1.device → e.1.kind = e'.1.kind → e.2 + e'.2 ≠ quantityBound

/-- An overbound allocation is normalized unless an amount wraps around to 0. -/
theorem Normalized.overbind_iff (ha : util.Normalized a) (hba : Bounded a) :
    util.Normalized (util.overbind a) ↔ NoOverflow a := by
  have hentries (e : Resource × Nat) (he : e ∈ a.flatMap util.overbindEntry) :=
    ha.normal_overbindEntry he
  rw [overbind_eq ha, (normalized_nil util).addNormalized_iff hentries fun _ => Nat.two_pow_pos 64]
  simp only [amount_nil, zero_add, map_nil, not_mem_nil, false_or]
  constructor
  · intro h e he e' he' hnone hsome hdevice hkind hsum
    obtain ⟨i, hi⟩ := Option.ne_none_iff_exists'.mp hsome
    have hmem : e' ∈ a.flatMap util.overbindEntry := by
      refine mem_flatMap.mpr ⟨e', he', ?_⟩
      rw [overbindEntry, if_pos (by rw [hi]; rfl)]
      exact mem_singleton_self e'
    refine h e'.1 (mem_map_of_mem hmem) ?_
    have hdemand : amount (a.flatMap util.overbindEntry) e'.1 = amount a e'.1 + amount a e.1 := by
      have heq' : e'.1 = ⟨e'.1.device, some i, e'.1.kind⟩ := by rw [← hi]
      have heq : e.1 = ⟨e'.1.device, none, e'.1.kind⟩ := by rw [← hdevice, ← hkind, ← hnone]
      rw [heq, heq', amount_overbindEntry ((ha.valid e' he').inst i hi), demand]
    rw [hdemand, amount_of_mem ha.nodup he, amount_of_mem ha.nodup he', add_comm, hsum,
      Nat.mod_self]
  · rintro h ⟨device, inst, kind⟩ hr hmod
    obtain ⟨e, he, heq⟩ := mem_map.mp hr
    obtain ⟨hvalid, hpos, -⟩ := hentries e he
    have hle := heq ▸ le_amount he
    rw [heq] at hvalid
    cases inst with
    | none =>
      rw [amount_overbindEntry_none] at hle
      omega
    | some i =>
      rw [amount_overbindEntry (hvalid.inst i rfl)] at hle hmod
      obtain ⟨hps, hpn, hsum⟩ := add_eq_of_mod_eq_zero (hba.amount_lt ha.nodup _)
        (hba.amount_lt ha.nodup _) (hpos.trans_le hle) hmod
      obtain ⟨e₁, he₁, heq₁, hq₁⟩ := exists_mem_of_amount_pos hps ha.nodup
      obtain ⟨e₂, he₂, heq₂, hq₂⟩ := exists_mem_of_amount_pos hpn ha.nodup
      refine h e₂ he₂ e₁ he₁ (by rw [heq₂]) (by simp [heq₁]) (by rw [heq₁, heq₂])
        (by rw [heq₁, heq₂]) ?_
      rw [hq₁, hq₂, add_comm, hsum]

/-- Sums are in the range of quantities. -/
theorem bounded_addNormalized (hbb : Bounded b) : Bounded (addNormalized a b) :=
  forall_upsertAll (P := (· < quantityBound)) hbb fun _ _ _ _ => Nat.mod_lt _ (Nat.two_pow_pos 64)

/-- A multiple is normalized unless an amount wraps around to 0. -/
theorem Normalized.multiply_iff (ha : util.Normalized a) (m : Nat) :
    util.Normalized (multiplyNormalized m a) ↔ ∀ e ∈ a, ¬quantityBound ∣ e.2 * m := by
  have hkeys : (multiplyNormalized m a).map Prod.fst = a.map Prod.fst := by
    rw [multiplyNormalized, map_map]
    rfl
  simp only [Nat.dvd_iff_mod_eq_zero]
  constructor
  · intro h e he
    exact (h.pos _ (mem_map_of_mem he)).ne'
  · intro h
    exact ⟨⟨forall_mem_map.mpr ha.valid, hkeys ▸ ha.nodup⟩,
      forall_mem_map.mpr fun e he => Nat.pos_of_ne_zero (h e he),
      forall_mem_map.mpr ha.normal⟩

/-- A maximum is normalized. -/
theorem Normalized.max (ha : util.Normalized a) (hb : util.Normalized b) :
    util.Normalized (maxNormalized a b) := by
  refine ⟨⟨forall_keys_upsertAll hb.valid ha.valid, nodup_upsertAll hb.nodup⟩,
    forall_upsertAll hb.pos fun e he q _ => ?_,
    forall_keys_upsertAll (P := fun r => util.normalizeResource r = r) hb.normal ha.normal⟩
  have hpos := ha.pos e he
  split <;> omega

/-! ## Conditions on what is given -/

variable (ha : util.Proper a) (hb : util.Proper b) (hba : Bounded a) (hbb : Bounded b)

include ha hb hba hbb in
/-- The sums that wrap around, before and after normalization. -/
theorem sums_normalize_iff :
    (∀ e ∈ util.normalize a, ∀ e' ∈ util.normalize b, e.1 = e'.1 → e.2 + e'.2 ≠ quantityBound) ↔
      ∀ e ∈ a, ∀ e' ∈ b, util.Same e.1 e'.1 → e.2 + e'.2 ≠ quantityBound := by
  simp only [mem_normalize_iff ha, mem_normalize_iff hb]
  constructor
  · intro h e he e' he' hsame hsum
    have hlt := hba e he
    have hlt' := hbb e' he'
    exact h _ ⟨e, he, by omega, rfl⟩ _ ⟨e', he', by omega, rfl⟩
      ((same_iff (ha.valid e he) (hb.valid e' he')).mpr hsame) hsum
  · rintro h _ ⟨e, he, -, rfl⟩ _ ⟨e', he', -, rfl⟩ heq
    exact h e he e' he' ((same_iff (ha.valid e he) (hb.valid e' he')).mp heq)

include ha hba in
/-- Overflows before and after normalization. -/
theorem noOverflow_normalize_iff (hno : util.NoRepeat a) :
    NoOverflow (util.normalize a) ↔ NoOverflow a := by
  simp only [NoOverflow, mem_normalize_iff ha]
  constructor
  · intro h e he e' he' hnone hsome hdevice hkind hsum
    have hlt := hba e he
    have hlt' := hba e' he'
    -- A device with one instance would be listed in both ways.
    have hmany : util.numInstances e.1.device ≠ 1 := fun hone => by
      have heq := hno e he e' he' (by omega) (by omega) ⟨hdevice, hkind, .inr hone⟩
      exact hsome (heq ▸ hnone)
    have hself : util.normalizeResource e.1 = e.1 := by
      rw [(ha.valid e he).normalizeResource_eq, if_neg hmany]
    have hself' : util.normalizeResource e'.1 = e'.1 := by
      rw [(ha.valid e' he').normalizeResource_eq, if_neg (hdevice ▸ hmany)]
    exact h e ⟨e, he, by omega, by rw [hself]⟩ e' ⟨e', he', by omega, by rw [hself']⟩ hnone hsome
      hdevice hkind hsum
  · rintro h _ ⟨e, he, -, rfl⟩ _ ⟨e', he', -, rfl⟩ hnone hsome hdevice hkind
    simp only [(ha.valid e he).normalizeResource_eq, (ha.valid e' he').normalizeResource_eq] at *
    by_cases hone : util.numInstances e.1.device = 1
    · rw [if_pos hone] at hnone
      cases hnone
    · rw [if_neg hone] at hnone hdevice hkind
      by_cases hone' : util.numInstances e'.1.device = 1
      · rw [if_pos hone'] at hdevice
        exact absurd (hdevice ▸ hone') hone
      · rw [if_neg hone'] at hsome hdevice hkind
        exact h e he e' he' hnone hsome hdevice hkind

end ResourceUtil

/-! ## Computations -/

open ResourceUtil

/-- The operations on one allocation. -/
inductive Unary where
  | normalize
  | multiply (multiplier : Nat)
  | overbind

/-- The operations on two allocations. -/
inductive Binary where
  | add
  | subtract
  | max

variable (util : ResourceUtil)

/-- What the operation computes. -/
def Unary.apply : Unary → ResourceAllocation → ResourceAllocation
  | normalize => util.normalize
  | multiply multiplier => util.multiply multiplier
  | overbind => util.overbind

/-- What the operation computes; a subtraction that fails leaves the normalised base. -/
def Binary.apply : Binary → ResourceAllocation → ResourceAllocation →
    ResourceAllocation
  | add, toAdd, base => util.add toAdd base
  | subtract, toSubtract, base => (util.subtract toSubtract base).getD (util.normalize base)
  | max, lhs, rhs => util.max lhs rhs

/-- No quantity of the result wraps to zero. -/
def Unary.NoWrap (a : ResourceAllocation) : Unary → Prop
  | normalize => True
  | multiply multiplier => ∀ e ∈ a, e.2 ≠ 0 → ¬quantityBound ∣ e.2 * multiplier
  | overbind => NoOverflow a

/-- No quantity of the result wraps to zero. -/
def Binary.NoWrap (a b : ResourceAllocation) : Binary → Prop
  | add => ∀ e ∈ a, ∀ e' ∈ b, util.Same e.1 e'.1 → e.2 + e'.2 ≠ quantityBound
  | subtract => True
  | max => True

/-- The operand lists no resource in both ways and no quantity wraps to zero. -/
def Unary.Admissible (op : Unary) (a : ResourceAllocation) : Prop :=
  util.NoRepeat a ∧ op.NoWrap a

/-- No operand lists a resource in both ways and no quantity wraps to zero. -/
def Binary.Admissible (op : Binary) (a b : ResourceAllocation) : Prop :=
  util.NoRepeat a ∧ util.NoRepeat b ∧ op.NoWrap util a b

section

variable {util : ResourceUtil} {a b : ResourceAllocation} (ha : util.Proper a)
  (hb : util.Proper b) (hba : Bounded a) (hbb : Bounded b)

include ha hba

/-- A unary operation stays normalized exactly if it is admissible. -/
theorem Unary.normalized_apply_iff (op : Unary) :
    util.Normalized (util.normalize a) ∧ util.Normalized (op.apply util a) ↔
      op.Admissible util a := by
  rw [ha.normalized_iff]
  refine and_congr_right fun hno => ?_
  have hnorm := ha.normalized_iff.mpr hno
  cases op with
  | normalize => exact ⟨fun _ => trivial, fun _ => hnorm⟩
  | multiply m =>
    refine (hnorm.multiply_iff m).trans ?_
    simp only [mem_normalize_iff ha]
    exact ⟨fun h e he hq => h (util.normalizeResource e.1, e.2) ⟨e, he, hq, rfl⟩,
      fun h _ ⟨e, he, hq, heq⟩ => heq ▸ h e he hq⟩
  | overbind =>
    rw [Unary.apply, overbind_normalize hnorm, hnorm.overbind_iff hba.normalize,
      noOverflow_normalize_iff ha hba hno, Unary.NoWrap]

/-- Admissible unary operations stay in the range of quantities. -/
theorem Unary.bounded_apply (op : Unary) (h : op.Admissible util a) :
    Bounded (op.apply util a) := by
  cases op with
  | normalize => exact hba.normalize
  | multiply m => exact forall_mem_map.mpr fun e _ => Nat.mod_lt _ (Nat.two_pow_pos 64)
  | overbind =>
    have hnorm := ha.normalized_iff.mpr h.1
    rw [Unary.apply, overbind_normalize hnorm, overbind_eq hnorm]
    exact bounded_addNormalized fun _ he => absurd he not_mem_nil

include hb hbb

/-- A binary operation stays normalized exactly if it is admissible. -/
theorem Binary.normalized_apply_iff (op : Binary) :
    util.Normalized (util.normalize a) ∧ util.Normalized (util.normalize b) ∧
        util.Normalized (op.apply util a b) ↔ op.Admissible util a b := by
  rw [ha.normalized_iff, hb.normalized_iff]
  refine and_congr_right fun hnoA => and_congr_right fun hnoB => ?_
  have hna := ha.normalized_iff.mpr hnoA
  have hnb := hb.normalized_iff.mpr hnoB
  cases op with
  | add =>
    refine (hnb.add_iff hna hbb.normalize hba.normalize).trans ?_
    rw [Binary.NoWrap, ← sums_normalize_iff ha hb hba hbb]
    exact ⟨fun h e he e' he' heq => Nat.add_comm .. ▸ h e' he' e he heq.symm,
      fun h e he e' he' heq => Nat.add_comm .. ▸ h e' he' e he heq.symm⟩
  | subtract =>
    refine ⟨fun _ => trivial, fun _ => ?_⟩
    rw [Binary.apply, ResourceUtil.subtract]
    rcases hnb.subtractNormalized hna with ⟨-, rest, hrest, hnorm, -⟩ | ⟨-, hnone⟩
    · rwa [hrest]
    · rwa [hnone]
  | max => exact ⟨fun _ => trivial, fun _ => hna.max hnb⟩

/-- Admissible binary operations stay in the range of quantities. -/
theorem Binary.bounded_apply (op : Binary) (h : op.Admissible util a b) :
    Bounded (op.apply util a b) := by
  have hna := ha.normalized_iff.mpr h.1
  have hnb := hb.normalized_iff.mpr h.2.1
  cases op with
  | add => exact bounded_addNormalized hbb.normalize
  | subtract =>
    rw [Binary.apply, ResourceUtil.subtract]
    rcases hnb.subtractNormalized hna with ⟨-, rest, hrest, hnorm, hsub⟩ | ⟨-, hnone⟩
    · rw [hrest]
      intro e he
      have hlt := hbb.normalize.amount_lt hnb.nodup e.1
      have hle := hsub e.1
      rw [amount_of_mem hnorm.nodup he] at hle
      omega
    · rw [hnone]
      exact hbb.normalize
  | max =>
    refine forall_upsertAll (P := (· < quantityBound)) hbb.normalize fun e he q hq => ?_
    have hlt := hba.normalize e he
    split <;> omega

end

/-- Allocations computed from given ones. -/
inductive Computation where
  | given (a : ResourceAllocation)
  | unary (op : Unary) (x : Computation)
  | binary (op : Binary) (x y : Computation)

namespace Computation

/-- The allocation that is computed. -/
def eval (util : ResourceUtil) : Computation → ResourceAllocation
  | given a => a
  | unary op x => op.apply util (x.eval util)
  | binary op x y => op.apply util (x.eval util) (y.eval util)

/-- What is given is valid. -/
def Valid (util : ResourceUtil) : Computation → Prop
  | given a => (util.verifyValidity a).code = .ok ∧ Bounded a
  | unary _ x => x.Valid util
  | binary _ x y => x.Valid util ∧ y.Valid util

/-- Every operation finds its operands in normal form once they are normalised, and its
result is valid and in normal form. -/
def checks (util : ResourceUtil) : Computation → Bool
  | given _ => true
  | unary op x => x.checks util && util.isNormalized (util.normalize (x.eval util)) &&
      util.isNormalized (op.apply util (x.eval util))
  | binary op x y => x.checks util && y.checks util &&
      util.isNormalized (util.normalize (x.eval util)) &&
      util.isNormalized (util.normalize (y.eval util)) &&
      util.isNormalized (op.apply util (x.eval util) (y.eval util))

/-- Every operation is admissible for its operands. -/
def Admissible (util : ResourceUtil) : Computation → Prop
  | given _ => True
  | unary op x => x.Admissible util ∧ op.Admissible util (x.eval util)
  | binary op x y => (x.Admissible util ∧ y.Admissible util) ∧
      op.Admissible util (x.eval util) (y.eval util)

variable {util : ResourceUtil}

/-- An admissible computation gives a valid allocation. -/
theorem Admissible.proper_bounded {x : Computation} (h : x.Admissible util)
    (hx : x.Valid util) : util.Proper (x.eval util) ∧ Bounded (x.eval util) := by
  induction x with
  | given a => exact ⟨verifyValidity_ok_iff.mp hx.1, hx.2⟩
  | unary op x ih =>
    obtain ⟨hproper, hbounded⟩ := ih h.1 hx
    exact ⟨((op.normalized_apply_iff hproper hbounded).mpr h.2).2.toProper,
      op.bounded_apply hproper hbounded h.2⟩
  | binary op x y ihx ihy =>
    obtain ⟨hproper, hbounded⟩ := ihx h.1.1 hx.1
    obtain ⟨hproper', hbounded'⟩ := ihy h.1.2 hx.2
    exact ⟨((op.normalized_apply_iff hproper hproper' hbounded hbounded').mpr h.2).2.2.toProper,
      op.bounded_apply hproper hproper' hbounded hbounded' h.2⟩

/-- All results of a computation are valid and in normal form exactly if every operation is
admissible for what it is applied to. -/
theorem checks_iff_admissible (util : ResourceUtil) (x : Computation) (hx : x.Valid util) :
    x.checks util = true ↔ x.Admissible util := by
  induction x with
  | given a => exact ⟨fun _ => trivial, fun _ => rfl⟩
  | unary op x ih =>
    simp only [checks, Bool.and_eq_true, isNormalized_iff, ih hx, and_assoc]
    refine and_congr_right fun hadm => ?_
    obtain ⟨hproper, hbounded⟩ := hadm.proper_bounded hx
    exact op.normalized_apply_iff hproper hbounded
  | binary op x y ihx ihy =>
    simp only [checks, Bool.and_eq_true, isNormalized_iff, ihx hx.1, ihy hx.2,
      Admissible, and_assoc]
    refine and_congr_right fun hadm => and_congr_right fun hadm' => ?_
    obtain ⟨hproper, hbounded⟩ := hadm.proper_bounded hx.1
    obtain ⟨hproper', hbounded'⟩ := hadm'.proper_bounded hx.2
    exact op.normalized_apply_iff hproper hproper' hbounded hbounded'

/-- One device with one instance. -/
def oneInstance (device : String) : Option Nat := if device = "gpu" then some 1 else none

/-- The bound and the unbound way of writing the only instance. -/
def writtenTwice : ResourceAllocation :=
  [(⟨"gpu", none, "ram"⟩, 1), (⟨"gpu", some 0, "ram"⟩, 1)]

/-- A valid allocation whose normal form is not valid. -/
theorem normalize_writtenTwice :
    ((ResourceUtil.create oneInstance).verifyValidity writtenTwice).code = .ok ∧
      ((ResourceUtil.create oneInstance).verifyValidity
        ((ResourceUtil.create oneInstance).normalize writtenTwice)).code ≠ .ok ∧
      (unary .normalize (given writtenTwice)).checks (ResourceUtil.create oneInstance) = false := by
  decide

/-- Twice a quantity of a device with one instance, added to a bound quantity. -/
theorem checks_add_multiply : (binary .add (unary (.multiply 2) (given [(⟨"gpu", none, "ram"⟩, 3)]))
      (given [(⟨"gpu", some 0, "ram"⟩, 4)])).Admissible (ResourceUtil.create oneInstance) :=
  (checks_iff_admissible (ResourceUtil.create oneInstance)
    (binary .add (unary (.multiply 2) (given [(⟨"gpu", none, "ram"⟩, 3)]))
      (given [(⟨"gpu", some 0, "ram"⟩, 4)]))
    ⟨⟨by decide, by simp [Bounded, quantityBound]⟩, by decide,
      by simp [Bounded, quantityBound]⟩).mp (by decide)

end Computation

end Tension.Resources
