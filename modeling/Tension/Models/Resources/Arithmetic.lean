import Tension.Models.Resources.Closure

/-!
# The laws of addition, subtraction and equality

Equality of allocations is equality of the quantities in their normal forms, addition adds
these quantities and subtraction takes them away. `GetQuantity` looks at an allocation as
it is written and stops at the first entry for the resource. An entry with quantity zero
hides a later one that writes the resource the other way, and then the quantities do not
add up.
-/

namespace Tension.Resources

open Tally List

namespace ResourceUtil

open Resources.Computation (oneInstance)

variable {util : ResourceUtil} {a b c : ResourceAllocation} {r r' : Resource}

/-! ## Equality -/

/-- Resources are equal if they are one resource after normalization. -/
theorem resourcesEqual_iff (h : util.Valid r) : util.resourcesEqual r r' = true ↔
      util.Valid r' ∧ util.normalizeResource r = util.normalizeResource r' := by
  have hvalid : util.Valid (util.normalizeResource r') ↔ util.Valid r' := by
    refine ⟨fun hv => ?_, valid_normalizeResource⟩
    rw [normalizeResource] at hv
    split at hv
    · next hone => exact ⟨hv.device, fun i hi => by simp [hone.1] at hi⟩
    · exact hv
  simp [resourcesEqual, resourcesEqualNormalized, verifyResourceValidity_ok_iff, hvalid,
    valid_normalizeResource h]

section

variable (ha : util.Normalized a)
include ha

/-- Equality up to the order of the entries. -/
theorem Normalized.equalNormalized_iff (hb : util.Normalized b) :
    util.equalNormalized a b = true ↔ a.Perm b := by
  have hany : ∀ e ∈ a, ((b.any fun e' => util.resourcesEqual e.1 e'.1 && e.2 = e'.2) = true ↔
      e ∈ b) := by
    intro e he
    simp only [any_eq_true, Bool.and_eq_true, decide_eq_true_eq, resourcesEqual_iff (ha.valid e he)]
    constructor
    · rintro ⟨e', he', ⟨-, heq⟩, hq⟩
      rw [ha.normal e he, hb.normal e' he'] at heq
      exact Prod.ext heq hq ▸ he'
    · exact fun hmem => ⟨e, hmem, ⟨ha.valid e he, rfl⟩, rfl⟩
  simp only [equalNormalized, Bool.and_eq_true, decide_eq_true_eq, verifyValidity_ok_iff,
    ha.toProper, hb.toProper, true_and, all_eq_true]
  constructor
  · rintro ⟨hlength, hall⟩
    have hsubset : a ⊆ b := fun e he => (hany e he).mp (hall e he)
    exact (subperm_of_subset ha.nodup.of_map hsubset).perm_of_length_le hlength.ge
  · exact fun hperm => ⟨hperm.length_eq, fun e he => (hany e he).mpr (hperm.mem_iff.mp he)⟩

/-- The entries of a normal form are its positive amounts. -/
theorem Normalized.mem_iff {e : Resource × Nat} : e ∈ a ↔ 0 < e.2 ∧ amount a e.1 = e.2 := by
  refine ⟨fun he => ⟨ha.pos e he, amount_of_mem ha.nodup he⟩, fun ⟨hpos, heq⟩ => ?_⟩
  obtain ⟨e', he', hr, hq⟩ := exists_mem_of_amount_pos (heq ▸ hpos) ha.nodup
  exact Prod.ext hr (hq.trans heq) ▸ he'

/-- Normal forms are equal exactly if they have the same quantities. -/
theorem Normalized.perm_iff (hb : util.Normalized b) : a.Perm b ↔ ∀ r, amount a r = amount b r := by
  constructor
  · intro hperm r
    exact (hperm.map _).sum_eq
  · intro h
    refine (perm_ext_iff_of_nodup ha.nodup.of_map hb.nodup.of_map).mpr fun e => ?_
    rw [ha.mem_iff, hb.mem_iff, h]

theorem Normalized.normalize : util.Normalized (util.normalize a) :=
  ha.normalize_eq.symm ▸ ha

end

section

variable (ha : util.Normalized (util.normalize a))
include ha

/-- Equality of the normalized amounts. -/
theorem equal_iff (hb : util.Normalized (util.normalize b)) : util.equal a b = true ↔
      ∀ r, amount (util.normalize a) r = amount (util.normalize b) r := by
  rw [equal, ha.equalNormalized_iff hb, ha.perm_iff hb]

theorem equal_of_perm (h : (util.normalize a).Perm (util.normalize b)) : util.equal a b = true := by
  have hb : util.Normalized (util.normalize b) :=
    ⟨⟨fun e he => ha.valid e (h.mem_iff.mpr he), (h.map Prod.fst).nodup_iff.mp ha.nodup⟩,
      fun e he => ha.pos e (h.mem_iff.mpr he), fun e he => ha.normal e (h.mem_iff.mpr he)⟩
  rw [equal, ha.equalNormalized_iff hb]
  exact h

/-! ## Sums -/

/-- Sums that do not wrap around. -/
theorem add_spec (hb : util.Normalized (util.normalize b))
    (hw : ∀ r, amount (util.normalize a) r + amount (util.normalize b) r < quantityBound) :
    util.Normalized (util.add a b) ∧
      ∀ r, amount (util.add a b) r = amount (util.normalize a) r + amount (util.normalize b) r := by
  obtain ⟨hnorm, hamount⟩ := hb.addNormalized (fun e he => ha.normal_of_mem he) fun r =>
    Nat.add_comm .. ▸ hw r
  exact ⟨hnorm, fun r => (hamount r).trans (add_comm ..)⟩

end

/-! ## Quantities as they are written -/

/-- The entries with their resources in normal form. -/
def normalEntries (util : ResourceUtil) (a : ResourceAllocation) : ResourceAllocation :=
  a.map fun e => (util.normalizeResource e.1, e.2)

/-- Normalization drops the entries that are zero. -/
theorem Proper.normalize_eq_filter (ha : util.Proper a) :
    util.normalize a = (util.normalEntries a).filter fun e => e.2 ≠ 0 := by
  rw [normalize_of_proper ha, normalEntries, filter_map]
  rfl

/-- Normalization keeps the amounts. -/
theorem Proper.amount_normalize (ha : util.Proper a) (r : Resource) :
    amount (util.normalize a) r = amount (util.normalEntries a) r := by
  rw [ha.normalize_eq_filter, amount_filter_ne_zero]

/-- No entry with quantity zero stands before an entry with a quantity that writes the same
resource. -/
def Unshadowed (util : ResourceUtil) (a : ResourceAllocation) : Prop :=
  a.Pairwise fun e e' => e.2 = 0 → util.Same e.1 e'.1 → e'.2 = 0

theorem getQuantity_cons (e : Resource × Nat) (a : ResourceAllocation) (r : Resource) :
    util.getQuantity r (e :: a) =
      if util.resourcesEqual e.1 r = true then e.2 else util.getQuantity r a := by
  rw [getQuantity, find?_cons]
  cases util.resourcesEqual e.1 r <;> rfl

/-- What the first entry adds to the quantity of a valid resource. -/
theorem amount_normalEntries_cons {e : Resource × Nat} (he : util.Valid e.1) (hr : util.Valid r) :
    amount (util.normalEntries (e :: a)) (util.normalizeResource r) =
      (if util.resourcesEqual e.1 r = true then e.2 else 0) +
        amount (util.normalEntries a) (util.normalizeResource r) := by
  rw [normalEntries, normalEntries]
  simp [resourcesEqual_iff he, hr]

/-- `GetQuantity` finds no more than there is. -/
theorem getQuantity_le (ha : ∀ e ∈ a, util.Valid e.1) (hr : util.Valid r) :
    util.getQuantity r a ≤ amount (util.normalEntries a) (util.normalizeResource r) := by
  induction a with
  | nil => exact Nat.zero_le _
  | cons e a ih =>
    obtain ⟨he, ha⟩ := forall_mem_cons.mp ha
    have hle := ih ha
    rw [getQuantity_cons, amount_normalEntries_cons he hr]
    split <;> omega

/-- Without hidden entries `GetQuantity` reads the quantity of the normal form. -/
theorem Unshadowed.getQuantity (h : util.Unshadowed a) (ha : ∀ e ∈ a, util.Valid e.1)
    (hno : util.NoRepeat a) (hnodup : a.Nodup) (hr : util.Valid r) :
    util.getQuantity r a = amount (util.normalEntries a) (util.normalizeResource r) := by
  induction a with
  | nil => rfl
  | cons e a ih =>
    obtain ⟨he, ha⟩ := forall_mem_cons.mp ha
    obtain ⟨hshadow, h⟩ := pairwise_cons.mp h
    obtain ⟨hnot, hnodup⟩ := nodup_cons.mp hnodup
    have htail : util.NoRepeat a := fun e' he' e'' he'' =>
      hno e' (mem_cons_of_mem _ he') e'' (mem_cons_of_mem _ he'')
    rw [getQuantity_cons, amount_normalEntries_cons he hr, ih h ha htail hnodup]
    split
    · next hequal =>
      -- The other entries for the resource have quantity zero.
      have hsame := ((resourcesEqual_iff he).mp hequal).2
      suffices hzero : amount (util.normalEntries a) (util.normalizeResource r) = 0 by omega
      rw [← amount_filter_ne_zero]
      refine amount_eq_zero fun hmem => ?_
      obtain ⟨e', he', heq⟩ := mem_map.mp hmem
      obtain ⟨hmem', hq⟩ := mem_filter.mp he'
      obtain ⟨e'', he'', rfl⟩ := mem_map.mp hmem'
      have hq : e''.2 ≠ 0 := by simpa using hq
      have hboth := (same_iff he (ha e'' he'')).mp (hsame.trans heq.symm)
      by_cases hz : e.2 = 0
      · exact hq (hshadow e'' he'' hz hboth)
      · exact hnot (hno e mem_cons_self e'' (mem_cons_of_mem _ he'') hz hq hboth ▸ he'')
    · omega

/-- A hidden entry is not counted. -/
theorem exists_getQuantity_lt (h : ¬util.Unshadowed a) (ha : ∀ e ∈ a, util.Valid e.1) :
    ∃ r, util.Valid r ∧
      util.getQuantity r a < amount (util.normalEntries a) (util.normalizeResource r) := by
  induction a with
  | nil => exact absurd List.Pairwise.nil h
  | cons e a ih =>
    obtain ⟨he, ha⟩ := forall_mem_cons.mp ha
    by_cases htail : util.Unshadowed a
    · have hhead : ¬∀ e' ∈ a, e.2 = 0 → util.Same e.1 e'.1 → e'.2 = 0 := fun hall =>
        h (pairwise_cons.mpr ⟨hall, htail⟩)
      push Not at hhead
      obtain ⟨e', he', hz, hsame, hq⟩ := hhead
      refine ⟨e'.1, ha e' he', ?_⟩
      have hequal : util.resourcesEqual e.1 e'.1 = true :=
        (resourcesEqual_iff he).mpr ⟨ha e' he', (same_iff he (ha e' he')).mpr hsame⟩
      have hle : e'.2 ≤ amount (util.normalEntries a) (util.normalizeResource e'.1) :=
        le_amount (mem_map_of_mem (f := fun e => (util.normalizeResource e.1, e.2)) he')
      rw [getQuantity_cons, amount_normalEntries_cons he (ha e' he'), if_pos hequal]
      omega
    · obtain ⟨r, hr, hlt⟩ := ih htail ha
      refine ⟨r, hr, ?_⟩
      rw [getQuantity_cons, amount_normalEntries_cons he hr]
      split <;> omega

/-- Nothing is found for an invalid resource. -/
theorem getQuantity_eq_zero (ha : ∀ e ∈ a, util.Valid e.1) (hr : ¬util.Valid r) :
    util.getQuantity r a = 0 := by
  have hnone : (a.find? fun e => util.resourcesEqual e.1 r) = none :=
    find?_eq_none.mpr fun e he hequal => hr ((resourcesEqual_iff (ha e he)).mp hequal).1
  rw [getQuantity, hnone]

/-- `GetQuantity` is the amount in a normal form. -/
theorem Normalized.getQuantity_eq (ha : util.Normalized a) (hr : util.Valid r) :
    util.getQuantity r a = amount a (util.normalizeResource r) := by
  have hself : util.getQuantity r a = util.getQuantity (util.normalizeResource r) a := by
    rw [ResourceUtil.getQuantity, ResourceUtil.getQuantity]
    simp [resourcesEqual, normalizeResource_idem]
  rw [hself, ha.getQuantity (valid_normalizeResource hr) (normalizeResource_idem util r)]

/-! ## The laws -/

/-- The laws of the operations for three allocations. -/
structure ArithmeticLaws (util : ResourceUtil) (a b c : ResourceAllocation) : Prop where
  add_comm : util.equal (util.add a b) (util.add b a) = true
  add_assoc : util.equal (util.add a (util.add b c)) (util.add (util.add a b) c) = true
  subtract_add : ∃ rest, util.subtract b (util.add a b) = some rest ∧ util.equal rest a = true
  subtract_isSome_iff : (util.subtract b a).isSome = true ↔
    ∀ e ∈ b, util.getQuantity e.1 b ≤ util.getQuantity e.1 a
  /-- A subtraction that fails leaves the normalised base. -/
  subtract_none : util.subtract b a = none → util.equal (util.normalize a) a = true
  getQuantity_add : ∀ r,
    util.getQuantity r (util.add a b) = util.getQuantity r a + util.getQuantity r b
  equal_refl : util.equal a a = true
  equal_symm : util.equal a b = true → util.equal b a = true
  equal_trans : util.equal a b = true → util.equal b c = true → util.equal a c = true
  equal_reorder : ∀ a', a'.Perm a → util.equal a a' = true
  equal_insert_zero : ∀ l l' r, a = l ++ l' →
    (util.verifyValidity (l ++ (r, 0) :: l')).code = .ok →
    util.equal a (l ++ (r, 0) :: l') = true
  equal_respell : ∀ a', (util.verifyValidity a').code = .ok →
    List.Forall₂ (fun e e' => util.Same e.1 e'.1 ∧ e.2 = e'.2) a a' → util.equal a a' = true

section

variable (ha : util.Proper a) (hna : util.Normalized (util.normalize a)) (hb : util.Proper b)
  (hnb : util.Normalized (util.normalize b))

include ha hna

/-- The order of the entries does not matter. -/
theorem equal_of_reorder {a' : ResourceAllocation} (h : a'.Perm a) : util.equal a a' = true := by
  have ha' : util.Proper a' :=
    ⟨fun e he => ha.valid e (h.mem_iff.mp he), (h.map Prod.fst).nodup_iff.mpr ha.nodup⟩
  refine equal_of_perm hna ?_
  rw [normalize_of_proper ha, normalize_of_proper ha']
  exact ((h.filter _).map _).symm

/-- Entries of zero do not matter. -/
theorem equal_of_insert_zero {l l' : ResourceAllocation} (heq : a = l ++ l')
    (h' : util.Proper (l ++ (r, 0) :: l')) : util.equal a (l ++ (r, 0) :: l') = true := by
  refine equal_of_perm hna (List.Perm.of_eq ?_)
  rw [normalize_of_proper ha, normalize_of_proper h', heq, filter_append, filter_append,
    filter_cons_of_neg (by simp)]

/-- The spelling of a resource does not matter. -/
theorem equal_of_respell {a' : ResourceAllocation} (ha' : util.Proper a')
    (h : List.Forall₂ (fun e e' => util.Same e.1 e'.1 ∧ e.2 = e'.2) a a') :
    util.equal a a' = true := by
  have hentries : util.normalEntries a = util.normalEntries a' := by
    have hv := ha.valid
    have hv' := ha'.valid
    clear ha hna ha'
    induction h with
    | nil => rfl
    | @cons e e' l l' hsame _ ih =>
      obtain ⟨he, hv⟩ := forall_mem_cons.mp hv
      obtain ⟨he', hv'⟩ := forall_mem_cons.mp hv'
      exact congrArg₂ cons (Prod.ext ((same_iff he he').mpr hsame.1) hsame.2) (ih hv hv')
  refine equal_of_perm hna (List.Perm.of_eq ?_)
  rw [ha.normalize_eq_filter, ha'.normalize_eq_filter, hentries]

/-- `GetQuantity` of a valid resource, if no entry is hidden. -/
theorem Unshadowed.getQuantity_normalize (h : util.Unshadowed a) (hr : util.Valid r) :
    util.getQuantity r a = amount (util.normalize a) (util.normalizeResource r) := by
  rw [h.getQuantity ha.valid (ha.normalized_iff.mp hna) ha.nodup.of_map hr, ha.amount_normalize]

include hb hnb

/-- Subtraction succeeds exactly if no quantity that is written is too large. -/
theorem subtract_isSome (hua : util.Unshadowed a) (hub : util.Unshadowed b) :
    (util.subtract b a).isSome = true ↔
      ∀ e ∈ b, util.getQuantity e.1 b ≤ util.getQuantity e.1 a := by
  have hwritten : (∀ e ∈ b, util.getQuantity e.1 b ≤ util.getQuantity e.1 a) ↔
      ∀ r, amount (util.normalize b) r ≤ amount (util.normalize a) r := by
    constructor
    · intro h r
      by_cases hr : r ∈ (util.normalize b).map Prod.fst
      · obtain ⟨e, he, rfl⟩ := mem_map.mp hr
        obtain ⟨e', he', -, rfl⟩ := (mem_normalize_iff hb).mp he
        have hle := h e' he'
        rwa [hub.getQuantity_normalize hb hnb (hb.valid e' he'),
          hua.getQuantity_normalize ha hna (hb.valid e' he')] at hle
      · rw [amount_eq_zero hr]
        exact Nat.zero_le _
    · intro h e he
      rw [hub.getQuantity_normalize hb hnb (hb.valid e he),
        hua.getQuantity_normalize ha hna (hb.valid e he)]
      exact h _
  rw [hwritten, subtract]
  rcases hna.subtractNormalized hnb with ⟨hle, rest, hrest, -⟩ | ⟨hnot, hnone⟩
  · rw [hrest]
    exact ⟨fun _ => hle, fun _ => rfl⟩
  · rw [hnone]
    exact iff_of_false (by simp) hnot

omit ha hb in
theorem subtract_add_of_normalized
    (hw : ∀ r, amount (util.normalize a) r + amount (util.normalize b) r < quantityBound) :
    ∃ rest, util.subtract b (util.add a b) = some rest ∧ util.equal rest a = true := by
  obtain ⟨hadd, hamount⟩ := add_spec hna hnb hw
  rw [subtract, hadd.normalize_eq]
  rcases hadd.subtractNormalized hnb with ⟨-, rest, hrest, hnorm, hsub⟩ | ⟨hnot, -⟩
  · refine ⟨rest, hrest, (equal_iff hnorm.normalize hna).mpr fun r => ?_⟩
    rw [hnorm.normalize_eq]
    have hr := hsub r
    rw [hamount] at hr
    omega
  · refine absurd (fun r => ?_) hnot
    rw [hamount]
    exact Nat.le_add_left ..

end

/-- The laws hold exactly if neither summand hides a quantity behind a zero. -/
theorem arithmeticLaws_iff (util : ResourceUtil) (a b c : ResourceAllocation)
    (ha : (util.verifyValidity a).code = .ok) (hb : (util.verifyValidity b).code = .ok)
    (hc : (util.verifyValidity c).code = .ok) (hna : ((util.normalize a).map Prod.fst).Nodup)
    (hnb : ((util.normalize b).map Prod.fst).Nodup) (hnc : ((util.normalize c).map Prod.fst).Nodup)
    (hsum : ∀ r, amount (util.normalize a) r + amount (util.normalize b) r +
      amount (util.normalize c) r < quantityBound) :
    util.ArithmeticLaws a b c ↔ util.Unshadowed a ∧ util.Unshadowed b := by
  rw [verifyValidity_ok_iff] at ha hb hc
  have hna := ha.normalized_normalize hna
  have hnb := hb.normalized_normalize hnb
  have hnc := hc.normalized_normalize hnc
  obtain ⟨hab, hamount⟩ := add_spec hna hnb fun r => by
    have hr := hsum r
    omega
  have hquantity {r : Resource} (hr : util.Valid r) : util.getQuantity r (util.add a b) =
      amount (util.normalEntries a) (util.normalizeResource r) +
        amount (util.normalEntries b) (util.normalizeResource r) := by
    rw [hab.getQuantity_eq hr, hamount, ha.amount_normalize, hb.amount_normalize]
  constructor
  · intro h
    have hcounted {r : Resource} (hr : util.Valid r) :=
      (hquantity hr).symm.trans (h.getQuantity_add r)
    constructor
    · by_contra hshadow
      obtain ⟨r, hr, hlt⟩ := exists_getQuantity_lt hshadow ha.valid
      have hle := getQuantity_le hb.valid hr
      have hr := hcounted hr
      omega
    · by_contra hshadow
      obtain ⟨r, hr, hlt⟩ := exists_getQuantity_lt hshadow hb.valid
      have hle := getQuantity_le ha.valid hr
      have hr := hcounted hr
      omega
  · rintro ⟨hua, hub⟩
    obtain ⟨hba, hamount'⟩ := add_spec hnb hna fun r => by
      have hr := hsum r
      omega
    obtain ⟨hbc, hamountBc⟩ := add_spec hnb hnc fun r => by
      have hr := hsum r
      omega
    obtain ⟨hleft, hamountLeft⟩ := add_spec hna hbc.normalize fun r => by
      have hr := hsum r
      rw [hbc.normalize_eq, hamountBc]
      omega
    obtain ⟨hright, hamountRight⟩ := add_spec hab.normalize hnc fun r => by
      have hr := hsum r
      rw [hab.normalize_eq, hamount]
      omega
    exact {
      add_comm := (equal_iff hab.normalize hba.normalize).mpr
        fun r => by
          rw [hab.normalize_eq, hba.normalize_eq, hamount, hamount', add_comm]
      add_assoc := (equal_iff hleft.normalize
        hright.normalize).mpr fun r => by
          rw [hleft.normalize_eq, hright.normalize_eq, hamountLeft, hamountRight,
            hab.normalize_eq, hbc.normalize_eq, hamount, hamountBc, add_assoc]
      subtract_add := subtract_add_of_normalized hna hnb fun r => by
        have hr := hsum r
        omega
      subtract_isSome_iff := subtract_isSome ha hna hb hnb hua hub
      subtract_none := fun _ => (equal_iff hna.normalize hna).mpr fun r => by
        rw [hna.normalize_eq]
      getQuantity_add := fun r => by
        by_cases hr : util.Valid r
        · rw [hquantity hr, hua.getQuantity_normalize ha hna hr, ha.amount_normalize,
            hub.getQuantity_normalize hb hnb hr, hb.amount_normalize]
        · rw [getQuantity_eq_zero hab.valid hr, getQuantity_eq_zero ha.valid hr,
            getQuantity_eq_zero hb.valid hr]
      equal_refl := (equal_iff hna hna).mpr fun _ => rfl
      equal_symm := fun h => (equal_iff hnb hna).mpr fun r => ((equal_iff hna hnb).mp h r).symm
      equal_trans := fun h h' => (equal_iff hna hnc).mpr fun r =>
        ((equal_iff hna hnb).mp h r).trans ((equal_iff hnb hnc).mp h' r)
      equal_reorder := fun _ => equal_of_reorder ha hna
      equal_insert_zero := fun _ _ _ heq hv =>
        equal_of_insert_zero ha hna heq (verifyValidity_ok_iff.mp hv)
      equal_respell := fun _ hv => equal_of_respell ha hna (verifyValidity_ok_iff.mp hv) }

/-- A zero in front of a quantity of the same resource, written the other way. -/
def zeroFirst : ResourceAllocation := [(⟨"gpu", none, "ram"⟩, 0), (⟨"gpu", some 0, "ram"⟩, 5)]

/-- Adding nothing turns a quantity of zero into five. -/
theorem getQuantity_zeroFirst : ((create oneInstance).verifyValidity zeroFirst).code = .ok ∧
      (((create oneInstance).normalize zeroFirst).map Prod.fst).Nodup ∧
      (create oneInstance).getQuantity ⟨"gpu", some 0, "ram"⟩ zeroFirst = 0 ∧
      (create oneInstance).getQuantity ⟨"gpu", some 0, "ram"⟩
        ((create oneInstance).add zeroFirst []) = 5 := by
  decide

/-- Allocations without zeros. -/
theorem arithmeticLaws_two_and_three :
    (create oneInstance).ArithmeticLaws [(⟨"gpu", none, "ram"⟩, 2)]
      [(⟨"gpu", some 0, "ram"⟩, 3)] [] := by
  refine (arithmeticLaws_iff (create oneInstance) [(⟨"gpu", none, "ram"⟩, 2)]
    [(⟨"gpu", some 0, "ram"⟩, 3)] [] (by decide) (by decide) (by decide) (by decide) (by decide)
    (by decide) fun r => ?_).mpr ⟨pairwise_singleton .., pairwise_singleton ..⟩
  have hleft : (create oneInstance).normalize [(⟨"gpu", none, "ram"⟩, 2)] =
      [(⟨"gpu", some 0, "ram"⟩, 2)] := by decide
  have hright : (create oneInstance).normalize [(⟨"gpu", some 0, "ram"⟩, 3)] =
      [(⟨"gpu", some 0, "ram"⟩, 3)] := by decide
  rw [hleft, hright, (normalized_nil _).normalize_eq]
  simp only [amount_cons, amount_nil, quantityBound]
  split <;> omega

end ResourceUtil

end Tension.Resources
