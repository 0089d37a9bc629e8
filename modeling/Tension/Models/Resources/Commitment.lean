import Mathlib
import Tension.Core.Run
import Tension.Models.Resources.Allocation

/-!
# Reservations fit

Reserved allocations fit into the total if every unbound entry can be given an instance
of its device such that no instance is asked for more than it has. Overbinding counts
an unbound quantity wherever it may have gone, so that a request that is admitted can be
placed without moving anything placed before.
-/

namespace Tension.Resources

open Tally List Option

namespace ResourceUtil

variable {util : ResourceUtil} {a b total used : ResourceAllocation}
  {reserved : List ResourceAllocation}

/-- The entry is given an instance of its device; a bound entry keeps its own. -/
def BindsEntry (util : ResourceUtil) (e e' : Resource × Nat) : Prop :=
  ∃ i < util.numInstances e.1.device,
    (e.1.deviceInstance = none ∨ e.1.deviceInstance = some i) ∧ e' = (e.1.bind i, e.2)

/-- Every entry of the allocation is given an instance of its device. -/
def Binds (util : ResourceUtil) (a b : ResourceAllocation) : Prop :=
  List.Forall₂ util.BindsEntry a b

/-- The allocations can be given instances such that no instance of a device is asked for
more than the total has of any kind. -/
def Fits (util : ResourceUtil) (total : ResourceAllocation)
    (reserved : List ResourceAllocation) : Prop :=
  ∃ bound, List.Forall₂ util.Binds reserved bound ∧
    ∀ device i kind, i < util.numInstances device →
      amount bound.flatten ⟨device, some i, kind⟩ ≤
        util.getQuantity ⟨device, some i, kind⟩ total

theorem fits_nil (util : ResourceUtil) (total : ResourceAllocation) : util.Fits total [] :=
  ⟨[], .nil, fun _ _ _ _ => Nat.zero_le _⟩

/-- What a bound allocation takes from an instance was in the demand on it. -/
theorem Binds.amount_le (h : util.Binds a b) (device : String) (i : Nat) (kind : String) :
    amount b ⟨device, some i, kind⟩ ≤ demand a device i kind := by
  induction h with
  | nil => exact Nat.zero_le _
  | @cons e e' a b he _ ih =>
    obtain ⟨⟨d, o, k⟩, q⟩ := e
    obtain ⟨j, -, hj, rfl⟩ := he
    rw [amount_cons, demand_cons]
    refine Nat.add_le_add ?_ ih
    rcases hj with rfl | rfl
    · by_cases hr : d = device ∧ k = kind
      · by_cases hj : j = i <;> simp [demand, Resource.bind, hj]
      · rw [if_neg]
        · exact Nat.zero_le _
        · intro heq
          simp only [Resource.bind, Resource.mk.injEq] at heq
          exact hr ⟨heq.1, heq.2.2⟩
    · simp [demand, Resource.bind]

theorem amount_le_of_forall₂ {bound : List ResourceAllocation}
    (h : List.Forall₂ util.Binds reserved bound) (device : String) (i : Nat) (kind : String) :
    amount bound.flatten ⟨device, some i, kind⟩ ≤ demand reserved.flatten device i kind := by
  induction h with
  | nil => exact Nat.zero_le _
  | cons hab _ ih =>
    rw [flatten_cons, flatten_cons, amount_append, demand_append]
    exact Nat.add_le_add (hab.amount_le device i kind) ih

/-- On a device with one instance all that is asked for is asked of that instance. -/
theorem amount_eq_of_forall₂ {bound : List ResourceAllocation} {device : String}
    (hone : util.numInstances device = 1) (h : List.Forall₂ util.Binds reserved bound)
    (kind : String) :
    amount bound.flatten ⟨device, some 0, kind⟩ = demand reserved.flatten device 0 kind := by
  induction h with
  | nil => rfl
  | cons hab _ ih =>
    rw [flatten_cons, flatten_cons, amount_append, demand_append, ih]
    refine congrArg (· + _) ?_
    induction hab with
    | nil => rfl
    | @cons e e' a b he _ ih =>
      obtain ⟨⟨d, o, k⟩, q⟩ := e
      obtain ⟨j, hj, ho, rfl⟩ := he
      rw [amount_cons, demand_cons, ih]
      by_cases hd : d = device
      · obtain rfl : j = 0 := by
          dsimp only at hj
          rw [hd] at hj
          omega
        rcases ho with rfl | rfl <;> simp [demand, Resource.bind]
      · simp [demand, Resource.bind, hd]

theorem not_fits_of_demand (device kind : String) (hone : util.numInstances device = 1)
    (h : util.getQuantity ⟨device, some 0, kind⟩ total < demand reserved.flatten device 0 kind) :
    ¬ util.Fits total reserved := by
  rintro ⟨bound, hbinds, hle⟩
  have hle := hle device 0 kind (by omega)
  rw [amount_eq_of_forall₂ hone hbinds] at hle
  omega

/-- Allocations that fit still fit in another order or when some of them are released. -/
theorem Fits.subperm {reserved' : List ResourceAllocation} (h : util.Fits total reserved)
    (hsub : reserved'.Subperm reserved) : util.Fits total reserved' := by
  obtain ⟨bound, hbinds, hle⟩ := h
  obtain ⟨kept, hperm, hsub⟩ := hsub
  obtain ⟨bound₁, hbinds₁, hsub₁⟩ : ∃ bound₁, List.Forall₂ util.Binds kept bound₁ ∧
      bound₁.Sublist bound := by
    clear hle hperm
    induction hsub generalizing bound with
    | slnil => exact ⟨bound, hbinds, .refl bound⟩
    | cons a _ ih =>
      obtain ⟨b, bound, -, htail, rfl⟩ := forall₂_cons_left_iff.mp hbinds
      obtain ⟨bound₁, hbinds₁, hsub₁⟩ := ih bound htail
      exact ⟨bound₁, hbinds₁, hsub₁.cons b⟩
    | cons_cons a _ ih =>
      obtain ⟨b, bound, hab, htail, rfl⟩ := forall₂_cons_left_iff.mp hbinds
      obtain ⟨bound₁, hbinds₁, hsub₁⟩ := ih bound htail
      exact ⟨b :: bound₁, .cons hab hbinds₁, hsub₁.cons_cons b⟩
  obtain ⟨bound', hbinds', hperm'⟩ := perm_comp_forall₂ hperm.symm hbinds₁
  refine ⟨bound', hbinds', fun device i kind hi => le_trans ?_ (hle device i kind hi)⟩
  rw [amount_flatten, amount_flatten, (hperm'.map _).sum_nat]
  exact (hsub₁.map _).sum_le_sum fun _ _ => Nat.zero_le _

/-! ## What the tracker keeps -/

/-- The usage is the sum of the allocations, in normal form. -/
structure Tracks (util : ResourceUtil) (used : ResourceAllocation)
    (reserved : List ResourceAllocation) : Prop where
  normalized : util.Normalized used
  amount_eq : ∀ r, amount used r = amount (reserved.flatMap util.normalize) r
  proper : ∀ a ∈ reserved, util.Proper a

theorem tracks_nil (util : ResourceUtil) : util.Tracks [] [] :=
  ⟨normalized_nil util, fun _ => rfl, nofun⟩

theorem demand_flatMap_normalize (h : ∀ a ∈ reserved, util.Proper a) {device kind : String}
    {i : Nat} (hi : i < util.numInstances device) :
    demand (reserved.flatMap util.normalize) device i kind =
      demand reserved.flatten device i kind := by
  induction reserved with
  | nil => rfl
  | cons a reserved ih =>
    obtain ⟨ha, h⟩ := forall_mem_cons.mp h
    rw [flatMap_cons, flatten_cons, demand_append, demand_append, ih h, demand_normalize ha hi]

/-- The demand of the usage is that of the allocations. -/
theorem Tracks.demand_eq (h : util.Tracks used reserved) {device kind : String} {i : Nat}
    (hi : i < util.numInstances device) :
    demand used device i kind = demand reserved.flatten device i kind := by
  rw [demand, h.amount_eq, h.amount_eq, ← demand, demand_flatMap_normalize h.proper hi]

/-- An allocation is representable if all its quantities together are. -/
theorem representable_of_sum (h : (a.map Prod.snd).sum < quantityBound) : util.Representable a := by
  intro device i kind _
  refine lt_of_le_of_lt ?_ h
  clear h
  induction a with
  | nil => exact le_rfl
  | cons e a ih =>
    rw [demand_cons]
    refine Nat.add_le_add ?_ ih
    simp only [demand, amount_cons, amount_nil, add_zero]
    by_cases hb : e.1 = ⟨device, some i, kind⟩
    · simp [hb]
    · rw [if_neg hb, zero_add]
      split
      · exact le_rfl
      · exact Nat.zero_le _

theorem Representable.of_append {L L' : List ResourceAllocation}
    (h : util.Representable (L ++ L').flatten) : util.Representable L.flatten := by
  intro device i kind hi
  have hlt := h device i kind hi
  rw [flatten_append, demand_append] at hlt
  omega

/-- The usage after one more allocation. -/
theorem Tracks.add (h : util.Tracks used reserved) (ha : util.Proper a)
    (hrep : util.Representable (reserved ++ [a]).flatten) :
    util.Tracks (util.add a used) (reserved ++ [a]) := by
  have hsum : util.Representable (used ++ util.normalize a) := by
    intro device i kind hi
    have hlt := hrep device i kind hi
    rw [flatten_append, demand_append, flatten_singleton] at hlt
    rwa [demand_append, h.demand_eq hi, demand_normalize ha hi]
  obtain ⟨hnorm, hamount⟩ := h.normalized.add ha hsum
  refine ⟨hnorm, fun r => ?_, fun b hb => ?_⟩
  · rw [hamount, h.amount_eq, flatMap_append, amount_append, flatMap_singleton]
  · rcases mem_append.mp hb with hb | hb
    · exact h.proper b hb
    · rw [mem_singleton.mp hb]
      exact ha

/-! ## Placing a request -/

/-- Bind the unbound entries of an allocation to chosen instances. -/
def place (choice : String → String → Nat) (a : ResourceAllocation) : ResourceAllocation :=
  a.map fun e => (e.1.bind (e.1.deviceInstance.getD (choice e.1.device e.1.kind)), e.2)

/-- The chosen instances exist. -/
def Chooses (util : ResourceUtil) (choice : String → String → Nat) : Prop :=
  ∀ device kind, 0 < util.numInstances device → choice device kind < util.numInstances device

variable {choice : String → String → Nat}

theorem binds_place (ha : ∀ e ∈ a, util.Valid e.1) (hchoice : util.Chooses choice) :
    util.Binds a (place choice a) := by
  rw [Binds, place, forall₂_map_right_iff, forall₂_same]
  intro e he
  have hv := ha e he
  cases hi : e.1.deviceInstance with
  | none => exact ⟨_, hchoice _ _ hv.numInstances_pos, .inl hi, by rw [getD_none]⟩
  | some i => exact ⟨i, hv.inst i hi, .inr hi, by rw [getD_some]⟩

/-- What the placed allocation takes from an instance. -/
theorem amount_place (choice : String → String → Nat) (a : ResourceAllocation)
    (device : String) (i : Nat) (kind : String) :
    amount (place choice a) ⟨device, some i, kind⟩ = amount a ⟨device, some i, kind⟩ +
      if choice device kind = i then amount a ⟨device, none, kind⟩ else 0 := by
  induction a with
  | nil => simp [place]
  | cons e a ih =>
    obtain ⟨⟨d, o, k⟩, q⟩ := e
    rw [place, map_cons, ← place, amount_cons, ih, amount_cons, amount_cons]
    cases o with
    | some j =>
      simp only [Resource.bind, getD_some, Resource.mk.injEq, reduceCtorEq, false_and,
        and_false, if_false, zero_add]
      omega
    | none =>
      simp only [Resource.bind, getD_none, Resource.mk.injEq, reduceCtorEq, false_and, and_false,
        if_false, true_and]
      by_cases hr : d = device ∧ k = kind
      · obtain ⟨rfl, rfl⟩ := hr
        by_cases hc : choice d k = i
        · simp only [hc, and_self, if_true]
          omega
        · simp [hc]
      · rw [if_neg fun h => hr ⟨h.1, h.2.2⟩, if_neg hr]
        simp

/-- An entry for a device with one instance is placed as its normal form is. -/
theorem amount_place_normalize (ha : util.Proper a) (hchoice : util.Chooses choice)
    (r : Resource) : amount (place choice (util.normalize a)) r = amount (place choice a) r := by
  have hplace : place choice (util.normalize a) = (place choice a).filter fun e => e.2 ≠ 0 := by
    rw [normalize_of_proper ha, place, List.map_map, place, List.filter_map]
    refine map_congr_left fun e _ => Prod.ext ?_ rfl
    simp only [Function.comp_apply, normalizeResource]
    split
    · next h =>
      have hlt := hchoice e.1.device e.1.kind (h.2 ▸ Nat.one_pos)
      rw [h.1, (by omega : choice e.1.device e.1.kind = 0)]
      rfl
    · rfl
  rw [hplace, amount_filter_ne_zero]

/-- The comparison succeeds exactly if the unbound quantities can be placed: one instance
serves all that is unbound of a kind. -/
theorem Normalized.lessThanOrEqual_iff_place (ha : util.Normalized a)
    (hb : util.Normalized b) : util.lessThanOrEqual a b = true ↔
      ∃ choice, util.Chooses choice ∧ ∀ device i kind,
        amount (place choice a) ⟨device, some i, kind⟩ ≤ amount b ⟨device, some i, kind⟩ := by
  rw [ha.lessThanOrEqual_iff hb]
  constructor
  · rintro ⟨hfit, hroom⟩
    have hchoice : ∀ device kind, ∃ i, (0 < util.numInstances device →
        i < util.numInstances device) ∧ amount a ⟨device, some i, kind⟩ +
          amount a ⟨device, none, kind⟩ ≤ amount b ⟨device, some i, kind⟩ := by
      intro device kind
      by_cases hkey : (⟨device, none, kind⟩ : Resource) ∈ a.map Prod.fst
      · obtain ⟨e, he, heq⟩ := mem_map.mp hkey
        have hquantity := amount_of_mem ha.nodup he
        obtain ⟨i, hi, hle⟩ := hroom e he (by rw [heq])
        rw [heq] at hi hle hquantity
        exact ⟨i, fun _ => hi, by rw [hquantity]; exact hle⟩
      · exact ⟨0, id, by rw [amount_eq_zero hkey]; exact hfit device 0 kind⟩
    choose choice hchoice using hchoice
    refine ⟨choice, fun device kind => (hchoice device kind).1, fun device i kind => ?_⟩
    rw [amount_place]
    split
    · next hc => exact hc ▸ (hchoice device kind).2
    · exact hfit device i kind
  · rintro ⟨choice, hchoice, hle⟩
    simp only [amount_place] at hle
    refine ⟨fun device i kind => (Nat.le_add_right ..).trans (hle device i kind),
      fun e he hnone => ⟨choice e.1.device e.1.kind,
        hchoice _ _ (ha.valid e he).numInstances_pos, ?_⟩⟩
    have hroom := hle e.1.device (choice e.1.device e.1.kind) e.1.kind
    rw [if_pos rfl, ← hnone] at hroom
    rw [← amount_of_mem ha.nodup he]
    exact hroom

/-- An admitted request can be placed without moving what was placed before. -/
theorem Fits.extend (hfits : util.Fits total reserved) (htotal : util.Normalized total)
    (htracks : util.Tracks used reserved) (ha : util.Proper a)
    (hrep : util.Representable (reserved ++ [a]).flatten)
    (hle : util.lessThanOrEqual (util.add a (util.overbind used)) total = true) :
    util.Fits total (reserved ++ [a]) := by
  obtain ⟨bound, hbinds, hbound⟩ := hfits
  have hrepUsed : util.Representable used := by
    intro device i kind hi
    rw [htracks.demand_eq hi]
    exact hrep.of_append device i kind hi
  obtain ⟨hover, hoverBound, hoverNone⟩ := htracks.normalized.overbind hrepUsed
  have hsum : util.Representable (util.overbind used ++ util.normalize a) := by
    intro device i kind hi
    have hlt := hrep device i kind hi
    rw [flatten_append, demand_append, flatten_singleton] at hlt
    rw [demand_append, demand, hoverBound _ _ _ hi, hoverNone, htracks.demand_eq hi,
      demand_normalize ha hi]
    omega
  obtain ⟨hprop, hamount⟩ := hover.add ha hsum
  obtain ⟨choice, hchoice, hplaced⟩ := (hprop.lessThanOrEqual_iff_place htotal).mp hle
  refine ⟨bound ++ [place choice a], ?_, fun device i kind hi => ?_⟩
  · exact rel_append hbinds (.cons (binds_place ha.valid hchoice) .nil)
  · have hv : util.Valid ⟨device, some i, kind⟩ := by
      refine ⟨?_, fun j hj => some.inj hj ▸ hi⟩
      cases hd : util.devices device with
      | none => simp [numInstances, hd] at hi
      | some n => simp [numInstances, hd]
    rw [htotal.getQuantity hv (normalizeResource_bind util ⟨device, none, kind⟩ i), flatten_append,
      flatten_singleton, amount_append, ← amount_place_normalize ha hchoice, amount_place]
    have hold : amount bound.flatten ⟨device, some i, kind⟩ ≤
        amount (util.overbind used) ⟨device, some i, kind⟩ := by
      rw [hoverBound _ _ _ hi, htracks.demand_eq hi]
      exact amount_le_of_forall₂ hbinds device i kind
    have hle := hplaced device i kind
    rw [amount_place, hamount, hamount, hoverNone, zero_add] at hle
    omega

end ResourceUtil

/-! ## Sequences of reservations -/

namespace ResourceTracker

open ResourceUtil

/-- The tracker has been created with a valid total. -/
def Created (t : ResourceTracker) : Prop :=
  ∃ total, t.util.Proper total ∧ t.totalResources = t.util.normalize total

theorem created_of_create {total : ResourceAllocation} {util : ResourceUtil}
    {t : ResourceTracker} (h : create total util = .ok t) :
    t.Created ∧ t.util = util ∧ t.usedResources = [] := by
  rw [create] at h
  dsimp only at h
  split at h
  · cases h
  · next hvalid =>
    split at h
    · cases h
      exact ⟨⟨total, verifyValidity_ok_iff.mp (not_not.mp hvalid), rfl⟩, rfl, rfl⟩
    · cases h

/-- A total against which a comparison succeeds is in normal form: a total whose entries for
a device with one instance are listed both bound and unbound admits nothing. -/
theorem Created.normalized {t : ResourceTracker} (h : t.Created) {a : ResourceAllocation}
    (hle : t.util.lessThanOrEqual a t.totalResources = true) :
    t.util.Normalized t.totalResources := by
  obtain ⟨total, hproper, htotal⟩ := h
  have hentries : ∀ e ∈ t.totalResources,
      t.util.Valid e.1 ∧ 0 < e.2 ∧ t.util.normalizeResource e.1 = e.1 := by
    rw [htotal]
    exact fun e he => mem_normalize hproper he
  by_cases hp : t.util.Proper t.totalResources
  · exact ⟨hp, fun e he => (hentries e he).2.1, fun e he => (hentries e he).2.2⟩
  · have hinvalid : (t.util.verifyValidity t.totalResources).code ≠ .ok :=
      mt verifyValidity_ok_iff.mp hp
    have hself : t.util.normalize t.totalResources = t.totalResources := by
      rw [ResourceUtil.normalize, if_pos hinvalid]
    rw [lessThanOrEqual, hself, lessThanOrEqualNormalized, if_pos (.inr hinvalid)] at hle
    cases hle

/-- The usage after valid estimates have been added one after the other. -/
theorem tracks_addEstimates {t : ResourceTracker} {reserved estimates : List ResourceAllocation}
    (h : t.util.Tracks t.usedResources reserved) (hproper : ∀ a ∈ estimates, t.util.Proper a)
    (hrep : t.util.Representable (reserved ++ estimates).flatten) :
    ∃ used, t.addEstimates (estimates.map .ok) = (.ok, { t with usedResources := used }) ∧
      t.util.Tracks used (reserved ++ estimates) := by
  induction estimates generalizing t reserved with
  | nil => exact ⟨t.usedResources, rfl, by rwa [append_nil]⟩
  | cons a estimates ih =>
    obtain ⟨ha, hproper⟩ := forall_mem_cons.mp hproper
    rw [append_cons] at hrep
    have hadd := h.add ha hrep.of_append
    obtain ⟨used, heq, htracks⟩ := ih (t := { t with
      usedResources := t.util.add a t.usedResources }) hadd hproper hrep
    refine ⟨used, ?_, by rwa [append_cons]⟩
    rw [map_cons, addEstimates]
    simp only [verifyValidity_ok_iff.mpr ha]
    exact heq

end ResourceTracker

/-- A tracker with the allocations that it has reserved. -/
structure Ledger where
  tracker : ResourceTracker
  reserved : List ResourceAllocation

namespace Ledger

/-- One call of `ReserveResources` for a loader with a valid estimate. -/
def reserve (s : Ledger) (estimate : ResourceAllocation) : Option Ledger :=
  let result := s.tracker.reserveResources (.ok estimate)
  some ⟨result.2, match result.1 with
    | .ok true => s.reserved ++ [estimate]
    | _ => s.reserved⟩

/-- The estimate is valid, and no sum of quantities overflows when it is added to what is
reserved. -/
def Acceptable (s : Ledger) (estimate : ResourceAllocation) : Prop :=
  (s.tracker.util.verifyValidity estimate).code = .ok ∧
    s.tracker.util.Representable (s.reserved ++ [estimate]).flatten

/-- What every sequence of reservations keeps. -/
structure Committed (util : ResourceUtil) (total : ResourceAllocation) (s : Ledger) : Prop where
  util_eq : s.tracker.util = util
  total_eq : s.tracker.totalResources = total
  created : s.tracker.Created
  tracks : util.Tracks s.tracker.usedResources s.reserved
  fits : util.Fits total s.reserved

theorem Committed.reserve {util : ResourceUtil} {total : ResourceAllocation} {s s' : Ledger}
    {estimate : ResourceAllocation} (h : Committed util total s) (ha : s.Acceptable estimate)
    (hs : s.reserve estimate = some s') : Committed util total s' := by
  obtain ⟨⟨util', total', used⟩, reserved⟩ := s
  obtain ⟨rfl, rfl, hcreated, htracks, hfits⟩ := h
  obtain ⟨hvalid, hrep⟩ := ha
  simp only [Ledger.reserve, ResourceTracker.reserveResources, hvalid, some.injEq] at hs
  subst hs
  by_cases hle : util'.lessThanOrEqual (util'.add estimate (util'.overbind used)) total' = true
  · have hproper := ResourceUtil.verifyValidity_ok_iff.mp hvalid
    simp only [hle]
    exact ⟨rfl, rfl, hcreated, htracks.add hproper hrep,
      hfits.extend (hcreated.normalized hle) htracks hproper hrep hle⟩
  · simp only [hle]
    exact ⟨rfl, rfl, hcreated, htracks, hfits⟩

/-- After every sequence of reservations the unbound entries of all reserved allocations can
be given instances of their devices such that no instance is over-committed. -/
theorem reserved_fits (devices : String → Option Nat) (total : ResourceAllocation)
    (tracker : ResourceTracker)
    (hcreate : ResourceTracker.create total (ResourceUtil.create devices) = .ok tracker)
    (estimates : List ResourceAllocation) (s : Ledger)
    (hestimates : Run.Admissible reserve Acceptable ⟨tracker, []⟩ estimates)
    (hrun : Run.run reserve ⟨tracker, []⟩ estimates = some s) :
    (ResourceUtil.create devices).Fits tracker.totalResources s.reserved := by
  obtain ⟨hcreated, hutil, hused⟩ := ResourceTracker.created_of_create hcreate
  have hinitial : Committed (ResourceUtil.create devices) tracker.totalResources ⟨tracker, []⟩ :=
    ⟨hutil, rfl, hcreated, hused ▸ ResourceUtil.tracks_nil _, ResourceUtil.fits_nil _ _⟩
  exact (Run.run_invariant (fun _ _ _ h ha hs => h.reserve ha hs) hinitial hestimates hrun).fits

/-- The estimate is valid and all quantities together are representable. -/
def Small (s : Ledger) (estimate : ResourceAllocation) : Prop :=
  (s.tracker.util.verifyValidity estimate).code = .ok ∧
    ((s.reserved ++ [estimate]).flatten.map Prod.snd).sum < ResourceUtil.quantityBound

instance (s : Ledger) (estimate : ResourceAllocation) : Decidable (s.Small estimate) :=
  inferInstanceAs (Decidable (_ ∧ _))

/-- One device with two instances. -/
def twoInstances (device : String) : Option Nat := if device = "gpu" then some 2 else none

/-- The total of both instances. -/
def twoInstancesTotal : ResourceAllocation :=
  [(⟨"gpu", some 0, "ram"⟩, 16), (⟨"gpu", some 1, "ram"⟩, 16)]

/-- Unbound requests, of which the second is refused. -/
def unboundRequests : List ResourceAllocation :=
  [[(⟨"gpu", none, "ram"⟩, 10)], [(⟨"gpu", none, "ram"⟩, 10)],
    [(⟨"gpu", none, "ram"⟩, 4), (⟨"gpu", some 1, "ram"⟩, 2)]]

/-- Two of the unbound requests are reserved, and they fit. -/
theorem unboundRequests_fit :
    ∃ tracker s, ResourceTracker.create twoInstancesTotal (ResourceUtil.create twoInstances) =
        .ok tracker ∧ Run.run reserve ⟨tracker, []⟩ unboundRequests = some s ∧
      s.reserved.length = 2 ∧
      (ResourceUtil.create twoInstances).Fits tracker.totalResources s.reserved := by
  refine ⟨_, _, rfl, rfl, by decide, ?_⟩
  refine reserved_fits twoInstances twoInstancesTotal _ rfl unboundRequests _ ?_ rfl
  have hsmall (s : Ledger) (a : ResourceAllocation) (h : s.Small a) : s.Acceptable a :=
    ⟨h.1, ResourceUtil.representable_of_sum h.2⟩
  exact Run.Admissible.mono hsmall (by decide)

end Ledger

end Tension.Resources
