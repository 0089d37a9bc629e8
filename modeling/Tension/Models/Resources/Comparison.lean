import Tension.Models.Resources.Commitment

/-!
# The comparison is exact for bindings

An allocation is at most a bound one exactly if every unbound entry can be given an
instance of its device such that the result is at most it at every resource. The
comparison looks at the unbound entries one by one; this loses nothing because a valid
allocation has one unbound entry of a device and a kind.
-/

namespace Tension.Resources

open Tally

namespace ResourceUtil

variable {util : ResourceUtil} {a b : ResourceAllocation}

theorem Binds.inst_of_mem (h : util.Binds a b) {e : Resource × Nat} (he : e ∈ b) :
    ∃ i < util.numInstances e.1.device, e.1.deviceInstance = some i := by
  induction h with
  | nil => cases he
  | cons hentry _ ih =>
    rcases List.mem_cons.mp he with rfl | he
    · obtain ⟨i, hi, -, rfl⟩ := hentry
      exact ⟨i, hi, rfl⟩
    · exact ih he

/-- Instances given to the entries of a valid allocation are chosen by device and kind. -/
theorem Binds.eq_place (h : util.Binds a b) (hnodup : (a.map Prod.fst).Nodup) :
    ∃ choice, util.Chooses choice ∧ b = place choice a := by
  induction h with
  | nil => exact ⟨fun _ _ => 0, fun _ _ => id, rfl⟩
  | @cons e e' a b hentry _ ih =>
    obtain ⟨hnot, hnodup⟩ := List.nodup_cons.mp hnodup
    obtain ⟨choice, hchoice, rfl⟩ := ih hnodup
    obtain ⟨i, hi, hinst, rfl⟩ := hentry
    rcases hinst with hnone | hsome
    · refine ⟨fun device kind => if device = e.1.device ∧ kind = e.1.kind then i
        else choice device kind, fun device kind hpos => ?_, ?_⟩
      · dsimp only
        split
        · next heq => exact heq.1 ▸ hi
        · exact hchoice device kind hpos
      · refine congrArg₂ List.cons ?_ (List.map_congr_left fun e' he' => ?_)
        · simp [hnone]
        · dsimp only
          cases hinst : e'.1.deviceInstance with
          | some j => rfl
          | none =>
            -- Another unbound entry of the device and kind would be the same resource.
            rw [Option.getD_none, Option.getD_none, if_neg]
            rintro ⟨hdevice, hkind⟩
            refine hnot (List.mem_map.mpr ⟨e', he', ?_⟩)
            exact (Resource.mk.injEq ..).mpr ⟨hdevice, hinst.trans hnone.symm, hkind⟩
    · refine ⟨choice, hchoice, congrArg₂ List.cons ?_ rfl⟩
      dsimp only
      rw [hsome, Option.getD_some]

/-- Only quantities bound to instances that exist are left to compare. -/
theorem Binds.forall_amount_le {c : ResourceAllocation} (h : util.Binds a b)
    (hle : ∀ device i kind, i < util.numInstances device →
      amount b ⟨device, some i, kind⟩ ≤ amount c ⟨device, some i, kind⟩) (r : Resource) :
    amount b r ≤ amount c r := by
  by_cases hr : r ∈ b.map Prod.fst
  · obtain ⟨e, he, rfl⟩ := List.mem_map.mp hr
    obtain ⟨i, hi, hinst⟩ := h.inst_of_mem he
    have hentry := hle e.1.device i e.1.kind hi
    rwa [← hinst] at hentry
  · rw [amount_eq_zero hr]
    exact Nat.zero_le _

/-- The comparison finds a binding if there is one, and overbinding is at least every
binding. -/
theorem lessThanOrEqual_iff_binds (util : ResourceUtil) (lhs rhs : ResourceAllocation)
    (hlhs : (util.verifyValidity lhs).code = .ok) (hrhs : (util.verifyValidity rhs).code = .ok)
    (hlhsNodup : ((util.normalize lhs).map Prod.fst).Nodup)
    (hrhsNodup : ((util.normalize rhs).map Prod.fst).Nodup) (hsum : util.Representable lhs) :
    (util.lessThanOrEqual lhs rhs = true ↔ ∃ bound, util.Binds lhs bound ∧
        ∀ r, amount bound r ≤ amount (util.normalize rhs) r) ∧
      util.isBound (util.overbind lhs) = true ∧
      ∀ bound, util.Binds lhs bound → ∀ r, amount bound r ≤ amount (util.overbind lhs) r := by
  have hproper := verifyValidity_ok_iff.mp hlhs
  have hl := hproper.normalized_normalize hlhsNodup
  have hr := (verifyValidity_ok_iff.mp hrhs).normalized_normalize hrhsNodup
  have hcompare : util.lessThanOrEqual lhs rhs =
      util.lessThanOrEqual (util.normalize lhs) (util.normalize rhs) := by
    rw [lessThanOrEqual, lessThanOrEqual, hl.normalize_eq, hr.normalize_eq]
  have hrep : util.Representable (util.normalize lhs) := fun device i kind hi => by
    rw [demand_normalize hproper hi]
    exact hsum device i kind hi
  obtain ⟨hnorm, hsome, hnone⟩ := hl.overbind hrep
  rw [hcompare, overbind_normalize hl, hl.lessThanOrEqual_iff_place hr]
  refine ⟨⟨?_, ?_⟩, ?_, fun bound hbinds => hbinds.forall_amount_le fun device i kind hi => ?_⟩
  · rintro ⟨choice, hchoice, hle⟩
    simp only [amount_place_normalize hproper hchoice] at hle
    have hbinds := binds_place hproper.valid hchoice
    exact ⟨_, hbinds, hbinds.forall_amount_le fun device i kind _ => hle device i kind⟩
  · rintro ⟨bound, hbinds, hle⟩
    obtain ⟨choice, hchoice, rfl⟩ := hbinds.eq_place hproper.nodup
    refine ⟨choice, hchoice, fun device i kind => ?_⟩
    rw [amount_place_normalize hproper hchoice]
    exact hle _
  · rw [isBound, hnorm.normalize_eq, isBoundNormalized, List.all_eq_true]
    intro e he
    by_contra hinst
    have hzero := hnone e.1.device e.1.kind
    rw [← Option.not_isSome_iff_eq_none.mp hinst, amount_of_mem hnorm.nodup he] at hzero
    exact (hnorm.pos e he).ne' hzero
  · rw [hsome device i kind hi, demand_normalize hproper hi]
    exact hbinds.amount_le device i kind

/-- Five of one instance and seven of any fit into the second of two instances. -/
theorem lessThanOrEqual_two_instances : ∃ bound, (create Ledger.twoInstances).Binds
        [(⟨"gpu", some 0, "ram"⟩, 5), (⟨"gpu", none, "ram"⟩, 7)] bound ∧
      ∀ r, amount bound r ≤ amount ((create Ledger.twoInstances).normalize
        [(⟨"gpu", some 0, "ram"⟩, 8), (⟨"gpu", some 1, "ram"⟩, 7)]) r :=
  (lessThanOrEqual_iff_binds (create Ledger.twoInstances)
    [(⟨"gpu", some 0, "ram"⟩, 5), (⟨"gpu", none, "ram"⟩, 7)]
    [(⟨"gpu", some 0, "ram"⟩, 8), (⟨"gpu", some 1, "ram"⟩, 7)] (by decide) (by decide)
    (by decide) (by decide) (representable_of_sum (by decide))).1.mp (by decide)

end ResourceUtil

end Tension.Resources
