import Tension.Models.Bfc.Calls

/-!
# The loops of Extend

The size of the next region doubles with every region, but never so often that it wraps around
while memory is left: as long as the limit is below `2 ^ 62`, the doubling loop ends in every
state that a run reaches. The backpedal loop multiplies by nine tenths and rounds up to units of
256 bytes. From nine units on down this gives the same size again, so the loop never gets below a
request of at most nine units.
-/

namespace Tension.Bfc

open Run List Option

/-- `kBackpedalFactor`, read as an exact rational. -/
def nineTenths (bytes : Nat) : Nat := bytes * 9 / 10

/-- Nine units of 256 bytes. -/
def stallBytes : Nat := 2304

namespace BFCAllocator

variable {s s' : BFCAllocator} {k curr bytes : Nat}

/-! ## The doubling loop -/

variable {increased : Bool} {answers : List (Option Nat)} {h : ChunkHandle} {ptr : Option Nat}
  {q : Request}

/-- The loop ends if enough doublings are left. -/
theorem growRegion_isSome {fuel : Nat} (hk : k ≤ 2 ^ 62)
    (hcurr : k ≤ curr * 2 ^ fuel) : (growRegion k fuel curr increased).isSome := by
  induction fuel generalizing curr increased with
  | zero =>
    rw [growRegion, if_neg (by omega), isSome_some]
  | succ fuel ih =>
    rw [growRegion]
    split
    · have hdouble : toSizeT (curr * 2) = curr * 2 := toSizeT_of_lt (by omega)
      rw [hdouble]
      refine ih ?_
      rwa [mul_assoc, ← Nat.pow_succ']
    · exact isSome_some

/-- What the loop leaves: the old size, or one below twice the request. -/
theorem growRegion_spec {fuel curr' : Nat} {increased' : Bool} (hk : k ≤ 2 ^ 62)
    (hpos : k = 0 ∨ 0 < curr) (hdvd : 256 ∣ curr)
    (hg : growRegion k fuel curr increased = some (curr', increased')) :
    256 ∣ curr' ∧ (curr' = curr ∧ increased' = increased ∨
      increased' = true ∧ 0 < curr' ∧ curr' < 2 * k) := by
  fun_induction growRegion k fuel curr increased with
  | case1 => cases hg
  | case2 =>
    cases hg
    exact ⟨hdvd, .inl ⟨rfl, rfl⟩⟩
  | case3 _ _ _ hlt ih =>
    rw [toSizeT_of_lt (by omega)] at hg ih
    obtain ⟨hdvd', hcases⟩ := ih (by omega) (Nat.dvd_mul_right_of_dvd hdvd 2) hg
    refine ⟨hdvd', .inr ?_⟩
    rcases hcases with ⟨rfl, rfl⟩ | hgrown
    · exact ⟨rfl, by omega, by omega⟩
    · exact hgrown
  | case4 =>
    cases hg
    exact ⟨hdvd, .inl ⟨rfl, rfl⟩⟩

/-! ## The backpedal loop -/

/-- The next size that the backpedal loop tries. -/
def shrink (bytes : Nat) : Nat := roundedBytes (nineTenths bytes)

theorem dvd_shrink : 256 ∣ shrink bytes := roundedBytes_dvd _

theorem shrink_eq (hlt : bytes < 2 ^ 63) : shrink bytes = 256 * ((bytes * 9 / 10 + 255) / 256) := by
  rw [shrink, roundedBytes, nineTenths, kMinAllocationSize_eq, toSizeT_of_lt (by omega)]
  rfl

section

variable (hdvd : 256 ∣ bytes) (hlt : bytes < 2 ^ 63)
include hdvd hlt

theorem shrink_le : shrink bytes ≤ bytes := by
  rw [shrink_eq hlt]
  omega

/-- Above nine units the size decreases. -/
theorem shrink_lt (hbig : stallBytes < bytes) : shrink bytes < bytes := by
  rw [stallBytes] at hbig
  rw [shrink_eq hlt]
  omega

/-- A size stays above every request of at most nine units. -/
theorem le_shrink (hk : k ≤ stallBytes) (hle : k ≤ bytes) : k ≤ shrink bytes := by
  rw [stallBytes] at hk
  rw [shrink_eq hlt]
  omega

end

/-- The first answers of a `SubAllocator`. -/
def firstAnswers (answers : Nat → Option Nat) (n : Nat) : List (Option Nat) :=
  (List.range n).map answers

theorem firstAnswers_succ (answers : Nat → Option Nat) (n : Nat) :
    firstAnswers answers (n + 1) = answers 0 :: firstAnswers (fun i => answers (i + 1)) n := by
  rw [firstAnswers, List.range_succ_eq_map, List.map_cons, List.map_map]
  rfl

section

variable (hdvd : 256 ∣ bytes) (hlt : bytes < 2 ^ 63)
include hdvd hlt

/-- The loop ends for every request of more than nine units. -/
theorem backpedal_ends (hk : stallBytes < k) (answers : Nat → Option Nat) :
    ∃ n, (backpedal nineTenths k (firstAnswers answers n) bytes).isSome := by
  induction bytes using Nat.strong_induction_on generalizing answers with
  | _ bytes ih =>
    by_cases hsmall : shrink bytes < k
    · refine ⟨0, ?_⟩
      rw [firstAnswers, range_zero, map_nil, backpedal]
      exact (if_pos hsmall).symm ▸ rfl
    · cases hanswer : answers 0 with
      | some memAddr =>
        refine ⟨1, ?_⟩
        rw [firstAnswers_succ, hanswer, backpedal]
        exact (if_neg hsmall).symm ▸ rfl
      | none =>
        have hle := shrink_le hdvd hlt
        obtain ⟨n, hn⟩ := ih (shrink bytes) (shrink_lt hdvd hlt (by omega)) dvd_shrink (by omega)
          fun i => answers (i + 1)
        refine ⟨n + 1, ?_⟩
        rw [firstAnswers_succ, hanswer, backpedal]
        exact (if_neg hsmall).symm ▸ hn

/-- A `SubAllocator` that has nothing keeps the loop going for every smaller request. -/
theorem backpedal_stalls (hk : k ≤ stallBytes) (hle : k ≤ bytes) (n : Nat) :
    backpedal nineTenths k (firstAnswers (fun _ => none) n) bytes = none := by
  have hnext := le_shrink hdvd hlt hk hle
  induction n generalizing bytes with
  | zero =>
    exact if_neg (Nat.not_lt.mpr hnext)
  | succ n ih =>
    have hshrink : shrink bytes < 2 ^ 63 := (shrink_le hdvd hlt).trans_lt hlt
    rw [firstAnswers_succ]
    refine (if_neg (Nat.not_lt.mpr hnext)).trans ?_
    exact @ih (shrink bytes) dvd_shrink hshrink hnext (le_shrink dvd_shrink hshrink hk hnext)

/-- A size that the loop returns is at most the one it started with. -/
theorem backpedal_le {bytes' : Nat} {memAddr : Option Nat}
    (hb : backpedal nineTenths k answers bytes = some (bytes', memAddr)) : bytes' ≤ bytes := by
  have hle := shrink_le hdvd hlt
  fun_induction backpedal nineTenths k answers bytes with
  | case1 => exact (Prod.mk.inj (some.inj hb)).1 ▸ hle
  | case2 => cases hb
  | case3 => exact (Prod.mk.inj (some.inj hb)).1 ▸ hle
  | case4 bytes _ _ _ ih =>
    have hlt' : shrink bytes < 2 ^ 63 := hle.trans_lt hlt
    exact (ih dvd_shrink hlt' hb (shrink_le dvd_shrink hlt')).trans hle

end

/-! ## What governs growth -/

theorem growth_splitChunk (hs : s.splitChunk h k = some s') : s'.growth = s.growth := by
  obtain ⟨⟨n, s₁⟩, halloc, hs⟩ := bind_eq_some_iff.mp hs
  obtain ⟨c, -, hs⟩ := bind_eq_some_iff.mp hs
  split at hs
  · obtain ⟨regions, -, hs⟩ := bind_eq_some_iff.mp hs
    have hinsert := congrArg Prod.snd (record_insertFreeChunkIntoBin hs)
    have halloc := congrArg Prod.snd (record_allocateChunk halloc)
    have hlink : ∀ a : BFCAllocator, (a.linkNewChunk h n c k).growth = a.growth := fun a => by
      rw [linkNewChunk, setPrev.eq_def]
      split <;> rfl
    exact hinsert.trans ((hlink _).trans halloc)
  · cases hs

theorem growth_findChunkPtr {binNum numBytes : Nat}
    (hf : s.findChunkPtr binNum k numBytes = some (ptr, s')) : s'.growth = s.growth := by
  rw [findChunkPtr] at hf
  split at hf
  · cases hf
    rfl
  obtain ⟨s₁, hremove, hf⟩ := bind_eq_some_iff.mp hf
  have hold : s₁.growth = s.growth :=
    congrArg Prod.snd (record_removeFreeChunkIterFromBin hremove)
  rw [← hold]
  split at hf
  · obtain ⟨s₂, hsplit, hf⟩ := bind_eq_some_iff.mp hf
    cases hf
    have hgrowth := growth_splitChunk hsplit
    exact hgrowth
  · cases hf
    rfl

theorem growth_addRegion {memAddr : Nat} (ha : s.addRegion memAddr bytes = some s') :
    s'.growth = s.growth := by
  obtain ⟨⟨h, s₁⟩, halloc, ha⟩ := bind_eq_some_iff.mp ha
  obtain ⟨regions, -, ha⟩ := bind_eq_some_iff.mp ha
  exact (congrArg Prod.snd (record_insertFreeChunkIntoBin ha)).trans
    (congrArg Prod.snd (record_allocateChunk halloc) :)

theorem growth_deallocateRawInternal
    (hd : s.deallocateRawInternal ptr = some s') : s'.growth = s.growth := by
  cases ptr with
  | none =>
    cases hd
    rfl
  | some ptr =>
    obtain ⟨h, -, hd⟩ := bind_eq_some_iff.mp hd
    cases h with
    | none => cases hd
    | some h =>
      obtain ⟨c, -, hd⟩ := bind_eq_some_iff.mp hd
      split at hd
      · cases hd
      · obtain ⟨s₁, hnext, hd⟩ := bind_eq_some_iff.mp hd
        obtain ⟨⟨x, s₂⟩, hprev, hd⟩ := bind_eq_some_iff.mp hd
        have hold := congrArg Prod.snd ((record_insertFreeChunkIntoBin hd).trans
          ((record_coalescePrev hprev).trans (record_coalesceNext hnext)))
        exact hold

/-! ## The size of the next region -/

/-- While memory is left, the size of the next region is positive and too small to wrap around.
The one time that the backpedal loop makes a region smaller counts twice. -/
structure Bounded (s : BFCAllocator) : Prop where
  limit_lt : s.memoryLimit < 2 ^ 62
  total_le : s.totalRegionAllocatedBytes ≤ s.memoryLimit
  curr_dvd : 256 ∣ s.currRegionAllocationBytes
  curr_le : s.availableBytes = 0 ∨ 0 < s.currRegionAllocationBytes ∧
    s.currRegionAllocationBytes ≤
      if s.startedBackpedal then 2 ^ 63 + 2 * s.totalRegionAllocatedBytes
      else 2 ^ 62 + s.totalRegionAllocatedBytes

theorem availableBytes_eq (htotal : s.totalRegionAllocatedBytes ≤ s.memoryLimit)
    (hlimit : s.memoryLimit < 2 ^ 62) :
    s.availableBytes = (s.memoryLimit - s.totalRegionAllocatedBytes) / 256 * 256 := by
  rw [availableBytes, kMinAllocationSize_eq, subSizeT_of_le htotal (by omega)]

theorem Bounded.congr (hs : s.Bounded) (hg : s'.growth = s.growth) : s'.Bounded := by
  obtain ⟨hlimit, hcurr, htotal, hstarted⟩ : s'.memoryLimit = s.memoryLimit ∧
      s'.currRegionAllocationBytes = s.currRegionAllocationBytes ∧
      s'.totalRegionAllocatedBytes = s.totalRegionAllocatedBytes ∧
      s'.startedBackpedal = s.startedBackpedal := by simpa [growth] using hg
  refine ⟨hlimit ▸ hs.limit_lt, by rw [htotal, hlimit]; exact hs.total_le, hcurr ▸ hs.curr_dvd, ?_⟩
  rw [availableBytes, hlimit, htotal, hcurr, hstarted]
  exact hs.curr_le

theorem bounded_create {totalMemory : Nat} (h : totalMemory < 2 ^ 62) (allowGrowth : Bool) :
    (create totalMemory allowGrowth).Bounded := by
  have hrounded : ∀ n ≤ totalMemory, roundedBytes n = 256 * ((n + 255) / 256) := by
    intro n hn
    rw [roundedBytes, kMinAllocationSize_eq, toSizeT_of_lt (by omega)]
    rfl
  have havail : (create totalMemory allowGrowth).availableBytes = totalMemory / 256 * 256 :=
    availableBytes_eq (Nat.zero_le _) h
  refine ⟨h, Nat.zero_le _, ?_, ?_⟩
  · rw [create]
    split
    · exact roundedBytes_dvd _
    · exact roundedBytes_dvd _
  · rw [havail, create]
    rw [hrounded _ (min_le_left _ _), hrounded _ le_rfl]
    simp only [Bool.false_eq_true, if_false]
    split <;> omega

/-- What `Extend` has after asking the `SubAllocator` for a region. -/
structure Requested (s : BFCAllocator) (k : Nat) (q : Request) : Prop where
  dvd : 256 ∣ q.currRegionAllocationBytes
  curr : q.currRegionAllocationBytes = s.currRegionAllocationBytes ∧ q.increasedAllocation = false ∨
    q.increasedAllocation = true ∧ 0 < q.currRegionAllocationBytes ∧
      q.currRegionAllocationBytes < 2 * k
  bytes : q.startedBackpedal = s.startedBackpedal ∧
      q.bytes = min q.currRegionAllocationBytes s.availableBytes ∨
    s.startedBackpedal = false ∧ q.startedBackpedal = true ∧
      q.bytes ≤ min q.currRegionAllocationBytes s.availableBytes
  started : q.memAddr = none → q.startedBackpedal = true

section

variable (hs : s.Bounded) (hk : k ≤ s.availableBytes)
include hs hk

theorem Bounded.curr_pos : k = 0 ∨ 0 < s.currRegionAllocationBytes := by
  rcases hs.curr_le with hzero | ⟨hpos, -⟩
  · omega
  · exact .inr hpos

/-- The doubling loop ends. -/
theorem Bounded.growRegion_isSome : (growRegion k 64 s.currRegionAllocationBytes false).isSome := by
  have havail := availableBytes_eq hs.total_le hs.limit_lt
  have hlimit := hs.limit_lt
  have hpos := hs.curr_pos hk
  exact BFCAllocator.growRegion_isSome (by omega) (by omega)

/-- The first request that `Extend` makes is a multiple of 256 bytes and large enough. -/
theorem Bounded.firstRequest
    (hg : growRegion k 64 s.currRegionAllocationBytes false = some (curr, increased)) :
    256 ∣ min curr s.availableBytes ∧ min curr s.availableBytes < 2 ^ 63 ∧
      k ≤ min curr s.availableBytes := by
  have havail := availableBytes_eq hs.total_le hs.limit_lt
  have hlimit := hs.limit_lt
  obtain ⟨hdvd, -⟩ := growRegion_spec (by omega) (hs.curr_pos hk) hs.curr_dvd hg
  have hle := le_of_growRegion hg
  refine ⟨?_, by omega, by omega⟩
  rcases le_total curr s.availableBytes with hmin | hmin
  · rwa [min_eq_left hmin]
  · rw [min_eq_right hmin]
    exact Nat.dvd_mul_left 256 _

theorem Bounded.requested (hq : s.requestRegion nineTenths k answers = some q) :
    s.Requested k q := by
  have havail := availableBytes_eq hs.total_le hs.limit_lt
  have hlimit := hs.limit_lt
  obtain ⟨⟨curr, increased⟩, hgrow, hq⟩ := bind_eq_some_iff.mp hq
  obtain ⟨hdvd, hcurr⟩ := growRegion_spec (by omega) (hs.curr_pos hk) hs.curr_dvd hgrow
  obtain ⟨hmin, hlt, -⟩ := hs.firstRequest hk hgrow
  cases answers with
  | nil => cases hq
  | cons a answers =>
    cases a with
    | some p =>
      cases hq
      exact ⟨hdvd, hcurr, .inl ⟨rfl, rfl⟩, nofun⟩
    | none =>
      dsimp only at hq
      split at hq
      · next hstarted =>
        cases hq
        exact ⟨hdvd, hcurr, .inl ⟨hstarted.symm, rfl⟩, fun _ => rfl⟩
      · next hstarted =>
        obtain ⟨⟨bytes, memAddr⟩, hback, hq⟩ := bind_eq_some_iff.mp hq
        cases hq
        have hle := backpedal_le hmin hlt hback
        exact ⟨hdvd, hcurr, .inr ⟨by simpa using hstarted, rfl, hle⟩, fun _ => rfl⟩

/-- The size of the next region if the `SubAllocator` had nothing. -/
theorem Bounded.refused (hq : s.Requested k q) :
    s.availableBytes = 0 ∨ 0 < q.currRegionAllocationBytes ∧
      q.currRegionAllocationBytes ≤ 2 ^ 63 + 2 * s.totalRegionAllocatedBytes := by
  have havail := availableBytes_eq hs.total_le hs.limit_lt
  have hlimit := hs.limit_lt
  refine hs.curr_le.imp_right fun ⟨hpos, hle⟩ => ?_
  have hbound : s.currRegionAllocationBytes ≤ 2 ^ 63 + 2 * s.totalRegionAllocatedBytes := by
    split at hle <;> omega
  rcases hq.curr with ⟨he, -⟩ | ⟨-, hpos', hlt⟩
  · exact ⟨he ▸ hpos, he ▸ hbound⟩
  · exact ⟨hpos', by omega⟩

/-- The size of the next region after a region of `q.bytes` bytes. -/
theorem Bounded.granted {total : Nat} (htotal : total = s.totalRegionAllocatedBytes + q.bytes)
    (hq : s.Requested k q) :
    (s.memoryLimit - total) / 256 * 256 = 0 ∨ q.currRegionAllocationBytes * 2 < 2 ^ 64 ∧
      0 < q.currRegionAllocationBytes ∧
      (if q.increasedAllocation then q.currRegionAllocationBytes
        else q.currRegionAllocationBytes * 2) ≤
          if q.startedBackpedal then 2 ^ 63 + 2 * total else 2 ^ 62 + total := by
  have havail := availableBytes_eq hs.total_le hs.limit_lt
  have hlimit := hs.limit_lt
  have hle_limit := hs.total_le
  rcases hs.curr_le with hzero | ⟨hpos, hle⟩
  · exact .inl (by omega)
  rcases hq.bytes with ⟨hstarted, hmin⟩ | ⟨hnot, hstarted, hmin⟩
  · by_cases hall : s.availableBytes ≤ q.currRegionAllocationBytes
    · exact .inl (by omega)
    · rw [hstarted]
      rcases hq.curr with ⟨he, hinc⟩ | ⟨hinc, hpos', -⟩
      · rw [hinc, if_neg (by simp)]
        split at hle
        · next hb =>
          rw [if_pos hb]
          omega
        · next hb =>
          rw [if_neg hb]
          omega
      · rw [hinc, if_pos rfl]
        split <;> omega
  · refine .inr ?_
    rw [hnot, if_neg (by simp)] at hle
    rw [hstarted, if_pos rfl]
    rcases hq.curr with ⟨he, hinc⟩ | ⟨hinc, hpos', hlt⟩
    · rw [hinc, he, if_neg (by simp)]
      exact ⟨by omega, hpos, by omega⟩
    · rw [hinc, if_pos rfl]
      exact ⟨by omega, hpos', by omega⟩

end

/-- `Extend` keeps the size of the next region in bounds. -/
theorem Bounded.extend {extended : Bool} (hs : s.Bounded)
    (he : s.extend nineTenths k answers = some (extended, s')) : s'.Bounded := by
  rw [BFCAllocator.extend] at he
  split at he
  · cases he
    exact hs
  · next hk =>
    have hk := Nat.not_lt.mp hk
    obtain ⟨q, hq, he⟩ := bind_eq_some_iff.mp he
    have hq := hs.requested hk hq
    have havail := availableBytes_eq hs.total_le hs.limit_lt
    have hlimit := hs.limit_lt
    have htotal := hs.total_le
    split at he
    · next hmem =>
      cases he
      refine ⟨hlimit, htotal, hq.dvd, ?_⟩
      rw [hq.started hmem]
      exact hs.refused hk hq
    · obtain ⟨s₁, hadd, he⟩ := map_eq_some_iff.mp he
      cases he
      refine Bounded.congr ?_ (growth_addRegion hadd)
      have hle : q.bytes ≤ s.availableBytes := by
        have hbytes := hq.bytes
        omega
      have htotal' : toSizeT (s.totalRegionAllocatedBytes + q.bytes) =
          s.totalRegionAllocatedBytes + q.bytes := toSizeT_of_lt (by omega)
      refine ⟨hlimit, ?_, ?_, ?_⟩
      · dsimp only
        omega
      · dsimp only
        split
        · exact hq.dvd
        · have hdvd := hq.dvd
          rw [toSizeT]
          omega
      · have havail' : ∀ a : BFCAllocator, a.memoryLimit = s.memoryLimit →
            a.totalRegionAllocatedBytes = s.totalRegionAllocatedBytes + q.bytes →
            a.availableBytes =
              (s.memoryLimit - (s.totalRegionAllocatedBytes + q.bytes)) / 256 * 256 := by
          intro a hl ht
          rw [availableBytes_eq (by omega) (by omega), hl, ht]
        refine (hs.granted hk rfl hq).imp (fun hzero => ?_) fun hgrown => ?_
        · exact (havail' _ (by rfl) (by exact htotal')).trans hzero
        · obtain ⟨hlt, hpos, hbound⟩ := hgrown
          dsimp only
          rw [htotal', toSizeT_of_lt hlt]
          refine ⟨?_, hbound⟩
          split <;> omega

theorem Bounded.allocateRawInternal {numBytes : Nat} (hs : s.Bounded)
    (ha : s.allocateRawInternal nineTenths numBytes answers = some (ptr, s')) : s'.Bounded := by
  rw [BFCAllocator.allocateRawInternal] at ha
  split at ha
  · cases ha
    exact hs
  obtain ⟨⟨ptr₁, s₁⟩, hfind, ha⟩ := bind_eq_some_iff.mp ha
  have hs₁ := hs.congr (growth_findChunkPtr hfind)
  cases ptr₁ with
  | some q =>
    cases ha
    exact hs₁
  | none =>
    obtain ⟨⟨extended, s₂⟩, hextend, ha⟩ := bind_eq_some_iff.mp ha
    have hs₂ := hs₁.extend hextend
    dsimp only at ha
    split at ha
    · exact hs₂.congr (growth_findChunkPtr ha)
    · cases ha
      exact hs₂

/-! ## The loops end -/

/-- Both loops of `Extend` end, whatever the `SubAllocator` answers. -/
def LoopsEnd (s : BFCAllocator) (roundedBytes : Nat) : Prop :=
  roundedBytes ≤ s.availableBytes → ∀ answers : Nat → Option Nat,
    ∃ n, (s.requestRegion nineTenths roundedBytes (firstAnswers answers n)).isSome

/-- The loops end exactly if the request cannot be met, the backpedal loop has run before, or the
request has more than nine units. -/
theorem Bounded.loopsEnd_iff (hs : s.Bounded) : s.LoopsEnd k ↔
    s.availableBytes < k ∨ s.startedBackpedal = true ∨ stallBytes < k := by
  rw [← not_le, ← imp_iff_not_or]
  refine imp_congr_right fun hk => ?_
  obtain ⟨⟨curr, increased⟩, hgrow⟩ := isSome_iff_exists.mp (hs.growRegion_isSome hk)
  obtain ⟨hdvd, hlt, hle⟩ := hs.firstRequest hk hgrow
  constructor
  · intro hends
    by_contra hnot
    obtain ⟨hstarted, hsmall⟩ := not_or.mp hnot
    obtain ⟨n, hn⟩ := hends fun _ => none
    cases n with
    | zero => simp [requestRegion, firstAnswers] at hn
    | succ n =>
      have hstall := backpedal_stalls hdvd hlt (Nat.not_lt.mp hsmall) hle n
      simp [requestRegion, hgrow, firstAnswers_succ, hstarted, hstall] at hn
  · intro hcond answers
    cases hanswer : answers 0 with
    | some memAddr => exact ⟨1, by simp [requestRegion, hgrow, firstAnswers_succ, hanswer]⟩
    | none =>
      by_cases hstarted : s.startedBackpedal = true
      · exact ⟨1, by simp [requestRegion, hgrow, firstAnswers_succ, hanswer, hstarted]⟩
      · obtain ⟨n, hn⟩ := backpedal_ends hdvd hlt (hcond.resolve_left hstarted)
          fun i => answers (i + 1)
        obtain ⟨r, hr⟩ := isSome_iff_exists.mp hn
        exact ⟨n + 1, by simp [requestRegion, hgrow, firstAnswers_succ, hanswer, hstarted, hr]⟩

end BFCAllocator

namespace System

/-- In every state of a run with a memory limit below `2 ^ 62`, the loops of `Extend` end for a
rounded request whatever the `SubAllocator` answers, exactly if the request is refused at once, the
backpedal loop has run before, or the request has more than nine units of 256 bytes. -/
theorem extend_loopsEnd_iff {totalMemory : Nat} (h : totalMemory < 2 ^ 62) (allowGrowth : Bool)
    (calls : List Call) (numBytes : Nat) {s : System}
    (hrun : run (System.step nineTenths) (create totalMemory allowGrowth) calls = some s) :
    s.allocator.LoopsEnd (roundedBytes numBytes) ↔
      s.allocator.availableBytes < roundedBytes numBytes ∨
        s.allocator.startedBackpedal = true ∨ stallBytes < roundedBytes numBytes := by
  have hadm : Admissible (System.step nineTenths) (fun _ _ => True)
      (create totalMemory allowGrowth) calls := admissible_of_forall (fun _ _ => trivial) _ _
  refine BFCAllocator.Bounded.loopsEnd_iff ?_
  refine run_invariant (I := fun s => s.allocator.Bounded) ?_
    (BFCAllocator.bounded_create h allowGrowth) hadm hrun
  intro s c s' hs _ hstep
  cases c with
  | allocateRaw numBytes answers =>
    obtain ⟨⟨ptr, a⟩, ha, he⟩ := map_eq_some_iff.mp hstep
    cases he
    exact hs.allocateRawInternal ha
  | deallocateRaw ptr =>
    obtain ⟨a, ha, he⟩ := map_eq_some_iff.mp hstep
    cases he
    exact hs.congr (BFCAllocator.growth_deallocateRawInternal ha)

/-- A `SubAllocator` without memory keeps the first request of one byte in the backpedal loop. -/
theorem extend_loops_forever :
    run (System.step nineTenths) (create 1048576 false) [] = some (create 1048576 false) ∧
      ¬ (create 1048576 false).allocator.LoopsEnd (roundedBytes 1) := by
  refine ⟨rfl, fun hends => ?_⟩
  have hiff := (BFCAllocator.bounded_create (by decide : 1048576 < 2 ^ 62) false).loopsEnd_iff
    (k := roundedBytes 1)
  exact absurd (hiff.mp hends) (by decide)

/-- A request of ten units ends. -/
theorem extend_loopsEnd_tenUnits : (create 1048576 false).allocator.LoopsEnd (roundedBytes 2500) ↔
      (create 1048576 false).allocator.availableBytes < roundedBytes 2500 ∨
        (create 1048576 false).allocator.startedBackpedal = true ∨
          stallBytes < roundedBytes 2500 :=
  extend_loopsEnd_iff (by decide) false [] 2500 rfl

end System

end Tension.Bfc
