import Tension.Models.Bfc.Calls

/-!
# What allocations guarantee

A request that some free chunk fits takes the best fit without asking for memory, and the chunk
that is handed out is neither too small nor much too large. Requests of almost `2 ^ 64` bytes are
the exception: rounding them up wraps around to zero. A larger chunk is never in a lower bin, and
the chunks of a bin are sorted by size and address. So the first chunk that is large enough, in the
first bin that has one, is the smallest of all.
-/

namespace Tension.Bfc

open Run List Option

/-! ## Best fit -/

theorem binNumForSize_mono {m n : Nat} (h : m ≤ n) : binNumForSize m ≤ binNumForSize n := by
  have hmax : max m 256 / 256 ≤ max n 256 / 256 := Nat.div_le_div_right (max_le_max h le_rfl)
  have hlog : (max m 256 / 256).log2 ≤ (max n 256 / 256).log2 :=
    (Nat.le_log2 (by omega)).mpr ((Nat.log2_self_le (by omega)).trans hmax)
  rw [binNumForSize, binNumForSize, shiftRight_kMinAllocationBits, shiftRight_kMinAllocationBits]
  exact min_le_min le_rfl hlog

namespace BFCAllocator

variable {s : BFCAllocator} {chain : Nat → List ChunkHandle} {free : List ChunkHandle}
  {h x : ChunkHandle} {k : Nat}

/-- The chunk is the smallest free one of at least `k` bytes, and the one with the lowest address
among those. -/
structure BestFit (s : BFCAllocator) (chain : Nat → List ChunkHandle) (k : Nat)
    (h : ChunkHandle) : Prop where
  live : s.Live chain h
  free : s.Free h
  fits : k ≤ (s.chunk h).size
  best : ∀ y, s.Live chain y → s.Free y → k ≤ (s.chunk y).size →
    (s.chunk h).size < (s.chunk y).size ∨
      (s.chunk h).size = (s.chunk y).size ∧ (s.chunk h).ptr ≤ (s.chunk y).ptr

/-- The search of `FindChunkPtr` finds the best fit if any chunk fits. -/
theorem Heap.findFit_bestFit (hh : s.Heap chain free []) (hx : s.Live chain x) (hfree : s.Free x)
    (hk : k ≤ (s.chunk x).size) :
    ∃ b h, s.findFit (binNumForSize k) k = some (b, h) ∧ s.BestFit chain k h := by
  -- a chunk that fits is found when the search gets to its bin
  have hbin : ∀ y, s.Live chain y → s.Free y → k ≤ (s.chunk y).size →
      binNumForSize (s.chunk y).size ∈ range' (binNumForSize k)
        (kNumBins - binNumForSize k) ∧
      y ∈ s.bins (binNumForSize (s.chunk y).size) := by
    intro y hy hyfree hky
    refine ⟨?_, (hh.binned.mem_iff _ y).mpr ⟨hy, hyfree, not_mem_nil, rfl⟩⟩
    have hle : binNumForSize (s.chunk y).size ≤ 20 := min_le_left _ _
    have hmono := binNumForSize_mono hky
    rw [mem_range'_1, kNumBins]
    omega
  have hfound : ∀ y, s.Live chain y → s.Free y → k ≤ (s.chunk y).size →
      (((s.bins (binNumForSize (s.chunk y).size)).find? fun h => k ≤ (s.chunk h).size).map
        fun h => (binNumForSize (s.chunk y).size, h)).isSome := by
    intro y hy hyfree hky
    rw [isSome_map, find?_isSome]
    exact ⟨y, (hbin y hy hyfree hky).2, by simpa using hky⟩
  cases hfit : s.findFit (binNumForSize k) k with
  | none =>
    have hnone := findSome?_eq_none_iff.mp hfit _ (hbin x hx hfree hk).1
    have hsome := hfound x hx hfree hk
    rw [hnone] at hsome
    cases hsome
  | some found =>
    obtain ⟨b, h⟩ := found
    refine ⟨b, h, rfl, ?_⟩
    have hsorted : (range' (binNumForSize k) (kNumBins - binNumForSize k)).Pairwise (· < ·) :=
      pairwise_lt_range'
    obtain ⟨b', hb', hfirst⟩ := OrderedSet.eq_or_rel_of_findSome? hsorted hfit
    obtain ⟨h', hfind, he⟩ := map_eq_some_iff.mp hb'
    cases he
    obtain ⟨hlive, hhfree, -, hb⟩ := (hh.binned.mem_iff b h).mp (mem_of_find?_eq_some hfind)
    refine ⟨hlive, hhfree, by simpa using find?_some hfind, fun y hy hyfree hky => ?_⟩
    obtain ⟨hrange, hybin⟩ := hbin y hy hyfree hky
    rcases hfirst _ hrange (hfound y hy hyfree hky) with he | hlt
    · rw [← he] at hybin
      rcases OrderedSet.eq_or_rel_of_find? (hh.binned.sorted b) hfind hybin (by simpa using hky)
        with rfl | hcmp
      · exact .inr ⟨rfl, le_rfl⟩
      · rw [chunkComparator_iff] at hcmp
        exact hcmp.imp_right fun ⟨hsize, hptr⟩ => ⟨hsize, hptr.le⟩
    · refine .inl (not_le.mp fun hle => ?_)
      have hmono := binNumForSize_mono hle
      omega

/-- What a request takes is less than twice as large, and at most 128 MiB larger. -/
theorem takenSize_lt {size : Nat} (hk : 0 < k) (hle : k ≤ size) (hsize : size ≤ 2 ^ 39) :
    takenSize size k < 2 * k ∧ takenSize size k - k < 128 * 2 ^ 20 := by
  rw [takenSize]
  split
  · omega
  · next hs =>
    rw [splits, toSizeT_of_lt (by omega), subSizeT_of_le hle (by omega)] at hs
    simp only [Bool.or_eq_true, decide_eq_true_eq] at hs
    have hmax : kMaxInternalFragmentation = 128 * 2 ^ 20 := by decide
    omega

end BFCAllocator

namespace System

variable (scale : Nat → Nat)

/-- What is assumed of a call: rounding its size does not wrap around, memory is fresh and at most
`2 ^ 39` bytes at a time, and only pointers that are held are freed. -/
def NotWrapping (s : System) : Call → Prop
  | .allocateRaw numBytes answers =>
    numBytes + 255 < 2 ^ 64 ∧ (0 < numBytes → s.allocator.AllocationAnswered scale numBytes answers
      BFCAllocator.Request.Indexable)
  | .deallocateRaw ptr => ptr ∈ s.held

theorem Legal.notWrapping {scale : Nat → Nat} {s : System} {c : Call}
    (hc : s.Legal scale BFCAllocator.Request.Indexable c) : s.NotWrapping scale c := by
  cases c with
  | allocateRaw numBytes answers =>
    obtain ⟨-, hle, hreq⟩ := hc
    exact ⟨by omega, fun _ => hreq⟩
  | deallocateRaw ptr => exact hc

/-- The heap is consistent, the pointers that are held and all chunks in use are in regions, and
the statistics count them. -/
structure Managed (s : System) (chain : Nat → List ChunkHandle) (free : List ChunkHandle) :
    Prop where
  heap : s.allocator.Heap chain free []
  coalesced : s.allocator.AllCoalesced chain
  held : ∀ p ∈ s.held, s.allocator.InUseAt chain p
  usedLive : s.allocator.UsedLive chain
  accounted : s.allocator.Accounted

theorem managed_create (totalMemory : Nat) (allowGrowth : Bool) :
    (create totalMemory allowGrowth).Managed (fun _ => []) [] where
  heap := BFCAllocator.heap_create totalMemory allowGrowth
  coalesced := nofun
  held := nofun
  usedLive _ hx := absurd rfl hx
  accounted := BFCAllocator.accounted_create totalMemory allowGrowth

/-- A call returns and keeps the heap managed. -/
theorem Managed.step {scale : Nat → Nat} {s : System} {c : Call}
    {chain : Nat → List ChunkHandle} {free : List ChunkHandle} (hs : s.Managed chain free)
    (hc : s.NotWrapping scale c) :
    ∃ s', s.step scale c = some s' ∧ ∃ chain' free', s'.Managed chain' free' := by
  cases c with
  | allocateRaw numBytes answers =>
    obtain ⟨hle, hreq⟩ := hc
    rcases Nat.eq_zero_or_pos numBytes with rfl | hpos
    · exact ⟨s, rfl, chain, free, hs⟩
    · obtain ⟨ptr, a, chain', free', hrun, hkept, hheld, -⟩ :=
        allocateRaw_keeps hs.heap hs.coalesced hs.held hpos hle (hreq hpos)
      exact ⟨⟨a, ptr.toList ++ s.held⟩, by rw [System.step, hrun]; rfl, chain', free', hkept.heap,
        hkept.coalesced, hheld, hkept.usedLive hs.usedLive,
        hkept.accounted hs.usedLive hs.accounted⟩
  | deallocateRaw ptr =>
    obtain ⟨a, chain', free', hrun, hh, hcoal, hheld, hused, haccounted⟩ :=
      deallocateRaw_keeps hs.heap hs.coalesced hs.held hc
    exact ⟨⟨a, s.held.filter (· ≠ ptr)⟩, by rw [System.step, hrun, map_some], chain', free',
      hh, hcoal, hheld, hused hs.usedLive, haccounted hs.accounted⟩

/-- Every state of a run is managed. -/
theorem managed_of_run {scale : Nat → Nat} {totalMemory : Nat} {allowGrowth : Bool}
    {calls : List Call}
    (hc : Admissible (System.step scale) (NotWrapping scale)
      (create totalMemory allowGrowth) calls) :
    ∃ s, run (System.step scale) (create totalMemory allowGrowth) calls = some s ∧
      ∃ chain free, s.Managed chain free :=
  run_total
    (fun _ _ ⟨_, _, hs⟩ hc => hs.step hc) ⟨_, _, managed_create totalMemory allowGrowth⟩ hc

/-! ## Sizes -/

/-- In every run whose requests do not wrap around, a pointer that `AllocateRaw` returns is the
beginning of a chunk in use of at least the requested size, and every chunk of its region has a
positive size. -/
theorem allocateRaw_notShort (totalMemory : Nat) (allowGrowth : Bool)
    (calls : List Call) (numBytes : Nat) (answers : List (Option Nat))
    (hc : Admissible (System.step scale) (NotWrapping scale) (create totalMemory allowGrowth)
      (calls ++ [.allocateRaw numBytes answers])) :
    ∃ s, run (System.step scale) (create totalMemory allowGrowth) calls = some s ∧
      ∃ ptr a, s.allocator.allocateRawInternal scale numBytes answers = some (ptr, a) ∧
        ∀ p, ptr = some p → ∃ chain free, a.Invariant chain free ∧
          ∃ r ∈ a.regionManager, ∃ h ∈ chain r.ptr, (a.chunk h).ptr = p ∧
            (a.chunk h).inUse = true ∧ numBytes ≤ (a.chunk h).size ∧
            ∀ x ∈ chain r.ptr, 0 < (a.chunk x).size := by
  obtain ⟨hcalls, hlast⟩ := admissible_append.mp hc
  obtain ⟨s, hrun, chain, free, hs⟩ := managed_of_run hcalls
  obtain ⟨hle, hreq⟩ := (hlast s hrun).1
  refine ⟨s, hrun, ?_⟩
  rcases Nat.eq_zero_or_pos numBytes with rfl | hpos
  · exact ⟨none, s.allocator, rfl, nofun⟩
  obtain ⟨ptr, a, chain', free', halloc, hkept, -, hptr⟩ :=
    allocateRaw_keeps hs.heap hs.coalesced hs.held hpos hle (hreq hpos)
  refine ⟨ptr, a, halloc, fun p hp => ⟨chain', free', hkept.heap.invariant hkept.coalesced, ?_⟩⟩
  obtain ⟨h, size, ⟨⟨r, hr, hmem⟩, hused, hat, hsize⟩, hfits⟩ := hptr p hp
  refine ⟨r, hr, h, hmem, hat, ?_, ?_, (hkept.heap.layout.tiled r hr).size_pos⟩
  · exact BFCAllocator.not_free_iff.mp hused
  · rw [hsize]
    exact (le_roundedBytes hle).trans hfits

/-- The answer of a `SubAllocator` to the first request of 1000 bytes. -/
theorem answered_first : (BFCAllocator.create 1048576 false).AllocationAnswered
    (fun bytes => bytes * 9 / 10) 1000 [some 4096] BFCAllocator.Request.Indexable := by
  intro _ _
  refine ⟨⟨1048576, false, false, 1048576, some 4096⟩, answered_of_nil rfl ?_ (by decide), ?_⟩
  · decide +kernel
  · rintro p -
    decide

/-- The first request of an allocator is not short. -/
theorem allocateRaw_notShort_first :
    ∃ s, run (System.step fun bytes => bytes * 9 / 10) (create 1048576 false) [] = some s ∧
      ∃ ptr a, s.allocator.allocateRawInternal (fun bytes => bytes * 9 / 10) 1000 [some 4096] =
          some (ptr, a) ∧
        ∀ p, ptr = some p → ∃ chain free, a.Invariant chain free ∧
          ∃ r ∈ a.regionManager, ∃ h ∈ chain r.ptr, (a.chunk h).ptr = p ∧
            (a.chunk h).inUse = true ∧ 1000 ≤ (a.chunk h).size ∧
            ∀ x ∈ chain r.ptr, 0 < (a.chunk x).size :=
  allocateRaw_notShort _ _ _ _ _ _ ⟨⟨by decide, fun _ => answered_first⟩, fun _ _ => trivial⟩

/-- A request of `2 ^ 64 - 1` bytes gets a chunk of no bytes. -/
theorem allocateRaw_maxRequest :
    ((BFCAllocator.create 1048576 false).allocateRawInternal (fun bytes => bytes * 9 / 10)
        (2 ^ 64 - 1) [some 4096]).map
      (fun p => (p.1, p.2.chunks.map fun c => (c.ptr, c.size, c.inUse))) =
      some (some 4096, [(4096, 0, true), (4096, 1048576, false)]) := by
  decide +kernel

/-! ## Best fit -/

/-- The request takes the best fit, whatever the `SubAllocator` would answer, and the chunk is not
much larger than the request. -/
def TakesBestFit (a : BFCAllocator) (chain : Nat → List ChunkHandle) (numBytes : Nat) : Prop :=
  ∃ h a', a.BestFit chain (roundedBytes numBytes) h ∧
    (∀ scale answers, a.allocateRawInternal scale numBytes answers =
      some (some (a.chunk h).ptr, a')) ∧
    (a'.chunk h).ptr = (a.chunk h).ptr ∧ (a'.chunk h).inUse = true ∧
    roundedBytes numBytes ≤ (a'.chunk h).size ∧
    (a'.chunk h).size < 2 * roundedBytes numBytes ∧
    (a'.chunk h).size - roundedBytes numBytes < 128 * 2 ^ 20

/-- A request that some free chunk fits. -/
theorem takesBestFit_of_fits {a : BFCAllocator} {chain : Nat → List ChunkHandle}
    {free : List ChunkHandle} (hh : a.Heap chain free []) (hcoal : a.AllCoalesced chain)
    {numBytes : Nat} (hpos : 0 < numBytes) (hle : numBytes ≤ 2 ^ 63) {x : ChunkHandle}
    (hx : a.Live chain x) (hfree : a.Free x) (hfits : roundedBytes numBytes ≤ (a.chunk x).size) :
    TakesBestFit a chain numBytes := by
  have hk : 0 < roundedBytes numBytes := hpos.trans_le (le_roundedBytes (by omega))
  obtain ⟨b, h, hfit, hbest⟩ := hh.findFit_bestFit hx hfree hfits
  obtain ⟨ptr, a', chain', free', hfind, -, hsome, -⟩ := hh.findChunkPtr hcoal hk
    (roundedBytes_dvd numBytes) (binNumForSize (roundedBytes numBytes)) numBytes
  obtain ⟨rfl, hout⟩ := hsome b h hfit
  have hsize : (a.chunk h).size ≤ 2 ^ 39 := by
    obtain ⟨r, hr, hmem⟩ := hbest.live
    have hrange := (hh.layout.tiled r hr).mem_range hmem
    have hsized := (hh.layout.sized r hr).le
    rw [AllocationRegion.endPtr] at hrange
    omega
  obtain ⟨htwice, hwaste⟩ := BFCAllocator.takenSize_lt hk hbest.fits hsize
  refine ⟨h, a', hbest, fun scale answers => ?_, hout.ptr_eq, ?_, ?_, ?_, ?_⟩
  · rw [BFCAllocator.allocateRawInternal, if_neg hpos.ne']
    simp [hfind]
  · have hused := hout.used
    exact BFCAllocator.not_free_iff.mp hused
  · rw [hout.size_eq]
    exact BFCAllocator.le_takenSize hbest.fits
  · rwa [hout.size_eq]
  · rwa [hout.size_eq]

/-- In every run whose regions are at most `2 ^ 39` bytes large, after every call: a request that
some free chunk fits takes the best fit without extending, the statistics count the bytes of the
chunks in use, and their ids are distinct. -/
theorem bestFit_of_run (totalMemory : Nat) (allowGrowth : Bool)
    (calls : List Call)
    (hlegal : Admissible (System.step scale) (Legal scale BFCAllocator.Request.Indexable)
      (create totalMemory allowGrowth) calls) :
    ∃ s, run (System.step scale) (create totalMemory allowGrowth) calls = some s ∧
      ∃ chain free, s.allocator.Invariant chain free ∧ s.allocator.UsedLive chain ∧
        s.allocator.stats.bytesInUse = (s.allocator.uses.map Prod.snd).sum ∧
        (s.allocator.uses.map Prod.fst).Nodup ∧
        ∀ numBytes, 0 < numBytes → numBytes ≤ 2 ^ 63 →
          (∃ x, s.allocator.Live chain x ∧ s.allocator.Free x ∧
            roundedBytes numBytes ≤ (s.allocator.chunk x).size) →
          TakesBestFit s.allocator chain numBytes := by
  obtain ⟨s, hrun, chain, free, hs⟩ := managed_of_run (hlegal.mono fun _ _ hc => hc.notWrapping)
  refine ⟨s, hrun, chain, free, hs.heap.invariant hs.coalesced, hs.usedLive, hs.accounted.bytes_eq,
    hs.accounted.ids_nodup, ?_⟩
  rintro numBytes hpos hle ⟨x, hx, hfree, hfits⟩
  exact takesBestFit_of_fits hs.heap hs.coalesced hpos hle hx hfree hfits

/-- After the first request, later ones take the best fit. -/
theorem bestFit_first : ∃ s, run (System.step fun bytes => bytes * 9 / 10) (create 1048576 false)
        [.allocateRaw 1000 [some 4096]] = some s ∧
      ∃ chain free, s.allocator.Invariant chain free ∧ s.allocator.UsedLive chain ∧
        s.allocator.stats.bytesInUse = (s.allocator.uses.map Prod.snd).sum ∧
        (s.allocator.uses.map Prod.fst).Nodup ∧
        ∀ numBytes, 0 < numBytes → numBytes ≤ 2 ^ 63 →
          (∃ x, s.allocator.Live chain x ∧ s.allocator.Free x ∧
            roundedBytes numBytes ≤ (s.allocator.chunk x).size) →
          TakesBestFit s.allocator chain numBytes :=
  bestFit_of_run _ _ _ _ ⟨⟨by decide, by decide, answered_first⟩, fun _ _ => trivial⟩

/-- In a region of `2 ^ 40` bytes the request of `2 ^ 39` bytes has a free chunk that fits, but
cutting it writes outside of the table of the region. -/
theorem bestFit_largeRegion :
    Legal (fun bytes => bytes * 9 / 10) (fun _ => True) (create (2 ^ 40) false)
      (.allocateRaw 256 [some (2 ^ 42)]) ∧
    ((run (System.step fun bytes => bytes * 9 / 10) (create (2 ^ 40) false)
        [.allocateRaw 256 [some (2 ^ 42)]]).map fun s =>
      (s.allocator.chunks.map fun c => (c.ptr, c.size, c.inUse),
        (s.allocator.allocateRawInternal (fun bytes => bytes * 9 / 10) (2 ^ 39) []).isSome)) =
      some ([(2 ^ 42, 256, true), (2 ^ 42 + 256, 2 ^ 40 - 256, false)], false) := by
  refine ⟨⟨by decide, by decide, fun _ _ => ?_⟩, by decide +kernel⟩
  refine ⟨⟨2 ^ 40, false, false, 2 ^ 40, some (2 ^ 42)⟩,
    answered_of_nil rfl ?_ (by decide), trivial⟩
  decide +kernel

end System

end Tension.Bfc
