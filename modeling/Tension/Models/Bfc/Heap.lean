import Tension.Models.Bfc.Bins

/-!
# Splitting and merging

Layout and bins together are the state of the heap. An operation takes the chunks that it
works on out of their bins, cuts them or joins them, and puts what is free back.
-/

namespace Tension.Bfc

open Option Function

namespace BFCAllocator

variable {s s' : BFCAllocator} {chain chain' : Nat → List ChunkHandle} {free : List ChunkHandle}
  {P : List ChunkHandle} {r : AllocationRegion} {l m : List ChunkHandle} {h n x y : ChunkHandle}

/-- The heap is laid out by `chain` and `free`, and the free chunks that are not in `P` are in
their bins. -/
structure Heap (s : BFCAllocator) (chain : Nat → List ChunkHandle) (free P : List ChunkHandle) :
    Prop where
  layout : s.Layout chain free none
  binned : s.Binned chain P
  nextId : 0 < s.nextAllocationId

/-- The regions that a state has are those of another, up to their tables. -/
def SameRegions (s s' : BFCAllocator) : Prop :=
  s'.regionManager.map AllocationRegion.ptr = s.regionManager.map AllocationRegion.ptr

theorem sameRegions_writeAt {base i : Nat} {v : Option ChunkHandle}
    (hr : s'.regionManager = RegionManager.writeAt s.regionManager base i v) :
    SameRegions s s' := by
  rw [SameRegions, hr, RegionManager.writeAt, List.map_map]
  refine List.map_congr_left fun x _ => ?_
  rw [comp_apply]
  split <;> rfl

/-- The chunk keeps its address and whether it is in use. -/
def SamePlace (s s' : BFCAllocator) (x : ChunkHandle) : Prop :=
  (s'.chunk x).ptr = (s.chunk x).ptr ∧ (s'.chunk x).allocationId = (s.chunk x).allocationId

theorem SamePlace.free_iff (hp : SamePlace s s' x) : s'.Free x ↔ s.Free x := by
  rw [Free, Free, hp.2]

theorem Rebinned.samePlace (hr : Rebinned s s') (x : ChunkHandle) : SamePlace s s' x :=
  ⟨congrArg Block.start (hr.block x), hr.allocationId x⟩

/-- The handles that are in use or spare do not change while the list of free handles and the
number of chunks stay the same. -/
theorem Layout.live_iff {spare spare' : Option ChunkHandle} (hl : s.Layout chain free spare)
    (hl' : s'.Layout chain' free spare') (hlen : s'.chunks.length = s.chunks.length) :
    (spare' = some x ∨ s'.Live chain' x) ↔ (spare = some x ∨ s.Live chain x) := by
  have hv := hl.valid x
  rw [← hlen, hl'.valid x] at hv
  by_cases hx : x ∈ free
  · refine iff_of_false ?_ ?_
    · rintro (he | hlive)
      · exact (hl'.spare_dead x he).1 hx
      · exact hl'.free_dead x hx hlive
    · rintro (he | hlive)
      · exact (hl.spare_dead x he).1 hx
      · exact hl.free_dead x hx hlive
  · simpa [hx] using hv

/-- A chunk that is being worked on has no bin number. -/
theorem Binned.binNum_none (hb : s.Binned chain P) (hx : ¬ s.Binnable chain P x) :
    (s.chunk x).binNum = none := by
  refine eq_none_iff_forall_not_mem.mpr fun b hmem => hx ?_
  obtain ⟨hlive, hfree, hnot, -⟩ := (hb.mem_iff b x).mp ((hb.binNum_iff x b).mp hmem)
  exact ⟨hlive, hfree, hnot⟩

/-- `AllocateChunk` changes nothing about the chunks in the heap. -/
theorem Heap.allocateChunk (hh : s.Heap chain free P) :
    ∃ n s' free', s.allocateChunk = some (n, s') ∧ s'.Layout chain free' (some n) ∧
      s'.Binned chain P ∧ SameChunks s s' := by
  obtain ⟨n, s', free', halloc, hl, hsame⟩ := hh.layout.allocateChunk
  refine ⟨n, s', free', halloc, hl, ?_, hsame⟩
  refine hh.binned.transfer hsame.bins (fun x => by rw [hsame.chunk]) (fun x => ?_) fun x _ => ?_
  · rw [Binnable, Binnable, Live, Live, hsame.regionManager, Free, Free, hsame.chunk]
  · rw [hsame.chunk]
    exact ⟨rfl, rfl⟩

/-! ## Splitting -/

/-- `SplitChunk` cuts a chunk that has been taken out of its bin. -/
theorem Heap.splitChunk (hh : s.Heap chain free [h]) (hr : r ∈ s.regionManager)
    (hc : chain r.ptr = l ++ h :: m) (hfree : s.Free h) {k : Nat} (hk : 0 < k)
    (hlt : k < (s.chunk h).size) (hdvd : 256 ∣ k) : ∃ n s' free', s.splitChunk h k = some s' ∧
      s'.Heap (Function.update chain r.ptr (l ++ h :: n :: m)) free' [h] ∧
      SameRegions s s' ∧ ¬ s.Live chain n ∧ s'.Free n ∧
      (∀ x, x ≠ n → SamePlace s s' x) ∧ (s'.chunk h).size = k := by
  obtain ⟨n, s₁, free₁, halloc, hl₁, hb₁, hsame⟩ := hh.allocateChunk
  have hregions := hsame.regionManager
  have hr₁ : r ∈ s₁.regionManager := hregions ▸ hr
  have hhlive : s₁.Live chain h := ⟨r, hr₁, by simp [hc]⟩
  have hndead : ¬ s₁.Live chain n := (hl₁.spare_dead n rfl).2
  have hhn : h ≠ n := by
    rintro rfl
    exact hndead hhlive
  have hlt₁ : k < (s₁.chunk h).size := by rwa [hsame.chunk]
  have hl₂ := hl₁.split hr₁ hc hlt₁ hk hdvd
  have hchunk : ∀ x, _ := fun x => hl₁.chunk_split (k := k) (x := x) hr₁ hc
  have hplace : ∀ x, x ≠ n → SamePlace s₁ (s₁.split r h n k) x := by
    intro x hx
    rw [SamePlace, hchunk]
    split
    · next he => exact ⟨by rw [he], by rw [he]⟩
    · split <;> exact ⟨rfl, rfl⟩
  have hnfree : (s₁.split r h n k).Free n := by
    rw [Free, hchunk, if_neg hhn.symm, if_pos rfl]
  have hlive₂ : ∀ x, (s₁.split r h n k).Live (update chain r.ptr (l ++ h :: n :: m)) x ↔
      n = x ∨ s₁.Live chain x := by
    intro x
    have hiff := hl₁.live_iff (x := x) hl₂ onlyChunks_linkNewChunk.length
    simpa using hiff
  have hb₂ : (s₁.split r h n k).Binned (update chain r.ptr (l ++ h :: n :: m)) (n :: [h]) := by
    refine hb₁.transfer onlyChunks_linkNewChunk.bins (fun x => ?_) (fun x => ?_) fun x hx => ?_
    · rw [hchunk]
      split
      · next he => rw [he]
      · split
        · next he => rw [he]
        · split <;> rfl
    · rw [Binnable, Binnable, hlive₂]
      by_cases hxn : x = n
      · subst hxn
        simp [hndead]
      · rw [(hplace x hxn).free_iff]
        simp [hxn, Ne.symm hxn]
    · have hxh : x ≠ h := fun he => hx.2.2 (by simp [he])
      have hxn : x ≠ n := by
        rintro rfl
        exact hndead hx.1
      rw [hchunk, if_neg hxh, if_neg hxn]
      split <;> exact ⟨rfl, rfl⟩
  obtain ⟨s₃, hinsert, hb₃, hre⟩ := hb₂.insertFreeChunkIntoBin hl₂
    ((hlive₂ n).mpr (.inl rfl)) hnfree (by simpa using hhn.symm)
  refine ⟨n, s₃, free₁, ?_, ⟨hre.layout hl₂, hb₃, ?_⟩, ?_, ?_, ?_, fun x hx => ?_, ?_⟩
  · have hinuse : (s₁.chunk h).inUse = false := free_iff.mp (by rwa [Free, hsame.chunk])
    have hnum : (s₁.chunk h).binNum = none := hb₁.binNum_none fun hb => hb.2.2 (by simp)
    have ht := hl₁.tiled r hr₁
    rw [hc] at ht
    obtain ⟨hlow, -, hend⟩ := ht.mem_range (h := h) (by simp)
    have hset := hl₁.ordered.setHandle_eq (v := some n) hl₁.sized hr₁
      (show r.ptr ≤ (s₁.chunk h).ptr + k by omega) (by omega)
    rw [BFCAllocator.splitChunk, halloc]
    simp only [bind_eq_bind, bind_some, chunkFromHandle_eq (hl₁.lt_of_live hhlive), hinuse, hnum,
      hset]
    exact hinsert
  · rw [hre.nextAllocationId, BFCAllocator.split, onlyChunks_linkNewChunk.nextAllocationId]
    exact hsame.nextAllocationId ▸ hh.nextId
  · have hwrite : s₃.regionManager = RegionManager.writeAt s.regionManager r.ptr
        (((s₁.chunk h).ptr + k - r.ptr) / 256) (some n) := by
      rw [hre.regionManager, BFCAllocator.split, onlyChunks_linkNewChunk.regionManager, hregions]
    exact sameRegions_writeAt hwrite
  · rwa [Live, hregions] at hndead
  · exact (hre.free_congr n).mpr hnfree
  · obtain ⟨hptr, hid⟩ := hplace x hx
    obtain ⟨hptr', hid'⟩ := hre.samePlace x
    rw [hsame.chunk] at hptr hid
    exact ⟨hptr'.trans hptr, hid'.trans hid⟩
  · rw [hre.size, hchunk, if_pos rfl]

/-! ## Merging -/

/-- `Merge` joins two chunks that have been taken out of their bins. -/
theorem Heap.merge (hh : s.Heap chain free P) (hr : r ∈ s.regionManager)
    (hc : chain r.ptr = l ++ h :: y :: m) (hP : P.Perm [h, y]) (hfree : s.Free h)
    (hyfree : s.Free y) : ∃ s', s.merge h y = some s' ∧
      s'.Heap (Function.update chain r.ptr (l ++ h :: m)) (y :: free) [h] ∧ SameRegions s s' ∧
      ∀ x, SamePlace s s' x := by
  have hl := hh.layout
  have ht := hl.tiled r hr
  rw [hc] at ht
  have hl₁ := hl.merged hr hc
  have hchunk : ∀ x, _ := fun x => hl.chunk_merged (x := x) hr hc
  have hlt : ∀ x ∈ l ++ h :: y :: m, x < s.chunks.length :=
    fun x hx => hl.lt_of_live ⟨r, hr, hc ▸ hx⟩
  have hydead := (hl₁.spare_dead y rfl).2
  have hychunk : (s.merged r h y).chunk y = s.chunk y := by
    have hyh : y ≠ h := by
      rintro rfl
      exact ht.of_nodup.2.1 List.mem_cons_self
    have ht' : s.Tiled r ((l ++ [h]) ++ y :: m) := by simpa using ht
    rw [hchunk, if_neg hyh, if_neg fun he => ht'.of_nodup.2.1 (ht'.next_mem he)]
  have hchunk₂ : ∀ x, ((s.merged r h y).deallocateChunk y).chunk x = if x = y then
      { s.chunk y with next := (s.merged r h y).freeChunksList }
      else (s.merged r h y).chunk x := by
    intro x
    rw [chunk_deallocateChunk ((hl₁.valid y).mpr (.inl rfl)), hychunk]
  have hfields : ∀ x, SamePlace s ((s.merged r h y).deallocateChunk y) x ∧
      (((s.merged r h y).deallocateChunk y).chunk x).binNum = (s.chunk x).binNum ∧
      (x ≠ h → (((s.merged r h y).deallocateChunk y).chunk x).size = (s.chunk x).size) := by
    intro x
    rw [SamePlace, hchunk₂]
    by_cases hx : x = y
    · subst hx
      rw [if_pos rfl]
      exact ⟨⟨rfl, rfl⟩, rfl, fun _ => rfl⟩
    · rw [if_neg hx, hchunk]
      split
      · next he =>
        subst he
        exact ⟨⟨rfl, rfl⟩, rfl, fun hne => absurd rfl hne⟩
      · split <;> exact ⟨⟨rfl, rfl⟩, rfl, fun _ => rfl⟩
  have hlive : ∀ x, (y = x ∨ ((s.merged r h y).deallocateChunk y).Live
      (update chain r.ptr (l ++ h :: m)) x) ↔ s.Live chain x := by
    intro x
    have hsame : ((s.merged r h y).deallocateChunk y).Live (update chain r.ptr (l ++ h :: m)) x ↔
          (s.merged r h y).Live (update chain r.ptr (l ++ h :: m)) x := Iff.rfl
    have hiff := hl.live_iff (x := x) hl₁ onlyChunks_linkMerged.length
    rw [hsame]
    simpa using hiff
  refine ⟨(s.merged r h y).deallocateChunk y, ?_, ⟨hl₁.deallocateChunk, ?_, ?_⟩, ?_,
    fun x => (hfields x).1⟩
  · have hhlt := hlt h (by simp)
    have hylt := hlt y (by simp)
    have ht' : s.Tiled r ((l ++ [h]) ++ y :: m) := by simpa using ht
    have hprev : (s.chunk y).prev = some h := by simpa using ht'.prev_eq
    obtain ⟨hlow, hhigh, -⟩ := ht.mem_range (h := y) (by simp)
    have hset := hl.ordered.setHandle_eq (v := none) hl.sized hr hlow hhigh
    have hy : (s.linkMerged h (s.chunk y)).chunk y = s.chunk y := hychunk
    rw [BFCAllocator.merge, chunkFromHandle_eq hhlt, chunkFromHandle_eq hylt]
    simp only [bind_eq_bind, bind_some, free_iff.mp hfree, free_iff.mp hyfree, hprev, deleteChunk,
      chunkFromHandle_eq (onlyChunks_linkMerged.length.symm ▸ hylt),
      hy, onlyChunks_linkMerged.regionManager, hset, ne_eq]
    rfl
  · refine hh.binned.transfer onlyChunks_linkMerged.bins (fun x => (hfields x).2.1) (fun x => ?_)
      fun x hx => ?_
    · rw [Binnable, Binnable, (hfields x).1.free_iff, ← hlive]
      by_cases hxy : x = y
      · subst hxy
        exact iff_of_false (fun hb => hydead hb.1) fun hb => hb.2.2 (by simp [hP.mem_iff])
      · simp [hP.mem_iff, hxy, Ne.symm hxy]
    · have hxh : x ≠ h := by
        rintro rfl
        exact hx.2.2 (by simp [hP.mem_iff])
      exact ⟨(hfields x).2.2 hxh, (hfields x).1.1⟩
  · exact onlyChunks_linkMerged.nextAllocationId.symm ▸ hh.nextId
  · exact sameRegions_writeAt rfl

end BFCAllocator

end Tension.Bfc
