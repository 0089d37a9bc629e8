import Tension.Core.Census
import Tension.Models.Bfc.Coalesce

/-!
# Bytes in use

The statistics count the bytes of the chunks in use, and every allocation gets an id of its own.
Cutting and joining chunks touches only free ones, so that only handing out and taking back
change what is in use.
-/

namespace Tension.Bfc

open Census List Option

/-- The id and the size of a chunk in use. -/
def Chunk.use (c : Chunk) : Option (Int × Nat) :=
  if c.inUse then some (c.allocationId, c.size) else none

/-- A free chunk is not in use. -/
theorem Chunk.use_of_free {c : Chunk} (h : c.allocationId = -1) : c.use = none := by
  simp [Chunk.use, Chunk.inUse, h]

namespace BFCAllocator

variable {s s' : BFCAllocator} {chain : Nat → List ChunkHandle} {free : List ChunkHandle}
  {h n : ChunkHandle} {k : Nat} {f : Chunk → Chunk}

/-- The ids and sizes of the chunks in use. -/
def uses (s : BFCAllocator) : List (Int × Nat) := census Chunk.use s.chunks

/-- What is in use and what is recorded about it. -/
def usage (s : BFCAllocator) : List (Int × Nat) × AllocatorStats × Int :=
  (s.uses, s.stats, s.nextAllocationId)

/-- The fields that govern growth. -/
def growth (s : BFCAllocator) : Nat × Nat × Nat × Bool :=
  (s.memoryLimit, s.currRegionAllocationBytes, s.totalRegionAllocatedBytes, s.startedBackpedal)

/-- What cutting and joining free chunks leaves alone. -/
def record (s : BFCAllocator) :
    (List (Int × Nat) × AllocatorStats × Int) × Nat × Nat × Nat × Bool :=
  (s.usage, s.growth)

/-- A chunk keeps its id and its size, or stays free. -/
theorem record_modifyChunk (hf : ∀ c, s.chunkFromHandle h = some c → (f c).use = c.use) :
    (s.modifyChunk h f).record = s.record := by
  have huses : (s.modifyChunk h f).uses = s.uses := census_modify_of_eq hf
  rw [record, usage, huses]
  rfl

/-- Links are not recorded. -/
theorem record_setPrev {neighbor : Option ChunkHandle} :
    (s.setPrev neighbor h).record = s.record := by
  cases neighbor with
  | none => rfl
  | some n => exact record_modifyChunk fun c _ => rfl

/-- A fresh handle does not change the record. -/
theorem record_allocateChunk (ha : s.allocateChunk = some (n, s')) : s'.record = s.record := by
  rw [allocateChunk] at ha
  split at ha
  · obtain ⟨c, -, hc⟩ := bind_eq_some_iff.mp ha
    cases hc
    rfl
  · cases ha
    have huses : census Chunk.use (s.chunks ++ [({} : Chunk)]) = census Chunk.use s.chunks :=
      census_append_of_none rfl
    rw [record, usage, uses, huses]
    rfl

/-- Bins are not recorded. -/
theorem record_insertFreeChunkIntoBin (hi : s.insertFreeChunkIntoBin h = some s') :
    s'.record = s.record := by
  obtain ⟨c, -, hc⟩ := bind_eq_some_iff.mp hi
  split at hc
  · cases hc
    exact record_modifyChunk fun c _ => rfl
  · cases hc

theorem record_removeFreeChunkIterFromBin {b : Nat}
    (hr : s.removeFreeChunkIterFromBin b h = some s') : s'.record = s.record := by
  obtain ⟨c, -, hc⟩ := bind_eq_some_iff.mp hr
  split at hc
  · cases hc
    exact record_modifyChunk fun c _ => rfl
  · cases hc

theorem record_removeFreeChunkFromBin (hr : s.removeFreeChunkFromBin h = some s') :
    s'.record = s.record := by
  obtain ⟨c, -, hc⟩ := bind_eq_some_iff.mp hr
  split at hc
  · cases hc
  · obtain ⟨b, -, hb⟩ := bind_eq_some_iff.mp hc
    split at hb
    · cases hb
      exact record_modifyChunk fun c _ => rfl
    · cases hb

/-- The handle that `AllocateChunk` returns is not in use. -/
def SpareFree (s : BFCAllocator) : Prop := ∀ n s', s.allocateChunk = some (n, s') → s'.Free n

/-- A handle of no chunk is not in use. -/
theorem Heap.spareFree {P : List ChunkHandle} (hh : s.Heap chain free P)
    (hu : s.UsedLive chain) : s.SpareFree := by
  intro n s' ha
  obtain ⟨n', s₁, free₁, halloc, hl₁, hsame⟩ := hh.layout.allocateChunk
  cases ha.symm.trans halloc
  by_contra hn
  rw [Free, hsame.chunk] at hn
  refine (hl₁.spare_dead n rfl).2 ?_
  rw [Live, hsame.regionManager]
  exact hu n hn

/-- The change keeps free chunks free. -/
def KeepsFree (f : Chunk → Chunk) : Prop := ∀ c, c.allocationId = -1 → (f c).allocationId = -1

/-- A change of a free chunk that stays free is not recorded. -/
theorem record_modifyChunk_of_free (hfree : s.Free h) (hf : KeepsFree f) :
    (s.modifyChunk h f).record = s.record := by
  refine record_modifyChunk fun c hc => ?_
  have hid : c.allocationId = -1 := by
    rwa [Free, chunk, ← chunkFromHandle, hc] at hfree
  rw [Chunk.use_of_free hid, Chunk.use_of_free (hf c hid)]

theorem Free.modifyChunk {x : ChunkHandle} (hx : s.Free x) (hf : KeepsFree f) :
    (s.modifyChunk h f).Free x := by
  rw [Free, chunk] at hx ⊢
  rw [BFCAllocator.modifyChunk, getElem?_modify]
  cases hc : s.chunks[x]? with
  | none => rfl
  | some c =>
    rw [hc] at hx
    by_cases he : h = x
    · simpa [he] using hf c hx
    · simpa [he] using hx

/-- Both chunks of a split are free. -/
theorem record_linkNewChunk {c : Chunk} (hh : s.Free h) (hn : s.Free n) :
    (s.linkNewChunk h n c k).record = s.record := by
  have hnew : KeepsFree fun n : Chunk =>
      { n with
        ptr := c.ptr + k
        size := subSizeT c.size k
        allocationId := -1
        prev := some h
        next := c.next } := fun _ _ => rfl
  have hold : KeepsFree fun c : Chunk => { c with size := k, next := some n } := fun _ hc => hc
  rw [linkNewChunk, record_setPrev, record_modifyChunk_of_free (hh.modifyChunk hnew) hold,
    record_modifyChunk_of_free hn hnew]

/-- Splitting a free chunk does not change the record. -/
theorem record_splitChunk (hspare : s.SpareFree) (hs : s.splitChunk h k = some s') :
    s'.record = s.record := by
  obtain ⟨⟨n, s₁⟩, halloc, hs⟩ := bind_eq_some_iff.mp hs
  obtain ⟨c, hc, hs⟩ := bind_eq_some_iff.mp hs
  split at hs
  · next hcheck =>
    obtain ⟨regions, -, hs⟩ := bind_eq_some_iff.mp hs
    have hh : s₁.Free h := by
      rw [free_iff, chunk, ← chunkFromHandle, hc]
      simpa using (Bool.and_eq_true_iff.mp hcheck).1
    have hlink := @record_linkNewChunk { s₁ with regionManager := regions } h n k c hh
      (hspare n s₁ halloc)
    have hold := record_allocateChunk halloc
    exact (record_insertFreeChunkIntoBin hs).trans (hlink.trans hold)
  · cases hs

theorem allocateChunk_withRegions (regions : RegionManager) :
    BFCAllocator.allocateChunk { s with regionManager := regions } =
      s.allocateChunk.map fun p => (p.1, { p.2 with regionManager := regions }) := by
  rw [BFCAllocator.allocateChunk, BFCAllocator.allocateChunk]
  cases s.freeChunksList with
  | none => rfl
  | some h => cases hc : s.chunkFromHandle h <;> simp [chunkFromHandle] at hc <;>
      simp [chunkFromHandle]

/-- A new region does not change the record. -/
theorem record_addRegion {memAddr bytes : Nat} (hspare : s.SpareFree)
    (ha : s.addRegion memAddr bytes = some s') : s'.record = s.record := by
  obtain ⟨⟨n, s₁⟩, hadded, ha⟩ := bind_eq_some_iff.mp ha
  obtain ⟨regions, -, ha⟩ := bind_eq_some_iff.mp ha
  rw [allocateChunk_withRegions] at hadded
  obtain ⟨⟨n, s₁⟩, halloc, he⟩ := map_eq_some_iff.mp hadded
  cases he
  have hnew : KeepsFree fun c : Chunk =>
      { c with ptr := memAddr, size := bytes, allocationId := -1, prev := none, next := none } :=
    fun _ _ => rfl
  have hmodify := record_modifyChunk_of_free (hspare n s₁ halloc) hnew
  have hold := record_allocateChunk halloc
  exact (record_insertFreeChunkIntoBin ha).trans (hmodify.trans hold)

/-- Giving a handle back does not change the record. -/
theorem record_deallocateChunk : (s.deallocateChunk h).record = s.record := by
  have hmodify : (s.modifyChunk h fun c => { c with next := s.freeChunksList }).record = s.record :=
    record_modifyChunk fun _ _ => rfl
  exact hmodify

/-- Both chunks of a merge are free. -/
theorem record_merge {h1 h2 : ChunkHandle} (hm : s.merge h1 h2 = some s') :
    s'.record = s.record := by
  obtain ⟨c1, hc1, hm⟩ := bind_eq_some_iff.mp hm
  obtain ⟨c2, -, hm⟩ := bind_eq_some_iff.mp hm
  split at hm
  · cases hm
  · next hcheck =>
    obtain ⟨c, -, hm⟩ := bind_eq_some_iff.mp hm
    obtain ⟨regions, -, hm⟩ := bind_eq_some_iff.mp hm
    cases hm
    have hfree : s.Free h1 := by
      rw [free_iff, chunk, ← chunkFromHandle, hc1]
      simp only [Bool.or_eq_true, not_or] at hcheck
      simpa using hcheck.1.1
    have hlink : (s.linkMerged h1 c2).record = s.record := by
      rw [linkMerged, record_setPrev]
      exact record_modifyChunk_of_free hfree fun _ hc => hc
    exact record_deallocateChunk.trans hlink

/-- Merging with the next chunk does not change the record. -/
theorem record_coalesceNext (hc : s.coalesceNext h = some s') : s'.record = s.record := by
  obtain ⟨c, -, hc⟩ := bind_eq_some_iff.mp hc
  split at hc
  · cases hc
    rfl
  · obtain ⟨cnext, -, hc⟩ := bind_eq_some_iff.mp hc
    split at hc
    · cases hc
      rfl
    · obtain ⟨s₁, hremove, hc⟩ := bind_eq_some_iff.mp hc
      exact (record_merge hc).trans (record_removeFreeChunkFromBin hremove)

/-- Merging with the previous chunk does not change the record. -/
theorem record_coalescePrev {x : ChunkHandle} (hc : s.coalescePrev h = some (x, s')) :
    s'.record = s.record := by
  obtain ⟨c, -, hc⟩ := bind_eq_some_iff.mp hc
  split at hc
  · cases hc
    rfl
  obtain ⟨cprev, -, hc⟩ := bind_eq_some_iff.mp hc
  split at hc
  · cases hc
    rfl
  · obtain ⟨s₁, hremove, hc⟩ := bind_eq_some_iff.mp hc
    obtain ⟨s₂, hmerge, hc⟩ := map_eq_some_iff.mp hc
    cases hc
    exact (record_merge hmerge).trans (record_removeFreeChunkFromBin hremove)

/-! ## Handing out and taking back -/

/-- The statistics count the bytes in use, and no two chunks in use have the same id. -/
structure Accounted (s : BFCAllocator) : Prop where
  bytes_eq : s.stats.bytesInUse = (s.uses.map Prod.snd).sum
  ids_nodup : (s.uses.map Prod.fst).Nodup
  ids_lt : ∀ u ∈ s.uses, u.1 < s.nextAllocationId

/-- The accounts depend on what is in use only. -/
theorem Accounted.congr (ha : s.Accounted) (hu : s'.usage = s.usage) : s'.Accounted := by
  obtain ⟨huses, hstats, hid⟩ : s'.uses = s.uses ∧ s'.stats = s.stats ∧
      s'.nextAllocationId = s.nextAllocationId := by simpa [usage] using hu
  exact ⟨by rw [hstats, huses, ha.bytes_eq], huses ▸ ha.ids_nodup, by
    rw [huses, hid]
    exact ha.ids_lt⟩

/-- A new allocator has nothing in use. -/
theorem accounted_create (totalMemory : Nat) (allowGrowth : Bool) :
    (create totalMemory allowGrowth).Accounted :=
  ⟨rfl, nodup_nil, fun _ hu => nomatch hu⟩

variable (ha : s.Accounted)
include ha

/-- The next id is new. -/
theorem Accounted.markInUse (hlt : h < s.chunks.length) (hfree : s.Free h)
    (hid : 0 < s.nextAllocationId) (numBytes : Nat) : (s.markInUse h numBytes).Accounted := by
  have hchunk : s.chunks[h]? = some (s.chunk h) := chunkFromHandle_eq hlt
  have huse : ({ s.chunk h with
      allocationId := s.nextAllocationId } : Chunk).use =
      some (s.nextAllocationId, (s.chunk h).size) := by
    rw [Chunk.use, if_pos]
    simp only [Chunk.inUse, decide_eq_true_eq]
    omega
  have hperm : (s.markInUse h numBytes).uses.Perm
      ((s.nextAllocationId, (s.chunk h).size) :: s.uses) :=
    census_modify_enter hchunk (Chunk.use_of_free hfree) huse
  refine ⟨?_, ?_, ?_⟩
  · rw [(hperm.map _).sum_nat, map_cons, sum_cons]
    change s.stats.bytesInUse + (s.chunk h).size = _
    rw [ha.bytes_eq]
    omega
  · rw [(hperm.map _).nodup_iff, map_cons, nodup_cons]
    refine ⟨fun hmem => ?_, ha.ids_nodup⟩
    obtain ⟨u, hu, he⟩ := mem_map.mp hmem
    have hlt := ha.ids_lt u hu
    omega
  · intro u hu
    change u.1 < s.nextAllocationId + 1
    rcases mem_cons.mp (hperm.mem_iff.mp hu) with rfl | hu
    · exact Int.lt_succ _
    · have hlt := ha.ids_lt u hu
      omega

/-- A chunk that is taken back is no longer counted. -/
theorem Accounted.markFree (hlt : h < s.chunks.length) (hused : ¬ s.Free h) :
    (s.markFree h).Accounted := by
  have hchunk : s.chunks[h]? = some (s.chunk h) := chunkFromHandle_eq hlt
  have huse : (s.chunk h).use = some ((s.chunk h).allocationId, (s.chunk h).size) := by
    rw [Chunk.use]
    rw [Free] at hused
    simpa [Chunk.inUse] using hused
  have hperm : s.uses.Perm (((s.chunk h).allocationId, (s.chunk h).size) :: (s.markFree h).uses) :=
    census_modify_leave hchunk huse (Chunk.use_of_free rfl)
  have hbytes := ha.bytes_eq
  have hnodup := ha.ids_nodup
  rw [(hperm.map _).sum_nat, map_cons, sum_cons] at hbytes
  rw [(hperm.map _).nodup_iff, map_cons, nodup_cons] at hnodup
  refine ⟨?_, hnodup.2, fun u hu => ha.ids_lt u (hperm.mem_iff.mpr (mem_cons_of_mem _ hu))⟩
  change s.stats.bytesInUse - (s.chunk h).size = _
  omega

/-- `FreeAndMaybeCoalesce` takes one chunk back. -/
theorem Accounted.freeAndMaybeCoalesce (hf : s.freeAndMaybeCoalesce h = some s') :
    s'.Accounted := by
  obtain ⟨c, hc, hf⟩ := bind_eq_some_iff.mp hf
  split at hf
  · cases hf
  · next hcheck =>
    obtain ⟨s₁, hnext, hf⟩ := bind_eq_some_iff.mp hf
    obtain ⟨⟨x, s₂⟩, hprev, hf⟩ := bind_eq_some_iff.mp hf
    have hlt : h < s.chunks.length := (List.getElem?_eq_some_iff.mp hc).1
    have hchunk : s.chunk h = c := some.inj ((chunkFromHandle_eq hlt).symm.trans hc)
    have hused : ¬ s.Free h := by
      rw [free_iff, hchunk]
      simp only [Bool.or_eq_true, not_or] at hcheck
      simpa using hcheck.1
    have hmark := ha.markFree hlt hused
    rw [BFCAllocator.markFree, hchunk] at hmark
    exact hmark.congr (congrArg Prod.fst ((record_insertFreeChunkIntoBin hf).trans
      ((record_coalescePrev hprev).trans (record_coalesceNext hnext))))

end BFCAllocator

end Tension.Bfc
