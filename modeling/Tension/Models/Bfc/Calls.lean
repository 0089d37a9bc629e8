import Tension.Core.Run
import Tension.Models.Bfc.Allocate

/-!
# Runs of calls

Clients allocate and give back what they got. The heap stays consistent after every call as
long as no region is larger than an `int` can index.
-/

namespace Tension.Bfc

open Run Block List Option

/-- A call, with the answers that the `SubAllocator` gives while it runs. -/
inductive Call where
  | allocateRaw (numBytes : Nat) (answers : List (Option Nat))
  | deallocateRaw (ptr : Nat)

/-- The allocator and the pointers that it has returned and that have not been freed since. -/
structure System where
  allocator : BFCAllocator
  held : List Nat

namespace System

/-- No call has been made. -/
def create (totalMemory : Nat) (allowGrowth : Bool) : System :=
  ⟨.create totalMemory allowGrowth, []⟩

/-- One call. -/
def step (scale : Nat → Nat) (s : System) : Call → Option System
  | .allocateRaw numBytes answers =>
    (s.allocator.allocateRawInternal scale numBytes answers).map fun p =>
      ⟨p.2, p.1.toList ++ s.held⟩
  | .deallocateRaw ptr =>
    (s.allocator.deallocateRawInternal (some ptr)).map fun a => ⟨a, s.held.filter (· ≠ ptr)⟩

/-- What is assumed of a call: sizes are positive and at most `2 ^ 63`, memory is fresh and its
request meets `Q`, and only pointers that are held are freed. -/
def Legal (scale : Nat → Nat) (Q : BFCAllocator.Request → Prop) (s : System) : Call → Prop
  | .allocateRaw numBytes answers =>
    0 < numBytes ∧ numBytes ≤ 2 ^ 63 ∧ s.allocator.AllocationAnswered scale numBytes answers Q
  | .deallocateRaw ptr => ptr ∈ s.held

end System

namespace BFCAllocator

/-- The representations of the heap agree: following `next` from the chunk at the base of a
region, the chunks tile it and the table finds exactly these; a chunk is free exactly if it
is in the bin of its size; no two adjacent chunks are free; and the handles of no chunk are
those on the list of free handles. -/
structure Invariant (s : BFCAllocator) (chain : Nat → List ChunkHandle)
    (free : List ChunkHandle) : Prop where
  base : ∀ r ∈ s.regionManager, r.handles 0 = (chain r.ptr).head?
  tiled : ∀ r ∈ s.regionManager, s.Tiled r (chain r.ptr)
  binned : ∀ b h, h ∈ s.bins b ↔
    s.Live chain h ∧ s.Free h ∧ b = binNumForSize (s.chunk h).size
  coalesced : s.AllCoalesced chain
  listed : Listed (fun h => (s.chunk h).next) s.freeChunksList free
  free_iff : ∀ h < s.chunks.length, h ∈ free ↔ ¬ s.Live chain h

theorem Heap.invariant {s : BFCAllocator} {chain : Nat → List ChunkHandle}
    {free : List ChunkHandle} (hh : s.Heap chain free []) (hc : s.AllCoalesced chain) :
    s.Invariant chain free where
  base r hr := (hh.layout.tiled r hr).handles_zero (hh.layout.sized r hr)
  tiled := hh.layout.tiled
  binned b h := by simpa using hh.binned.mem_iff b h
  coalesced := hc
  listed := hh.layout.listed
  free_iff h hlt := by
    refine ⟨hh.layout.free_dead h, fun hdead => ?_⟩
    have hvalid := (hh.layout.valid h).mp hlt
    simpa [hdead] using hvalid

theorem heap_create (totalMemory : Nat) (allowGrowth : Bool) :
    (create totalMemory allowGrowth).Heap (fun _ => []) [] [] := by
  have hdead : ∀ h, ¬ (create totalMemory allowGrowth).Live (fun _ => []) h := by
    rintro h ⟨r, hr, -⟩
    cases hr
  refine ⟨⟨.nil, nofun, nofun, rfl, .nil, fun h => ?_, nofun, nofun⟩, ⟨fun b h => ?_, fun h b => ?_,
    fun b => .nil⟩, Int.zero_lt_one⟩
  · refine iff_of_false (Nat.not_lt_zero h) ?_
    rintro (hspare | hfree | hlive)
    · cases hspare
    · cases hfree
    · exact hdead h hlive
  · exact iff_of_false not_mem_nil fun hmem => hdead h hmem.1
  · exact iff_of_false nofun not_mem_nil

end BFCAllocator

namespace System

/-- The heap is consistent and the pointers that are held are chunks in use. -/
def Consistent (s : System) : Prop :=
  ∃ chain free, s.allocator.Heap chain free [] ∧ s.allocator.AllCoalesced chain ∧
    ∀ p ∈ s.held, s.allocator.InUseAt chain p

section Calls

variable {scale : Nat → Nat} {s : System} {chain : Nat → List ChunkHandle}
  {free : List ChunkHandle} (hh : s.allocator.Heap chain free [])
  (hcoal : s.allocator.AllCoalesced chain) (hheld : ∀ p ∈ s.held, s.allocator.InUseAt chain p)
include hh hcoal hheld

/-- What `AllocateRaw` does to the heap. -/
theorem allocateRaw_keeps {numBytes : Nat} {answers : List (Option Nat)} (hpos : 0 < numBytes)
    (hle : numBytes + 255 < 2 ^ 64) (hreq : s.allocator.AllocationAnswered scale numBytes answers
      BFCAllocator.Request.Indexable) : ∃ ptr a chain' free',
      s.allocator.allocateRawInternal scale numBytes answers = some (ptr, a) ∧
      BFCAllocator.Kept s.allocator chain a chain' free' ∧
      (∀ p ∈ ptr.toList ++ s.held, a.InUseAt chain' p) ∧
      ∀ q, ptr = some q → ∃ h size, a.HandedOut chain' h q size ∧ roundedBytes numBytes ≤ size := by
  obtain ⟨ptr, a, chain', free', hrun, hkept, hptr⟩ := hh.allocateRawInternal hcoal hpos hle hreq
  refine ⟨ptr, a, chain', free', hrun, hkept, fun p hp => ?_, hptr⟩
  rcases mem_append.mp hp with hp | hp
  · obtain ⟨h, size, hout, -⟩ := hptr p (mem_toList.mp hp)
    exact ⟨h, hout.live, hout.used, hout.ptr_eq⟩
  · exact hkept.inUse p (hheld p hp)

/-- What `DeallocateRaw` does to the heap. -/
theorem deallocateRaw_keeps {ptr : Nat} (hptr : ptr ∈ s.held) :
    ∃ a chain' free', s.allocator.deallocateRawInternal (some ptr) = some a ∧
      a.Heap chain' free' [] ∧ a.AllCoalesced chain' ∧
      (∀ p ∈ s.held.filter (· ≠ ptr), a.InUseAt chain' p) ∧
      (s.allocator.UsedLive chain → a.UsedLive chain') ∧ (s.allocator.Accounted → a.Accounted) := by
  obtain ⟨h, hlive, hused, hat⟩ := hheld ptr hptr
  obtain ⟨a, chain', free', hrun, hh', hcoal', hinuse, husedLive⟩ :=
    hh.freeAndMaybeCoalesce hcoal hlive hused
  have hget : RegionManager.getHandle ptr s.allocator.regionManager = some (some h) := by
    obtain ⟨r, hr, hmem⟩ := hlive
    have ht := hh.layout.tiled r hr
    have hsized := hh.layout.sized r hr
    obtain ⟨hlow, hhigh, -⟩ := ht.mem_range hmem
    rw [hat] at hlow hhigh
    have hentry := ht.handles_eq hsized hmem
    rw [hat] at hentry
    rw [hh.layout.ordered.getHandle_eq hr hlow hhigh, AllocationRegion.getHandle,
      hsized.slotFor_eq hlow hhigh, map_some, hentry]
  refine ⟨a, chain', free', ?_, hh', hcoal', fun p hp => ?_, husedLive,
    fun ha => ha.freeAndMaybeCoalesce hrun⟩
  · rw [BFCAllocator.deallocateRawInternal, hget]
    simp [hrun]
  · rw [mem_filter, decide_eq_true_eq] at hp
    exact hinuse p (by rw [hat]; exact hp.2) (hheld p hp.1)

end Calls

/-- A call returns and keeps the heap consistent. -/
theorem Consistent.step {scale : Nat → Nat} {s : System} {c : Call} (hs : s.Consistent)
    (hc : s.Legal scale BFCAllocator.Request.Indexable c) :
    ∃ s', s.step scale c = some s' ∧ s'.Consistent := by
  obtain ⟨chain, free, hh, hcoal, hheld⟩ := hs
  cases c with
  | allocateRaw numBytes answers =>
    obtain ⟨hpos, hle, hreq⟩ := hc
    obtain ⟨ptr, a, chain', free', hrun, hkept, hheld', -⟩ :=
      allocateRaw_keeps hh hcoal hheld hpos (by omega) hreq
    exact ⟨⟨a, ptr.toList ++ s.held⟩, by rw [System.step, hrun]; rfl, chain', free',
      hkept.heap, hkept.coalesced, hheld'⟩
  | deallocateRaw ptr =>
    obtain ⟨a, chain', free', hrun, hh', hcoal', hheld', -⟩ := deallocateRaw_keeps hh hcoal hheld hc
    exact ⟨⟨a, s.held.filter (· ≠ ptr)⟩, by rw [System.step, hrun, map_some], chain', free',
      hh', hcoal', hheld'⟩

/-- In every run whose regions are at most `2 ^ 39` bytes large, every call returns and leaves
a heap whose representations agree. -/
theorem heapInvariant_of_run (scale : Nat → Nat) (totalMemory : Nat) (allowGrowth : Bool)
    (calls : List Call)
    (hlegal : Admissible (System.step scale) (Legal scale BFCAllocator.Request.Indexable)
      (create totalMemory allowGrowth) calls) :
    ∃ s, run (System.step scale) (create totalMemory allowGrowth) calls = some s ∧
      ∃ chain free, s.allocator.Invariant chain free := by
  have hcreate : (create totalMemory allowGrowth).Consistent :=
    ⟨fun _ => [], [], BFCAllocator.heap_create totalMemory allowGrowth, nofun, nofun⟩
  obtain ⟨s, hrun, chain, free, hh, hcoal, -⟩ :=
    run_total (fun s c hs hc => hs.step hc) hcreate hlegal
  exact ⟨s, hrun, chain, free, hh.invariant hcoal⟩

/-- The answer of a `SubAllocator` that has given nothing before. -/
theorem answered_of_nil {a : BFCAllocator} {scale : Nat → Nat} {k : Nat}
    {answers : List (Option Nat)} {q : BFCAllocator.Request} (ha : a.regionManager = [])
    (hq : a.requestRegion scale k answers = some q) (hdvd : 256 ∣ q.bytes) :
    a.Answered scale k answers q := by
  refine ⟨hq, fun p _ r hr => ?_, fun _ _ => hdvd⟩
  rw [ha] at hr
  cases hr

/-- A chunk is handed out and taken back. -/
theorem heapInvariant_oneChunk :
    ∃ s, run (System.step fun bytes => bytes * 9 / 10) (create 1048576 false)
        [.allocateRaw 1000 [some 4096], .deallocateRaw 4096] = some s ∧
      ∃ chain free, s.allocator.Invariant chain free := by
  refine heapInvariant_of_run _ _ _ _ ⟨⟨by decide, by decide, fun _ _ => ?_⟩, fun s hs => ?_⟩
  · refine ⟨⟨1048576, false, false, 1048576, some 4096⟩, answered_of_nil rfl ?_ ?_, ?_⟩
    · decide +kernel
    · decide
    · rintro p -
      decide
  · have hheld : (System.step (fun bytes => bytes * 9 / 10) (create 1048576 false)
        (.allocateRaw 1000 [some 4096])).map System.held = some [4096] := by decide +kernel
    rw [hs, map_some, some.injEq] at hheld
    refine ⟨?_, fun _ _ => trivial⟩
    rw [Legal, hheld]
    exact mem_singleton_self 4096

/-- Allocating half of a region of `2 ^ 41` bytes overwrites the entry of its base: the new chunk
lies `2 ^ 32` units behind it. -/
theorem largeRegion_breaks_heapInvariant :
    Legal (fun bytes => bytes * 9 / 10) (fun _ => True) (create (2 ^ 41) false)
      (.allocateRaw (2 ^ 40) [some (2 ^ 42)]) ∧
    ∃ s, System.step (fun bytes => bytes * 9 / 10) (create (2 ^ 41) false)
        (.allocateRaw (2 ^ 40) [some (2 ^ 42)]) = some s ∧
      ¬ ∃ chain free, s.allocator.Invariant chain free := by
  refine ⟨⟨by decide, by decide, fun _ _ => ?_⟩, ?_⟩
  · refine ⟨⟨2 ^ 41, false, false, 2 ^ 41, some (2 ^ 42)⟩, answered_of_nil rfl ?_ ?_, trivial⟩
    · decide +kernel
    · decide
  · have hstate : (System.step (fun bytes => bytes * 9 / 10) (create (2 ^ 41) false)
        (.allocateRaw (2 ^ 40) [some (2 ^ 42)])).map (fun s =>
          (s.allocator.regionManager.map fun r => (r.ptr, r.handles 0),
            (s.allocator.chunk 1).ptr)) = some ([(2 ^ 42, some 1)], 2 ^ 42 + 2 ^ 40) := by
      decide +kernel
    obtain ⟨s, hs, he⟩ := map_eq_some_iff.mp hstate
    obtain ⟨hregions, hptr⟩ := Prod.mk.inj he
    refine ⟨s, hs, ?_⟩
    rintro ⟨chain, free, hinv⟩
    obtain ⟨r, hr, hre⟩ := mem_map.mp
      (show (2 ^ 42, some 1) ∈ s.allocator.regionManager.map fun r => (r.ptr, r.handles 0) by
        rw [hregions]; exact mem_singleton_self _)
    obtain ⟨hbase, hzero⟩ := Prod.mk.inj hre
    have hhead := hinv.base r hr
    rw [hzero] at hhead
    have hlinked := (hinv.tiled r hr).linked
    cases hchain : chain r.ptr with
    | nil => rw [hchain] at hhead; cases hhead
    | cons h l =>
      rw [hchain] at hhead hlinked
      cases hhead
      have hstart : (s.allocator.chunk 1).ptr = r.ptr := hlinked.1
      omega

end System

end Tension.Bfc
