import Tension.Models.Bfc.Surgery

/-!
# The bins

Every free chunk is in the bin of its size, except for those that an operation is working
on. Chunks are compared by their sizes and addresses, which do not change while they are in
a bin.
-/

namespace Tension.Bfc

namespace BFCAllocator

variable {s s' : BFCAllocator} {chain chain' : Nat → List ChunkHandle} {free : List ChunkHandle}
  {spare : Option ChunkHandle} {P P' : List ChunkHandle} {h x y : ChunkHandle}

/-- The chunk is not in use. -/
def Free (s : BFCAllocator) (h : ChunkHandle) : Prop := (s.chunk h).allocationId = -1

/-- A chunk is free if it is not in use. -/
theorem free_iff : s.Free h ↔ (s.chunk h).inUse = false := by
  simp [Free, Chunk.inUse]

theorem not_free_iff : ¬ s.Free h ↔ (s.chunk h).inUse = true := by
  rw [free_iff, Bool.not_eq_false]

/-- The free chunks that are not in `P` are in the bins of their sizes. -/
structure Binned (s : BFCAllocator) (chain : Nat → List ChunkHandle) (P : List ChunkHandle) :
    Prop where
  mem_iff : ∀ b h, h ∈ s.bins b ↔
    s.Live chain h ∧ s.Free h ∧ h ∉ P ∧ b = binNumForSize (s.chunk h).size
  binNum_iff : ∀ h b, (s.chunk h).binNum = some b ↔ h ∈ s.bins b
  sorted : ∀ b, (s.bins b).Pairwise fun x y => s.chunkComparator x y = true

/-! ## The comparator -/

/-- Chunks are ordered by size, then by address. -/
theorem chunkComparator_iff : s.chunkComparator x y = true ↔ (s.chunk x).size < (s.chunk y).size ∨
      (s.chunk x).size = (s.chunk y).size ∧ (s.chunk x).ptr < (s.chunk y).ptr := by
  rw [chunkComparator]
  split <;> rw [decide_eq_true_eq] <;> omega

/-- A chunk is not before itself. -/
theorem chunkComparator_irrefl : s.chunkComparator x x = false := by
  rw [← Bool.not_eq_true, chunkComparator_iff]
  omega

/-- The order of the chunks is transitive. -/
theorem chunkComparator_trans {z : ChunkHandle} (hxy : s.chunkComparator x y = true)
    (hyz : s.chunkComparator y z = true) : s.chunkComparator x z = true := by
  rw [chunkComparator_iff] at hxy hyz ⊢
  omega

theorem chunkComparator_congr (hx : s'.block x = s.block x) (hy : s'.block y = s.block y) :
    s'.chunkComparator x y = s.chunkComparator x y := by
  have hsize : ∀ {z}, s'.block z = s.block z → (s'.chunk z).size = (s.chunk z).size :=
    fun hz => congrArg Block.size hz
  have hptr : ∀ {z}, s'.block z = s.block z → (s'.chunk z).ptr = (s.chunk z).ptr :=
    fun hz => congrArg Block.start hz
  rw [chunkComparator, chunkComparator, hsize hx, hsize hy, hptr hx, hptr hy]

/-- Two chunks are never equal. -/
theorem Layout.chunkComparator_total (hl : s.Layout chain free spare) (hx : s.Live chain x)
    (hy : s.Live chain y) (hne : x ≠ y) :
    s.chunkComparator x y = true ∨ s.chunkComparator y x = true := by
  have hptr : (s.chunk x).ptr ≠ (s.chunk y).ptr := fun he => hne (hl.eq_of_ptr hx hy he)
  rw [chunkComparator_iff, chunkComparator_iff]
  omega

/-! ## Changes of the heap -/

/-- The chunk has to be in a bin. -/
def Binnable (s : BFCAllocator) (chain : Nat → List ChunkHandle) (P : List ChunkHandle)
    (h : ChunkHandle) : Prop :=
  s.Live chain h ∧ s.Free h ∧ h ∉ P

/-- The bins stay correct if nothing changes for the chunks that are in them. -/
theorem Binned.transfer (hb : s.Binned chain P) (hbins : s'.bins = s.bins)
    (hnum : ∀ x, (s'.chunk x).binNum = (s.chunk x).binNum)
    (hmem : ∀ x, s'.Binnable chain' P' x ↔ s.Binnable chain P x)
    (hchunk : ∀ x, s.Binnable chain P x →
      (s'.chunk x).size = (s.chunk x).size ∧ (s'.chunk x).ptr = (s.chunk x).ptr) :
    s'.Binned chain' P' := by
  have hin : ∀ b, ∀ x ∈ s.bins b, s.Binnable chain P x := by
    intro b x hx
    obtain ⟨hlive, hfree, hnot, -⟩ := (hb.mem_iff b x).mp hx
    exact ⟨hlive, hfree, hnot⟩
  refine ⟨fun b x => ?_, fun x b => ?_, fun b => ?_⟩
  · rw [hbins]
    constructor
    · intro hx
      obtain ⟨hlive, hfree, hnot⟩ := (hmem x).mpr (hin b x hx)
      refine ⟨hlive, hfree, hnot, ?_⟩
      rw [(hchunk x (hin b x hx)).1]
      exact ((hb.mem_iff b x).mp hx).2.2.2
    · rintro ⟨hlive, hfree, hnot, hbin⟩
      have hx := (hmem x).mp ⟨hlive, hfree, hnot⟩
      rw [(hchunk x hx).1] at hbin
      exact (hb.mem_iff b x).mpr ⟨hx.1, hx.2.1, hx.2.2, hbin⟩
  · rw [hnum, hbins]
    exact hb.binNum_iff x b
  · rw [hbins]
    refine (hb.sorted b).imp_of_mem ?_
    intro x y hx hy hlt
    obtain ⟨hsx, hpx⟩ := hchunk x (hin b x hx)
    obtain ⟨hsy, hpy⟩ := hchunk y (hin b y hy)
    rw [chunkComparator_iff] at hlt ⊢
    rwa [hsx, hsy, hpx, hpy]

/-! ## Moving chunks in and out -/

/-- Nothing but the bins differs. -/
structure Rebinned (s s' : BFCAllocator) : Prop where
  chunk : ∀ x, ∃ b, s'.chunk x = { s.chunk x with binNum := b }
  regionManager : s'.regionManager = s.regionManager
  freeChunksList : s'.freeChunksList = s.freeChunksList
  length : s'.chunks.length = s.chunks.length
  nextAllocationId : s'.nextAllocationId = s.nextAllocationId

namespace Rebinned

variable (hr : Rebinned s s')
include hr

section

variable (x : ChunkHandle)

/-- Bin numbers are not part of the block of a chunk. -/
theorem block : s'.block x = s.block x := by
  obtain ⟨b, hb⟩ := hr.chunk x
  rw [BFCAllocator.block, hb]
  rfl

theorem allocationId : (s'.chunk x).allocationId = (s.chunk x).allocationId := by
  obtain ⟨b, hb⟩ := hr.chunk x
  rw [hb]

/-- Bin numbers do not make a chunk free. -/
theorem free_congr : s'.Free x ↔ s.Free x := by rw [Free, Free, hr.allocationId]

/-- Bin numbers do not make a chunk live. -/
theorem live_congr : s'.Live chain x ↔ s.Live chain x := by
  rw [Live, Live, hr.regionManager]

end

/-- Bin numbers are not part of the layout. -/
theorem layout (hl : s.Layout chain free spare) : s'.Layout chain free spare :=
  hl.congr hr.regionManager hr.freeChunksList hr.length hr.block

theorem size (x : ChunkHandle) : (s'.chunk x).size = (s.chunk x).size :=
  congrArg Block.size (hr.block x)

end Rebinned

/-- The state after a chunk has been given a bin number and a bin has been replaced. -/
def rebin (s : BFCAllocator) (h : ChunkHandle) (num : Option Nat) (b : Nat)
    (l : List ChunkHandle) : BFCAllocator :=
  (s.modifyChunk h fun c => { c with binNum := num }).setBin b l

variable {num : Option Nat} {b : Nat} {l : List ChunkHandle}

/-- One chunk gets a bin number. -/
theorem chunk_rebin (hh : h < s.chunks.length) :
    (s.rebin h num b l).chunk x = if x = h then { s.chunk h with binNum := num } else s.chunk x :=
  chunk_modifyChunk hh

/-- Nothing but a bin and a bin number changes. -/
theorem rebinned_rebin (hh : h < s.chunks.length) : Rebinned s (s.rebin h num b l) := by
  refine ⟨fun x => ?_, rfl, rfl, length_modifyChunk, rfl⟩
  rw [chunk_rebin hh]
  split
  · next he => exact ⟨num, by rw [he]⟩
  · exact ⟨(s.chunk x).binNum, rfl⟩

theorem bins_rebin (i : Nat) : (s.rebin h num b l).bins i = if i = b then l else s.bins i := rfl

/-- A chunk enters the bin of its size or leaves it. -/
theorem Binned.rebin (hb : s.Binned chain P) (hh : h < s.chunks.length)
    (hb' : b = binNumForSize (s.chunk h).size)
    (hmem : ∀ x, x ∈ l ↔ x = h ∧ num = some b ∨ x ≠ h ∧ x ∈ s.bins b)
    (hsorted : l.Pairwise fun x y => s.chunkComparator x y = true)
    (hself : ∀ i, num = some i ↔ s.Live chain h ∧ s.Free h ∧ h ∉ P' ∧ i = b)
    (hP : ∀ x, x ≠ h → (x ∈ P' ↔ x ∈ P)) : (s.rebin h num b l).Binned chain P' := by
  have hr : Rebinned s (s.rebin h num b l) := rebinned_rebin hh
  have hbins : ∀ i x, x ∈ (s.rebin h num b l).bins i ↔
      x = h ∧ num = some i ∨ x ≠ h ∧ x ∈ s.bins i := by
    intro i x
    rw [bins_rebin]
    split
    · next he => rw [hmem, he]
    · next hne =>
      -- the chunk is in no other bin
      by_cases hx : x = h
      · simp [hx, hself, hb.mem_iff, ← hb', hne]
      · simp [hx]
  refine ⟨fun i x => ?_, fun x i => ?_, fun i => ?_⟩
  · rw [hbins, hr.live_congr, hr.free_congr, hr.size]
    by_cases hx : x = h
    · simp [hx, hself, hb']
    · simp [hx, hb.mem_iff, hP x hx]
  · rw [hbins, chunk_rebin hh]
    by_cases hx : x = h
    · simp [hx]
    · simp [hx, hb.binNum_iff]
  · have hcmp : ∀ {x y}, s.chunkComparator x y = true →
        (s.rebin h num b l).chunkComparator x y = true := by
      intro x y hlt
      rwa [chunkComparator_congr (hr.block x) (hr.block y)]
    rw [bins_rebin]
    split
    · exact hsorted.imp hcmp
    · exact (hb.sorted i).imp hcmp

variable (hl : s.Layout chain free spare)
include hl

/-- A chunk leaves its bin. -/
theorem Binned.leave (hb : s.Binned chain P) (hh : h ∈ s.bins b)
    (hmem : ∀ x, x ∈ l ↔ x ∈ s.bins b ∧ x ≠ h)
    (hsorted : l.Pairwise fun x y => s.chunkComparator x y = true) :
    (s.rebin h none b l).Binned chain (h :: P) := by
  obtain ⟨hlive, -, -, hbin⟩ := (hb.mem_iff b h).mp hh
  refine hb.rebin (hl.lt_of_live hlive) hbin (fun x => ?_) hsorted (by simp)
    fun x hx => by simp [hx]
  simp [hmem, and_comm]

/-- `InsertFreeChunkIntoBin`. -/
theorem Binned.insertFreeChunkIntoBin (hb : s.Binned chain (h :: P)) (hlive : s.Live chain h)
    (hfree : s.Free h) (hP : h ∉ P) :
    ∃ s', s.insertFreeChunkIntoBin h = some s' ∧ s'.Binned chain P ∧ Rebinned s s' := by
  have hh := hl.lt_of_live hlive
  set b := binNumForSize (s.chunk h).size with hbdef
  have hnone : (s.chunk h).binNum = none := by
    refine Option.eq_none_iff_forall_not_mem.mpr fun b hmem => ?_
    exact ((hb.mem_iff b h).mp ((hb.binNum_iff h b).mp hmem)).2.2.1 (by simp)
  have hr : Rebinned s (s.rebin h (some b) b (s.bins b)) := rebinned_rebin hh
  have hcmp : (s.modifyChunk h fun c => { c with binNum := some b }).chunkComparator =
      s.chunkComparator :=
    funext fun x => funext fun y => chunkComparator_congr (hr.block x) (hr.block y)
  have htotal : ∀ x ∈ s.bins b, s.chunkComparator h x = true ∨ s.chunkComparator x h = true ∨
      h = x := by
    intro x hx
    obtain ⟨hxlive, -, hnot, -⟩ := (hb.mem_iff b x).mp hx
    refine (hl.chunkComparator_total hlive hxlive ?_).imp_right .inl
    rintro rfl
    exact hnot (by simp)
  refine ⟨s.rebin h (some b) b (OrderedSet.insert s.chunkComparator h (s.bins b)), ?_, ?_,
    rebinned_rebin hh⟩
  · have hinuse := free_iff.mp hfree
    rw [BFCAllocator.insertFreeChunkIntoBin, chunkFromHandle_eq hh]
    simp only [Option.bind_eq_bind, Option.bind_some, hinuse, hnone, ← hbdef, hcmp]
    rfl
  · refine hb.rebin hh rfl (fun x => ?_) ?_ (by simp [hlive, hfree, hP, eq_comm])
      fun x hx => by simp [hx]
    · rw [OrderedSet.mem_insert htotal]
      tauto
    · exact OrderedSet.pairwise_insert htotal (fun _ _ _ => chunkComparator_trans) (hb.sorted b)

/-- `RemoveFreeChunkIterFromBin`. -/
theorem Binned.removeFreeChunkIterFromBin (hb : s.Binned chain P) (hh : h ∈ s.bins b) :
    ∃ s', s.removeFreeChunkIterFromBin b h = some s' ∧ s'.Binned chain (h :: P) ∧
      Rebinned s s' := by
  obtain ⟨hlive, hfree, -⟩ := (hb.mem_iff b h).mp hh
  have hlt := hl.lt_of_live hlive
  have hnodup : (s.bins b).Nodup := by
    refine (hb.sorted b).imp ?_
    rintro x y hxy rfl
    rw [chunkComparator_irrefl] at hxy
    cases hxy
  refine ⟨s.rebin h none b ((s.bins b).erase h), ?_, ?_, rebinned_rebin hlt⟩
  · have hinuse := free_iff.mp hfree
    rw [BFCAllocator.removeFreeChunkIterFromBin, chunkFromHandle_eq hlt]
    simp only [Option.bind_eq_bind, Option.bind_some, hinuse, (hb.binNum_iff h b).mpr hh]
    rfl
  · refine hb.leave hl hh (fun x => ?_) ((hb.sorted b).sublist List.erase_sublist)
    rw [hnodup.mem_erase_iff, and_comm]

/-- `RemoveFreeChunkFromBin`. -/
theorem Binned.removeFreeChunkFromBin (hb : s.Binned chain P) (hlive : s.Live chain h)
    (hfree : s.Free h) (hP : h ∉ P) :
    ∃ s', s.removeFreeChunkFromBin h = some s' ∧ s'.Binned chain (h :: P) ∧ Rebinned s s' := by
  have hlt := hl.lt_of_live hlive
  set b := binNumForSize (s.chunk h).size with hbdef
  have hh : h ∈ s.bins b := (hb.mem_iff b h).mpr ⟨hlive, hfree, hP, rfl⟩
  refine ⟨s.rebin h none b (OrderedSet.erase s.chunkComparator h (s.bins b)), ?_, ?_,
    rebinned_rebin hlt⟩
  · have hinuse := free_iff.mp hfree
    rw [BFCAllocator.removeFreeChunkFromBin, chunkFromHandle_eq hlt]
    simp only [Option.bind_eq_bind, Option.bind_some, hinuse, (hb.binNum_iff h b).mpr hh,
      OrderedSet.contains_of_mem chunkComparator_irrefl hh]
    rfl
  · refine hb.leave hl hh (fun x => ?_) (OrderedSet.pairwise_erase (hb.sorted b))
    rw [OrderedSet.mem_erase]
    refine and_congr_right fun hx => ⟨?_, fun hne => ?_⟩
    · rintro hlt rfl
      rw [chunkComparator_irrefl] at hlt
      simp at hlt
    · exact hl.chunkComparator_total hlive ((hb.mem_iff b x).mp hx).1 hne.symm

end BFCAllocator

end Tension.Bfc
