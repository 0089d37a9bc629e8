import Tension.Models.Bfc.Layout

/-!
# Changes of the layout

A handle is taken from the list of free handles and becomes a chunk when a chunk is split or
a region is added, and it goes back to the list when two chunks are merged.
-/

namespace Tension.Bfc

open Block List

namespace BFCAllocator

open AllocationRegion (endPtr write_ptr)

variable {s : BFCAllocator} {chain : Nat → List ChunkHandle} {free : List ChunkHandle}
  {spare : Option ChunkHandle} {r : AllocationRegion} {l m : List ChunkHandle}
  {h n x : ChunkHandle}

/-! ## Handles -/

/-- Nothing but the list of free handles and the number of chunks differs. -/
structure SameChunks (s s' : BFCAllocator) : Prop where
  chunk : ∀ x, s'.chunk x = s.chunk x
  regionManager : s'.regionManager = s.regionManager
  bins : s'.bins = s.bins
  nextAllocationId : s'.nextAllocationId = s.nextAllocationId

/-- `AllocateChunk` makes a handle spare. -/
theorem Layout.allocateChunk (hl : s.Layout chain free none) :
    ∃ n s' free', s.allocateChunk = some (n, s') ∧ s'.Layout chain free' (some n) ∧
      SameChunks s s' := by
  cases hlist : s.freeChunksList with
  | some n =>
    have hlisted := hl.listed
    rw [hlist] at hlisted
    cases free with
    | nil => cases hlisted
    | cons n' free =>
      obtain ⟨he, hlisted⟩ := hlisted
      obtain rfl : n = n' := Option.some.inj he
      obtain ⟨hnot, hnodup⟩ := nodup_cons.mp hl.nodup
      have hn : n < s.chunks.length := (hl.valid n).mpr (.inr (.inl mem_cons_self))
      refine ⟨n, { s with freeChunksList := (s.chunk n).next }, free, ?_, ?_, ?_⟩
      · rw [BFCAllocator.allocateChunk, hlist]
        simp [chunkFromHandle_eq hn]
      · refine ⟨hl.ordered, hl.sized, fun r hr => ?_, hlisted, hnodup, fun h => ?_,
          fun h hh => ?_, ?_⟩
        · exact (hl.tiled r hr).congr fun _ _ => rfl
        · refine (hl.valid h).trans ?_
          simp only [mem_cons, Option.some.injEq, reduceCtorEq, false_or, or_assoc,
            eq_comm]
          exact Iff.rfl
        · exact hl.free_dead h (mem_cons_of_mem n hh)
        · rintro h ⟨⟩
          exact ⟨hnot, hl.free_dead n mem_cons_self⟩
      · exact ⟨fun _ => rfl, rfl, rfl, rfl⟩
  | none =>
    have hfree : free = [] := by
      have hlisted := hl.listed
      rw [hlist] at hlisted
      cases free with
      | nil => rfl
      | cons n free => cases hlisted.1
    subst hfree
    have hdead : ¬ s.Live chain s.chunks.length := fun hlive =>
      lt_irrefl _ (hl.lt_of_live hlive)
    have hchunk : ∀ x, BFCAllocator.chunk { s with chunks := s.chunks ++ [{}] } x = s.chunk x := by
      intro x
      simp only [chunk]
      rcases lt_trichotomy x s.chunks.length with hx | rfl | hx
      · rw [getElem?_append_left hx]
      · rw [getElem?_concat_length, getElem?_eq_none le_rfl]
        rfl
      · rw [getElem?_eq_none hx.le, getElem?_eq_none]
        rw [length_append]
        exact hx
    refine ⟨s.chunks.length, { s with chunks := s.chunks ++ [{}] }, [], ?_, ?_, ?_⟩
    · rw [BFCAllocator.allocateChunk, hlist]
    · refine ⟨hl.ordered, hl.sized, fun r hr => ?_, hlist, .nil, fun h => ?_, by simp, ?_⟩
      · exact (hl.tiled r hr).congr fun h _ => congrArg Chunk.block (hchunk h)
      · rw [length_append, length_singleton, Nat.lt_succ_iff_lt_or_eq, hl.valid h]
        simp only [Option.some.injEq, reduceCtorEq, false_or, eq_comm]
        exact or_comm
      · rintro h ⟨⟩
        exact ⟨by simp, hdead⟩
    · exact ⟨hchunk, rfl, rfl, rfl⟩

theorem chunk_deallocateChunk (hn : n < s.chunks.length) : (s.deallocateChunk n).chunk x =
      if x = n then { s.chunk n with next := s.freeChunksList } else s.chunk x :=
  chunk_modifyChunk hn

/-- `DeallocateChunk` lists the spare handle as free. -/
theorem Layout.deallocateChunk (hl : s.Layout chain free (some n)) :
    (s.deallocateChunk n).Layout chain (n :: free) none := by
  obtain ⟨hnot, hdead⟩ := hl.spare_dead n rfl
  have hn : n < s.chunks.length := (hl.valid n).mpr (.inl rfl)
  have hchunk : ∀ x, x ≠ n → (s.deallocateChunk n).chunk x = s.chunk x := by
    intro x hx
    rw [chunk_deallocateChunk hn, if_neg hx]
  refine ⟨hl.ordered, hl.sized, fun r hr => ?_, ⟨rfl, ?_⟩, nodup_cons.mpr ⟨hnot, hl.nodup⟩,
    fun h => ?_, fun h hh => ?_, nofun⟩
  · refine (hl.tiled r hr).congr fun h hh => ?_
    have hne : h ≠ n := by
      rintro rfl
      exact hdead ⟨r, hr, hh⟩
    exact congrArg Chunk.block (hchunk h hne)
  · dsimp only
    rw [chunk_deallocateChunk hn, if_pos rfl]
    refine hl.listed.congr fun h hh => ?_
    have hne : h ≠ n := by
      rintro rfl
      exact hnot hh
    rw [hchunk h hne]
  · rw [show (s.deallocateChunk n).chunks.length = s.chunks.length from length_modifyChunk,
      hl.valid h]
    simp only [mem_cons, Option.some.injEq, reduceCtorEq, false_or, or_assoc, eq_comm]
    exact Iff.rfl
  · rcases mem_cons.mp hh with rfl | hh
    · exact hdead
    · exact hl.free_dead h hh

/-! ## Places in a chain -/

section

variable (ht : s.Tiled r (l ++ h :: m))
include ht

/-- The neighbours of a chunk in its chain. -/
theorem Tiled.next_eq : (s.chunk h).next = m.head? := by
  obtain ⟨-, -, -, hnext, -⟩ := linked_append.mp ht.linked
  exact hnext.trans (Option.or_none ..)

theorem Tiled.prev_eq : (s.chunk h).prev = l.getLast? := by
  obtain ⟨-, -, hprev, -⟩ := linked_append.mp ht.linked
  exact hprev.trans (Option.or_none ..)

/-- What has the handles of a chain cut at one of them. -/
theorem Tiled.of_nodup : h ∉ l ∧ h ∉ m ∧ ∀ x ∈ l, x ∉ m := by
  obtain ⟨-, hm, hdisjoint⟩ := nodup_append.mp ht.nodup
  refine ⟨fun hh => ?_, (nodup_cons.mp hm).1, fun x hx hx' => ?_⟩
  · exact hdisjoint h hh h mem_cons_self rfl
  · exact hdisjoint x hx x (mem_cons_of_mem h hx') rfl

/-- The next chunk is the first of the rest. -/
theorem Tiled.next_mem {k : ChunkHandle} (hk : (s.chunk h).next = some k) : k ∈ m := by
  rw [ht.next_eq] at hk
  exact mem_of_head? hk

end

/-- The chain of a region changes at the address `p` only, and the entry of that address is
written. -/
theorem Tiled.write {s' : BFCAllocator} {l' : List ChunkHandle} {v : Option ChunkHandle} {p : Nat}
    (ht : s.Tiled r l) (hlinked : Linked s'.block none r.ptr l' none)
    (htotal : total s'.block l' = total s.block l)
    (hsizes : ∀ y ∈ l', 0 < (s'.chunk y).size ∧ 256 ∣ (s'.chunk y).size)
    (hlow : r.ptr ≤ p) (hdvd : 256 ∣ p - r.ptr)
    (hv : ∀ y, v = some y ↔ y ∈ l' ∧ (s'.chunk y).ptr = p)
    (hold : ∀ y q, q ≠ p → (y ∈ l' ∧ (s'.chunk y).ptr = q ↔ y ∈ l ∧ (s.chunk y).ptr = q)) :
    s'.Tiled (r.write ((p - r.ptr) / 256) v) l' := by
  refine ⟨hlinked, htotal.trans ht.total_eq, fun y hy => (hsizes y hy).1,
    fun y hy => (hsizes y hy).2, fun i hi y => ?_⟩
  have hentry : (r.write ((p - r.ptr) / 256) v).handles i =
      if i = (p - r.ptr) / 256 then v else r.handles i := rfl
  rw [hentry, write_ptr]
  split
  · rw [hv, show r.ptr + 256 * i = p by omega]
  · rw [ht.table i hi y, hold y _ (by omega)]

/-! ## Splitting -/

variable {c : Chunk}

theorem onlyChunks_linkNewChunk {k : Nat} : OnlyChunks s (s.linkNewChunk h n c k) := by
  refine .setPrev ?_ _
  exact ⟨rfl, rfl, rfl, rfl, by simp⟩

/-- The state after a chunk has been split. -/
def split (s : BFCAllocator) (r : AllocationRegion) (h n : ChunkHandle) (k : Nat) :
    BFCAllocator :=
  { s with
    regionManager := RegionManager.writeAt s.regionManager r.ptr
      (((s.chunk h).ptr + k - r.ptr) / 256) (some n) }.linkNewChunk h n (s.chunk h) k

variable {k : Nat}

/-- What splitting needs to know of the handles. -/
theorem Layout.next_valid (hl : s.Layout chain free spare) (hr : r ∈ s.regionManager)
    (hc : chain r.ptr = l ++ h :: m) {y : ChunkHandle} (hy : (s.chunk h).next = some y) :
    y < s.chunks.length ∧ y ≠ h ∧ y ∈ m := by
  have ht := hl.tiled r hr
  rw [hc] at ht
  have hmem := ht.next_mem hy
  refine ⟨hl.lt_of_live ⟨r, hr, by simp [hc, hmem]⟩, ?_, hmem⟩
  rintro rfl
  exact ht.of_nodup.2.1 hmem

section

variable (hl : s.Layout chain free (some n)) (hr : r ∈ s.regionManager)
  (hc : chain r.ptr = l ++ h :: m)
include hl hr hc

/-- The chunks after the assignments of `SplitChunk`. -/
theorem Layout.chunk_split :
    (s.split r h n k).chunk x =
      if x = h then { s.chunk h with size := k, next := some n }
      else if x = n then
        { s.chunk n with
          ptr := (s.chunk h).ptr + k
          size := subSizeT (s.chunk h).size k
          allocationId := -1
          prev := some h
          next := (s.chunk h).next }
      else if (s.chunk h).next = some x then { s.chunk x with prev := some n }
      else s.chunk x := by
  have hlive : ∀ y ∈ l ++ h :: m, s.Live chain y := fun y hy => ⟨r, hr, hc ▸ hy⟩
  have hdead := (hl.spare_dead n rfl).2
  have hn : n < s.chunks.length := (hl.valid n).mpr (.inl rfl)
  have hh := hlive h (by simp)
  have hne : h ≠ n := by
    rintro rfl
    exact hdead hh
  have hnext (y : ChunkHandle) (hy : (s.chunk h).next = some y) :
      y < s.chunks.length ∧ y ≠ h ∧ y ≠ n := by
    obtain ⟨hlt, hne, hmem⟩ := hl.next_valid hr hc hy
    refine ⟨hlt, hne, ?_⟩
    rintro rfl
    exact hdead (hlive y (by simp [hmem]))
  rw [BFCAllocator.split, linkNewChunk, chunk_setPrev (by simpa using fun y hy => (hnext y hy).1),
    chunk_modifyChunk (by simpa using hl.lt_of_live hh), chunk_modifyChunk (by exact hn),
    chunk_modifyChunk (by exact hn), if_neg hne]
  by_cases hxh : x = h
  · subst hxh
    rw [if_pos rfl, if_pos rfl, if_neg fun he => (hnext x he).2.1 rfl]
    rfl
  · rw [if_neg hxh, if_neg hxh]
    by_cases hxn : x = n
    · subst hxn
      rw [if_pos rfl, if_pos rfl, if_neg fun he => (hnext x he).2.2 rfl]
      rfl
    · rw [if_neg hxn, if_neg hxn]
      rfl

theorem Layout.ne_spare (hx : x ∈ l ++ h :: m) : x ≠ n := by
  rintro rfl
  exact (hl.spare_dead x rfl).2 ⟨r, hr, hc ▸ hx⟩

/-- A split leaves the chunks before it as they are. -/
theorem Layout.chunk_split_before (hx : x ∈ l) : (s.split r h n k).chunk x = s.chunk x := by
  have ht := hl.tiled r hr
  rw [hc] at ht
  obtain ⟨hhl, -, hlm⟩ := ht.of_nodup
  rw [hl.chunk_split hr hc, if_neg (ne_of_mem_of_not_mem hx hhl),
    if_neg (hl.ne_spare hr hc (by simp [hx])), if_neg fun he => hlm x hx (ht.next_mem he)]

/-- The chunk after a split gets a new predecessor. -/
theorem Layout.chunk_split_after (hx : x ∈ m) : (s.split r h n k).chunk x =
    if m.head? = some x then { s.chunk x with prev := some n } else s.chunk x := by
  have ht := hl.tiled r hr
  rw [hc] at ht
  rw [hl.chunk_split hr hc, if_neg (ne_of_mem_of_not_mem hx ht.of_nodup.2.1),
    if_neg (hl.ne_spare hr hc (by simp [hx])), ht.next_eq]

/-- A split moves no chunk but the new one. -/
theorem Layout.ptr_split (hx : x ≠ n) :
    ((s.split r h n k).chunk x).ptr = (s.chunk x).ptr := by
  rw [hl.chunk_split hr hc]
  split
  · next he => rw [he]
  · split <;> rfl

section

variable (hlt : k < (s.chunk h).size)
include hlt

/-- The new chunk has the bytes after the first `k`. -/
theorem Layout.chunk_split_new : (s.split r h n k).chunk n =
    { s.chunk n with
      ptr := (s.chunk h).ptr + k
      size := (s.chunk h).size - k
      allocationId := -1
      prev := some h
      next := (s.chunk h).next } := by
  have ht := hl.tiled r hr
  rw [hc] at ht
  have hle := (hl.sized r hr).le
  have hrange := ht.mem_range (h := h) (by simp)
  rw [endPtr] at hrange
  rw [hl.chunk_split hr hc, if_neg (hl.ne_spare hr hc (by simp)).symm, if_pos rfl,
    subSizeT_of_le hlt.le (by omega)]

/-- The chain with the new chunk is linked and has the same total size. -/
theorem Layout.linked_split :
    Linked (s.split r h n k).block none r.ptr (l ++ h :: n :: m) none ∧
      total (s.split r h n k).block (l ++ h :: n :: m) = total s.block (l ++ h :: m) := by
  have ht := hl.tiled r hr
  rw [hc] at ht
  have hch : (s.split r h n k).chunk h = _ := (hl.chunk_split hr hc).trans (if_pos rfl)
  refine ht.linked.split ht.nodup hlt.le
    (fun y hy => congrArg Chunk.block (hl.chunk_split_before hr hc hy)) (congrArg Chunk.block hch)
    (congrArg Chunk.block (hl.chunk_split_new hr hc hlt)) (fun y hy => ?_)
  rw [block, hl.chunk_split_after hr hc hy]
  split <;> rfl

variable (hk : 0 < k) (hdvd : 256 ∣ k)
include hk hdvd

/-- The sizes after a split are positive multiples of the unit. -/
theorem Layout.size_split : ∀ y ∈ l ++ h :: n :: m,
    0 < ((s.split r h n k).chunk y).size ∧ 256 ∣ ((s.split r h n k).chunk y).size := by
  have ht := hl.tiled r hr
  rw [hc] at ht
  have hold : ∀ y ∈ l ++ h :: m, _ ∧ _ := fun y hy => ⟨ht.size_pos y hy, ht.size_dvd y hy⟩
  simp only [forall_mem_append, forall_mem_cons] at hold ⊢
  obtain ⟨hbefore, hh, hafter⟩ := hold
  refine ⟨fun y hy => ?_, ?_, ?_, fun y hy => ?_⟩
  · rw [hl.chunk_split_before hr hc hy]
    exact hbefore y hy
  · rw [hl.chunk_split hr hc, if_pos rfl]
    exact ⟨hk, hdvd⟩
  · rw [hl.chunk_split_new hr hc hlt]
    dsimp only
    omega
  · rw [hl.chunk_split_after hr hc hy]
    split <;> exact hafter y hy

/-- The table of the region finds the new chunk. -/
theorem Layout.tiled_split :
    (s.split r h n k).Tiled (r.write (((s.chunk h).ptr + k - r.ptr) / 256) (some n))
      (l ++ h :: n :: m) := by
  have ht := hl.tiled r hr
  rw [hc] at ht
  obtain ⟨hlinked, htotal⟩ := hl.linked_split hr hc hlt
  have hsizes := hl.size_split hr hc hlt hk hdvd
  have hlow := (ht.mem_range (h := h) (by simp)).1
  have hd : 256 ∣ (s.chunk h).ptr - r.ptr := dvd_start_sub ht.linked ht.size_dvd (by simp)
  have hnptr : ((s.split r h n k).chunk n).ptr = (s.chunk h).ptr + k := by
    rw [hl.chunk_split_new hr hc hlt]
  refine ht.write hlinked htotal hsizes (by omega) (by omega) (fun y => ?_) fun y q hq => ?_
  · rw [Option.some.injEq]
    constructor
    · rintro rfl
      exact ⟨by simp, hnptr⟩
    · rintro ⟨hy, he⟩
      exact hlinked.eq_of_start (fun z hz => (hsizes z hz).1) (by simp) hy (hnptr.trans he.symm)
  · by_cases hy : y = n
    · subst hy
      exact iff_of_false (fun hmem => hq (hmem.2.symm.trans hnptr))
        fun hmem => hl.ne_spare hr hc hmem.1 rfl
    · rw [hl.ptr_split hr hc hy]
      simp [hy]

/-- Splitting a chunk puts the spare handle after it. -/
theorem Layout.split :
    (s.split r h n k).Layout (Function.update chain r.ptr (l ++ h :: n :: m)) free none := by
  have ht := hl.tiled r hr
  rw [hc] at ht
  refine hl.replace hr ?_ ?_ ?_ (hl.tiled_split hr hc hlt hk hdvd) ?_ ?_ (by simp)
  · exact onlyChunks_linkNewChunk.regionManager
  · exact onlyChunks_linkNewChunk.freeChunksList
  · exact onlyChunks_linkNewChunk.length
  · intro y hy hsp
    have hyn : y ≠ n := fun he => hsp (congrArg some he.symm)
    rw [hc] at hy
    refine congrArg Chunk.block ?_
    rw [hl.chunk_split hr hc, if_neg fun he => hy (by simp [he]), if_neg hyn,
      if_neg fun he => hy (by simp [ht.next_mem he])]
  · rw [hc]
    simp only [mem_append, mem_cons, Option.some.injEq]
    tauto

end

end

/-! ## Merging -/

/-- The chunks after the assignments of `Merge`. -/
theorem chunk_linkMerged (hh : h < s.chunks.length)
    (hnext : ∀ y, c.next = some y → y < s.chunks.length ∧ y ≠ h) :
    (s.linkMerged h c).chunk x =
      if x = h then
        { s.chunk h with next := c.next, size := toSizeT ((s.chunk h).size + c.size) }
      else if c.next = some x then { s.chunk x with prev := some h }
      else s.chunk x := by
  rw [linkMerged, chunk_setPrev (by simpa using fun y hy => (hnext y hy).1), chunk_modifyChunk hh]
  by_cases hxh : x = h
  · subst hxh
    rw [if_pos rfl, if_pos rfl, if_neg fun he => (hnext x he).2 rfl]
  · rw [if_neg hxh, if_neg hxh]

theorem onlyChunks_linkMerged : OnlyChunks s (s.linkMerged h c) := by
  refine .setPrev ?_ _
  exact ⟨rfl, rfl, rfl, rfl, length_modifyChunk⟩

variable {y : ChunkHandle}

/-- The state after a chunk has taken over its next one, which is not yet listed as free. -/
def merged (s : BFCAllocator) (r : AllocationRegion) (h y : ChunkHandle) : BFCAllocator :=
  { s.linkMerged h (s.chunk y) with
    regionManager := RegionManager.writeAt s.regionManager r.ptr
      (((s.chunk y).ptr - r.ptr) / 256) none }

/-- The chunks after a merge. -/
theorem Layout.chunk_merged (hl : s.Layout chain free spare) (hr : r ∈ s.regionManager)
    (hc : chain r.ptr = l ++ h :: y :: m) :
    (s.merged r h y).chunk x =
      if x = h then
        { s.chunk h with
          next := (s.chunk y).next
          size := (s.chunk h).size + (s.chunk y).size }
      else if (s.chunk y).next = some x then { s.chunk x with prev := some h }
      else s.chunk x := by
  have ht := hl.tiled r hr
  rw [hc] at ht
  have hc' : chain r.ptr = (l ++ [h]) ++ y :: m := by simp [hc]
  have hlive : ∀ z ∈ l ++ h :: y :: m, s.Live chain z := fun z hz => ⟨r, hr, hc ▸ hz⟩
  have hsize : (s.chunk h).size + (s.chunk y).size ≤ r.memorySize := by
    have htotal := ht.total_eq
    have hh : (s.block h).size = (s.chunk h).size := rfl
    have hy : (s.block y).size = (s.chunk y).size := rfl
    rw [total_append, total_cons, total_cons] at htotal
    omega
  have hle := (hl.sized r hr).le
  have hfits : toSizeT ((s.chunk h).size + (s.chunk y).size) =
      (s.chunk h).size + (s.chunk y).size := toSizeT_of_lt (by omega)
  rw [← hfits]
  refine chunk_linkMerged (hl.lt_of_live (hlive h (by simp))) fun z hz => ?_
  obtain ⟨hlt, -, hmem⟩ := hl.next_valid hr hc' hz
  refine ⟨hlt, ?_⟩
  rintro rfl
  exact ht.of_nodup.2.1 (mem_cons_of_mem y hmem)

/-- Merging two chunks makes the handle of the second spare. -/
theorem Layout.merged (hl : s.Layout chain free none) (hr : r ∈ s.regionManager)
    (hc : chain r.ptr = l ++ h :: y :: m) :
    (s.merged r h y).Layout (Function.update chain r.ptr (l ++ h :: m)) free (some y) := by
  have ht := hl.tiled r hr
  rw [hc] at ht
  have ht' : s.Tiled r ((l ++ [h]) ++ y :: m) := by simpa using ht
  obtain ⟨hhl, hhym, hlym⟩ := ht.of_nodup
  obtain ⟨hylh, hym, hlhm⟩ := ht'.of_nodup
  have hhy : h ≠ y := fun he => hhym (by simp [he])
  have hhm : h ∉ m := fun hmem => hhym (mem_cons_of_mem y hmem)
  have hyl : y ∉ l := fun hmem => hylh (by simp [hmem])
  have hchunk : ∀ x, _ := fun x => hl.chunk_merged (x := x) hr hc
  have hch := hchunk h
  rw [if_pos rfl] at hch
  have hbefore : ∀ z ∈ l, (s.merged r h y).chunk z = s.chunk z := by
    intro z hz
    rw [hchunk, if_neg (ne_of_mem_of_not_mem hz hhl),
      if_neg fun he => hlhm z (by simp [hz]) (ht'.next_mem he)]
  have hafter : ∀ z ∈ m, (s.merged r h y).chunk z =
      if m.head? = some z then { s.chunk z with prev := some h } else s.chunk z := by
    intro z hz
    rw [hchunk, if_neg (ne_of_mem_of_not_mem hz hhm), ht'.next_eq]
  have hblocks : ∀ z ∈ l, (s.merged r h y).block z = s.block z := fun z hz =>
    congrArg Chunk.block (hbefore z hz)
  obtain ⟨hlinked, htotal⟩ := ht.linked.merge ht.nodup hblocks (congrArg Chunk.block hch)
    (fun z hz => by
      rw [block, hafter z hz]
      split <;> rfl)
  have hsizes : ∀ z ∈ l ++ h :: m,
      0 < ((s.merged r h y).chunk z).size ∧ 256 ∣ ((s.merged r h y).chunk z).size := by
    have hold : ∀ z ∈ l ++ h :: y :: m, _ ∧ _ := fun z hz => ⟨ht.size_pos z hz, ht.size_dvd z hz⟩
    simp only [forall_mem_append, forall_mem_cons] at hold ⊢
    obtain ⟨hl, hh, hy, hm⟩ := hold
    refine ⟨fun z hz => ?_, ?_, fun z hz => ?_⟩
    · rw [hbefore z hz]
      exact hl z hz
    · rw [hch]
      exact ⟨Nat.add_pos_left hh.1 _, Nat.dvd_add hh.2 hy.2⟩
    · rw [hafter z hz]
      split <;> exact hm z hz
  have hptr : ∀ z, ((s.merged r h y).chunk z).ptr = (s.chunk z).ptr := by
    intro z
    rw [hchunk]
    split
    · next he => rw [he]
    · split <;> rfl
  have hd : 256 ∣ (s.chunk y).ptr - r.ptr := dvd_start_sub ht.linked ht.size_dvd (by simp)
  have hlow := (ht.mem_range (h := y) (by simp)).1
  have hyout : y ∉ l ++ h :: m := by simp [hyl, hhy.symm, hym]
  have htiled : (s.merged r h y).Tiled (r.write (((s.chunk y).ptr - r.ptr) / 256) none)
      (l ++ h :: m) := by
    have hsub : (l ++ h :: m).Sublist (l ++ h :: y :: m) :=
      ((sublist_cons_self y m).cons_cons h).append_left l
    refine ht.write hlinked htotal hsizes hlow hd (fun z => iff_of_false nofun ?_) fun z q hq => ?_
    · rintro ⟨hz, he⟩
      rw [hptr] at he
      exact hyout (ht.eq_of_ptr (hsub.subset hz) (by simp) he ▸ hz)
    · rw [hptr]
      by_cases hzy : z = y
      · subst hzy
        exact iff_of_false (fun hmem => hyout hmem.1) fun hmem => hq hmem.2.symm
      · simp [hzy]
  refine hl.replace hr ?_ ?_ ?_ htiled ?_ ?_ ?_
  · rfl
  · exact onlyChunks_linkMerged.freeChunksList
  · exact onlyChunks_linkMerged.length
  · intro z hz _
    rw [hc] at hz
    refine congrArg Chunk.block ?_
    rw [hchunk, if_neg fun he => hz (by simp [he]), if_neg fun he => hz (by simp [ht'.next_mem he])]
  · rw [hc]
    simp only [mem_append, mem_cons, Option.some.injEq]
    tauto
  · rintro z ⟨⟩
    exact hyout

/-! ## New regions -/

/-- The state after a region has been added as one chunk. -/
def withRegion (s : BFCAllocator) (n : ChunkHandle) (p bytes : Nat) : BFCAllocator :=
  { s.modifyChunk n fun c =>
      { c with ptr := p, size := bytes, allocationId := -1, prev := none, next := none } with
    regionManager := RegionManager.writeAt
      (RegionManager.addAllocationRegion p bytes s.regionManager) p 0 (some n) }

variable {p bytes : Nat}

theorem chunk_withRegion (hn : n < s.chunks.length) :
    (s.withRegion n p bytes).chunk x = if x = n then
      { s.chunk n with ptr := p, size := bytes, allocationId := -1, prev := none, next := none }
      else s.chunk x :=
  chunk_modifyChunk hn

/-- The new chunk tiles the new region. -/
theorem tiled_withRegion (hn : n < s.chunks.length)
    (hs : (AllocationRegion.create p bytes).Sized) :
    (s.withRegion n p bytes).Tiled ((AllocationRegion.create p bytes).write 0 (some n)) [n] := by
  have hpos : 0 < bytes := hs.pos
  have hcn : (s.withRegion n p bytes).chunk n = _ := (chunk_withRegion hn).trans (if_pos rfl)
  refine ⟨⟨?_, ?_, ?_, trivial⟩, ?_, ?_, ?_, fun i hi x => ?_⟩
  · rw [block, hcn]
    rfl
  · rw [block, hcn]
    rfl
  · rw [block, hcn]
    rfl
  · rw [total_cons, block, hcn]
    rfl
  · intro x hx
    rw [mem_singleton.mp hx, hcn]
    exact hpos
  · intro x hx
    rw [mem_singleton.mp hx, hcn]
    exact hs.dvd
  · have hentry : ((AllocationRegion.create p bytes).write 0 (some n)).handles i =
        if i = 0 then some n else none := rfl
    rw [hentry, mem_singleton, write_ptr, AllocationRegion.create]
    constructor
    · intro he
      split at he
      · next hi =>
        cases he
        rw [hcn, hi]
        exact ⟨rfl, rfl⟩
      · cases he
    · rintro ⟨rfl, he⟩
      rw [hcn] at he
      dsimp only at he
      rw [if_pos (by omega)]

section

variable (hl : s.Layout chain free spare) (hf : RegionManager.Fresh s.regionManager p bytes)
  (hs : (AllocationRegion.create p bytes).Sized)
include hl hf hs

/-- No region starts where fresh memory starts. -/
theorem Layout.ptr_ne_of_fresh (hr : r ∈ s.regionManager) : r.ptr ≠ p := by
  have hpos : 0 < bytes := hs.pos
  have hrpos := (hl.sized r hr).pos
  have hfr := hf r hr
  rw [endPtr] at hfr
  omega

/-- The regions with a new one. -/
theorem Layout.mem_withRegion : r ∈ (s.withRegion n p bytes).regionManager ↔
    r = (AllocationRegion.create p bytes).write 0 (some n) ∨ r ∈ s.regionManager := by
  refine RegionManager.mem_writeAt.trans ⟨?_, ?_⟩
  · rintro ⟨y, hy, rfl⟩
    rcases RegionManager.mem_addAllocationRegion.mp hy with rfl | hy
    · exact .inl (if_pos rfl)
    · rw [if_neg (hl.ptr_ne_of_fresh hf hs hy)]
      exact .inr hy
  · rintro (rfl | hr)
    · exact ⟨_, RegionManager.mem_addAllocationRegion.mpr (.inl rfl), if_pos rfl⟩
    · exact ⟨r, RegionManager.mem_addAllocationRegion.mpr (.inr hr),
        if_neg (hl.ptr_ne_of_fresh hf hs hr)⟩

/-- The chunk of the new region becomes live. -/
theorem Layout.live_withRegion :
    (s.withRegion n p bytes).Live (Function.update chain p [n]) x ↔ x = n ∨ s.Live chain x := by
  simp only [Live, hl.mem_withRegion hf hs, or_and_right, exists_or, exists_eq_left, write_ptr]
  refine or_congr ?_ (exists_congr fun r => and_congr_right fun hr => ?_)
  · rw [AllocationRegion.create, Function.update_self, mem_singleton]
  · rw [Function.update_of_ne (hl.ptr_ne_of_fresh hf hs hr)]

end

/-- A new region is tiled by the spare handle. -/
theorem Layout.withRegion (hl : s.Layout chain free (some n))
    (hf : RegionManager.Fresh s.regionManager p bytes)
    (hs : (AllocationRegion.create p bytes).Sized) :
    (s.withRegion n p bytes).Layout (Function.update chain p [n]) free none := by
  obtain ⟨hnot, hdead⟩ := hl.spare_dead n rfl
  have hn : n < s.chunks.length := (hl.valid n).mpr (.inl rfl)
  have hold : ∀ x, x ≠ n → (s.withRegion n p bytes).chunk x = s.chunk x := fun x hx =>
    (chunk_withRegion hn).trans (if_neg hx)
  refine ⟨?_, ?_, ?_, ?_, hl.nodup, ?_, ?_, by simp⟩
  · exact (hl.ordered.addAllocationRegion hl.sized hf).writeAt
  · intro x hx
    rcases (hl.mem_withRegion hf hs).mp hx with rfl | hx
    · exact hs.write
    · exact hl.sized x hx
  · intro x hx
    rcases (hl.mem_withRegion hf hs).mp hx with rfl | hmem
    · rw [write_ptr, AllocationRegion.create, Function.update_self]
      exact tiled_withRegion hn hs
    · rw [Function.update_of_ne (hl.ptr_ne_of_fresh hf hs hmem)]
      refine (hl.tiled x hmem).congr fun y hy => congrArg Chunk.block (hold y ?_)
      rintro rfl
      exact hdead ⟨x, hmem, hy⟩
  · refine hl.listed.congr fun y hy => congrArg Chunk.next (hold y ?_)
    rintro rfl
    exact hnot hy
  · intro y
    have hlen : (s.withRegion n p bytes).chunks.length = s.chunks.length := length_modifyChunk
    rw [hlen, hl.valid, hl.live_withRegion hf hs]
    simp only [Option.some.injEq, reduceCtorEq, false_or, eq_comm]
    exact or_left_comm
  · intro y hy hlive
    rcases (hl.live_withRegion hf hs).mp hlive with rfl | hlive
    · exact hnot hy
    · exact hl.free_dead y hy hlive

end BFCAllocator

end Tension.Bfc
