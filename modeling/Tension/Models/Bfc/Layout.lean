import Mathlib.Algebra.Order.Group.Nat
import Tension.Core.LinkedBlocks
import Tension.Models.Bfc.Allocator

/-!
# The layout of the heap

Every region is a chain of chunks that lie one after another, its table finds them by their
addresses, and the handles of no chain are listed as free. An index into the table is an
`int`, so that this needs regions of at most `2 ^ 39` bytes.
-/

namespace Tension.Bfc

open Block List Function

/-! ## Arithmetic -/

theorem kMinAllocationSize_eq : kMinAllocationSize = 256 := rfl

theorem subSizeT_of_le {a b : Nat} (h : b ≤ a) (hlt : a - b < 2 ^ 64) : subSizeT a b = a - b := by
  rw [subSizeT, show a + 2 ^ 64 - b = a - b + 2 ^ 64 by omega, Nat.add_mod_right,
    Nat.mod_eq_of_lt hlt]

theorem toSizeT_of_lt {n : Nat} (h : n < 2 ^ 64) : toSizeT n = n := Nat.mod_eq_of_lt h

theorem shiftRight_kMinAllocationBits (n : Nat) : n >>> kMinAllocationBits = n / 256 :=
  Nat.shiftRight_eq_div_pow n 8

/-! ## Regions -/

namespace AllocationRegion

/-- The table of the region has an entry for every unit, and an `int` can count them. -/
structure Sized (r : AllocationRegion) : Prop where
  pos : 0 < r.memorySize
  dvd : 256 ∣ r.memorySize
  le : r.memorySize ≤ 2 ^ 39

variable {r : AllocationRegion} {p i : Nat} {v : Option ChunkHandle}

theorem Sized.numHandles_eq (h : r.Sized) : r.numHandles = r.memorySize / 256 := by
  have hle := h.le
  have hdvd := h.dvd
  rw [numHandles, kMinAllocationSize_eq, toSizeT_of_lt (by omega)]
  omega

/-- Addresses of the region have an entry. -/
theorem Sized.slotFor_eq (h : r.Sized) (hlow : r.ptr ≤ p) (hhigh : p < r.endPtr) :
    r.slotFor p = some ((p - r.ptr) / 256) := by
  have hle := h.le
  have hdvd := h.dvd
  rw [endPtr] at hhigh
  have hindex : r.indexFor p = (((p - r.ptr) / 256 : Nat) : Int) := by
    rw [indexFor, subSizeT_of_le hlow (by omega), shiftRight_kMinAllocationBits]
    exact Int.bmod_eq_of_le (by omega) (by omega)
  rw [slotFor, hindex, h.numHandles_eq, if_pos ⟨Int.natCast_nonneg _, by omega⟩, Int.toNat_natCast]

@[simp] theorem write_ptr : (r.write i v).ptr = r.ptr := rfl

theorem Sized.write (h : r.Sized) : (r.write i v).Sized := ⟨h.pos, h.dvd, h.le⟩

end AllocationRegion

namespace RegionManager

/-- The regions lie one after another. -/
def Ordered (regions : RegionManager) : Prop := regions.Pairwise fun r r' => r.endPtr ≤ r'.ptr

/-- Write an entry of the table of the region at `base`. -/
def writeAt (regions : RegionManager) (base i : Nat) (v : Option ChunkHandle) : RegionManager :=
  regions.map fun x => if x.ptr = base then x.write i v else x

variable {regions : RegionManager} {r r' : AllocationRegion} {p i : Nat} {v : Option ChunkHandle}

section

variable (h : Ordered regions)
include h

/-- An address lies in one region. -/
theorem Ordered.eq_of_mem (hr : r ∈ regions) (hr' : r' ∈ regions) (hlow : r.ptr ≤ p)
    (hhigh : p < r.endPtr) (hlow' : r'.ptr ≤ p) (hhigh' : p < r'.endPtr) : r = r' := by
  have hpair : regions.Pairwise fun x y => x.ptr ≤ p → p < x.endPtr → y.ptr ≤ p →
      p < y.endPtr → x = y := by
    refine List.Pairwise.imp ?_ h
    omega
  have hflip : regions.Pairwise (flip fun x y => x.ptr ≤ p → p < x.endPtr → y.ptr ≤ p →
      p < y.endPtr → x = y) := by
    refine hpair.imp ?_
    exact fun hxy h1 h2 h3 h4 => (hxy h3 h4 h1 h2).symm
  exact hpair.forall_of_forall_of_flip (fun _ _ _ _ _ _ => rfl) hflip hr hr' hlow hhigh hlow' hhigh'

/-- The bases tell the regions apart. -/
theorem Ordered.eq_of_ptr (hs : ∀ r ∈ regions, r.Sized) (hr : r ∈ regions) (hr' : r' ∈ regions)
    (he : r.ptr = r'.ptr) : r = r' := by
  have hpos := (hs r hr).pos
  have hpos' := (hs r' hr').pos
  refine h.eq_of_mem hr hr' le_rfl ?_ he.ge ?_
  · rw [AllocationRegion.endPtr]
    omega
  · rw [AllocationRegion.endPtr]
    omega

/-- The region with the address is found. -/
theorem Ordered.getHandle_eq (hr : r ∈ regions) (hlow : r.ptr ≤ p) (hhigh : p < r.endPtr) :
    getHandle p regions = r.getHandle p := by
  induction regions with
  | nil => cases hr
  | cons x regions ih =>
    obtain ⟨hx, h⟩ := pairwise_cons.mp h
    rw [getHandle]
    rcases mem_cons.mp hr with rfl | hr
    · rw [if_pos hhigh]
    · have hle := hx r hr
      rw [if_neg (by omega), ih h hr]

end

theorem writeAt_of_forall_ne {base : Nat} (h : ∀ x ∈ regions, x.ptr ≠ base) :
    writeAt regions base i v = regions := by
  refine (map_congr_left fun x hx => ?_).trans (map_id regions)
  exact if_neg (h x hx)

/-- The table of the region with the address is changed. -/
theorem Ordered.setHandle_eq (h : Ordered regions) (hs : ∀ r ∈ regions, r.Sized)
    (hr : r ∈ regions) (hlow : r.ptr ≤ p) (hhigh : p < r.endPtr) :
    setHandle p v regions = some (writeAt regions r.ptr ((p - r.ptr) / 256) v) := by
  induction regions with
  | nil => cases hr
  | cons x regions ih =>
    obtain ⟨hx, h⟩ := pairwise_cons.mp h
    obtain ⟨hsx, hs⟩ := forall_mem_cons.mp hs
    rw [setHandle, writeAt, map_cons]
    rcases mem_cons.mp hr with rfl | hr
    · have hne : ∀ y ∈ regions, y.ptr ≠ r.ptr := by
        intro y hy
        have hle := hx y hy
        omega
      rw [if_pos hhigh, if_pos rfl, AllocationRegion.setHandle, hsx.slotFor_eq hlow hhigh]
      exact congrArg (fun l => some (r.write _ v :: l)) (writeAt_of_forall_ne hne).symm
    · have hle := hx r hr
      have hpos := hsx.pos
      have hne : x.ptr ≠ r.ptr := by
        rw [AllocationRegion.endPtr] at hle
        omega
      rw [if_neg (by omega), if_neg hne, ih h hs hr]
      rfl

theorem mem_writeAt {base : Nat} {x : AllocationRegion} : x ∈ writeAt regions base i v ↔
    ∃ y ∈ regions, (if y.ptr = base then y.write i v else y) = x :=
  mem_map

theorem Ordered.writeAt {base : Nat} (h : Ordered regions) :
    Ordered (writeAt regions base i v) := by
  refine pairwise_map.mpr (List.Pairwise.imp ?_ h)
  intro x y hle
  split <;> split <;> exact hle

section NewRegion

variable {x : AllocationRegion} {bytes : Nat}

theorem mem_addAllocationRegion : x ∈ addAllocationRegion p bytes regions ↔
    x = .create p bytes ∨ x ∈ regions := by
  induction regions with
  | nil => simp [addAllocationRegion]
  | cons r regions ih =>
    rw [addAllocationRegion]
    split
    · exact mem_cons
    · rw [mem_cons, ih, mem_cons]
      exact or_left_comm

/-- The memory meets no region. -/
def Fresh (regions : RegionManager) (p bytes : Nat) : Prop :=
  ∀ r ∈ regions, r.endPtr ≤ p ∨ p + bytes ≤ r.ptr

/-- A new region is put at its place. -/
theorem Ordered.addAllocationRegion (h : Ordered regions) (hs : ∀ r ∈ regions, r.Sized)
    (hf : Fresh regions p bytes) : Ordered (addAllocationRegion p bytes regions) := by
  induction regions with
  | nil => exact pairwise_singleton _ _
  | cons r regions ih =>
    obtain ⟨hr, h'⟩ := pairwise_cons.mp h
    obtain ⟨hsr, hs⟩ := forall_mem_cons.mp hs
    obtain ⟨hfr, hf'⟩ := forall_mem_cons.mp hf
    rw [RegionManager.addAllocationRegion]
    split
    · refine List.Pairwise.cons (fun x hx => ?_) h
      have hle : p + bytes ≤ r.ptr := hfr.resolve_left (by omega)
      rcases mem_cons.mp hx with rfl | hx
      · exact hle
      · have hrx := hr x hx
        rw [AllocationRegion.endPtr] at hrx
        exact hle.trans (by omega)
    · next hlt =>
      refine List.Pairwise.cons (fun x hx => ?_) (ih h' hs hf')
      rcases mem_addAllocationRegion.mp hx with rfl | hx
      · exact not_lt.mp hlt
      · exact hr x hx

end NewRegion

end RegionManager

/-! ## Chunks -/

/-- What the chains read of a chunk. -/
def Chunk.block (c : Chunk) : Block ChunkHandle := ⟨c.ptr, c.size, c.prev, c.next⟩

namespace BFCAllocator

variable {s s' : BFCAllocator} {h x : ChunkHandle} {f : Chunk → Chunk}

/-- The block of a handle. -/
def block (s : BFCAllocator) (h : ChunkHandle) : Block ChunkHandle := (s.chunk h).block

theorem chunkFromHandle_eq (hh : h < s.chunks.length) : s.chunkFromHandle h = some (s.chunk h) := by
  rw [chunkFromHandle, chunk, getElem?_eq_getElem hh]
  rfl

@[simp] theorem length_modifyChunk : (s.modifyChunk h f).chunks.length = s.chunks.length :=
  length_modify ..

theorem chunk_modifyChunk (hh : h < s.chunks.length) :
    (s.modifyChunk h f).chunk x = if x = h then f (s.chunk h) else s.chunk x := by
  rw [chunk, modifyChunk, getElem?_modify]
  by_cases hx : x = h
  · subst hx
    rw [chunk, getElem?_eq_getElem hh]
    simp
  · rw [if_neg hx, chunk]
    simp [Ne.symm hx]

/-- What an update of chunks keeps is kept everywhere. -/
theorem chunk_modifyChunk_congr {β : Type} (g : Chunk → β) (hg : ∀ c, g (f c) = g c) :
    g ((s.modifyChunk h f).chunk x) = g (s.chunk x) := by
  rw [chunk, modifyChunk, getElem?_modify, chunk]
  cases s.chunks[x]? with
  | none => rfl
  | some c =>
    by_cases hx : h = x
    · simp [hx, hg]
    · simp [hx]

/-- Nothing but the chunks differs. -/
structure OnlyChunks (s s' : BFCAllocator) : Prop where
  regionManager : s'.regionManager = s.regionManager
  freeChunksList : s'.freeChunksList = s.freeChunksList
  bins : s'.bins = s.bins
  nextAllocationId : s'.nextAllocationId = s.nextAllocationId
  length : s'.chunks.length = s.chunks.length

theorem OnlyChunks.setPrev (ho : OnlyChunks s s') (n : Option ChunkHandle) :
    OnlyChunks s (s'.setPrev n h) := by
  cases n with
  | none => exact ho
  | some n => exact ⟨ho.1, ho.2, ho.3, ho.4, length_modifyChunk.trans ho.length⟩

theorem chunk_setPrev {n : Option ChunkHandle} (hn : ∀ k, n = some k → k < s.chunks.length) :
    (s.setPrev n h).chunk x =
      if n = some x then { s.chunk x with prev := some h } else s.chunk x := by
  cases n with
  | none => rfl
  | some k =>
    rw [setPrev, chunk_modifyChunk (hn k rfl)]
    by_cases hx : x = k
    · rw [if_pos hx, if_pos (by rw [hx]), hx]
    · rw [if_neg hx, if_neg fun he => hx (Option.some.inj he).symm]

/-! ## Tilings -/

/-- The chunks of the list tile a region, and its table finds exactly these. -/
structure Tiled (s : BFCAllocator) (r : AllocationRegion) (l : List ChunkHandle) : Prop where
  linked : Linked s.block none r.ptr l none
  total_eq : total s.block l = r.memorySize
  size_pos : ∀ h ∈ l, 0 < (s.chunk h).size
  size_dvd : ∀ h ∈ l, 256 ∣ (s.chunk h).size
  table : ∀ i < r.numHandles, ∀ h,
    r.handles i = some h ↔ h ∈ l ∧ (s.chunk h).ptr = r.ptr + 256 * i

variable {r : AllocationRegion} {l : List ChunkHandle}

section

variable (ht : s.Tiled r l)
include ht

theorem Tiled.congr (hb : ∀ h ∈ l, s'.block h = s.block h) : s'.Tiled r l := by
  have hsize : ∀ h ∈ l, (s'.chunk h).size = (s.chunk h).size := fun h hh =>
    congrArg Block.size (hb h hh)
  refine ⟨ht.linked.congr hb, ?_, ?_, ?_, ?_⟩
  · exact (total_congr hsize).trans ht.total_eq
  · intro h hh
    rw [hsize h hh]
    exact ht.size_pos h hh
  · intro h hh
    rw [hsize h hh]
    exact ht.size_dvd h hh
  · intro i hi h
    rw [ht.table i hi h]
    refine and_congr_right fun hh => ?_
    rw [show (s'.chunk h).ptr = (s.chunk h).ptr from congrArg Block.start (hb h hh)]

theorem Tiled.nodup : l.Nodup := ht.linked.nodup ht.size_pos

/-- A chunk lies in its region. -/
theorem Tiled.mem_range (hh : h ∈ l) : r.ptr ≤ (s.chunk h).ptr ∧ (s.chunk h).ptr < r.endPtr ∧
      (s.chunk h).ptr + (s.chunk h).size ≤ r.endPtr := by
  have hrange := ht.linked.mem_range hh
  rw [ht.total_eq] at hrange
  have hpos := ht.size_pos h hh
  exact ⟨hrange.1, lt_of_lt_of_le (Nat.lt_add_of_pos_right hpos) hrange.2, hrange.2⟩

theorem Tiled.eq_of_ptr (hh : h ∈ l) (hx : x ∈ l) (he : (s.chunk h).ptr = (s.chunk x).ptr) :
    h = x :=
  ht.linked.eq_of_start ht.size_pos hh hx he

end

/-- The distances of the chunks are multiples of the unit. -/
theorem dvd_start_sub {block : ChunkHandle → Block ChunkHandle} {p q : Option ChunkHandle}
    {a : Nat} (hl : Linked block p a l q) (hd : ∀ h ∈ l, 256 ∣ (block h).size) (hh : h ∈ l) :
    256 ∣ (block h).start - a := by
  induction l generalizing p a with
  | nil => cases hh
  | cons y l ih =>
    obtain ⟨hstart, -, -, hl⟩ := hl
    rcases mem_cons.mp hh with rfl | hh
    · simp [hstart]
    · have hrest := ih hl (fun z hz => hd z (mem_cons_of_mem y hz)) hh
      have hsize := hd y mem_cons_self
      have hlow := (hl.mem_range hh).1
      omega

section

variable (ht : s.Tiled r l) (hr : r.Sized)
include ht hr

/-- A chunk is found in the table. -/
theorem Tiled.handles_eq (hh : h ∈ l) : r.handles (((s.chunk h).ptr - r.ptr) / 256) = some h := by
  obtain ⟨hlow, hhigh, -⟩ := ht.mem_range hh
  have hdvd : 256 ∣ (s.chunk h).ptr - r.ptr := dvd_start_sub ht.linked ht.size_dvd hh
  have hrdvd := hr.dvd
  rw [AllocationRegion.endPtr] at hhigh
  refine (ht.table _ ?_ h).mpr ⟨hh, ?_⟩
  · rw [hr.numHandles_eq]
    omega
  · omega

theorem Tiled.ne_nil : l ≠ [] := by
  rintro rfl
  have hpos := hr.pos
  rw [← ht.total_eq] at hpos
  exact lt_irrefl 0 hpos

/-- The entry of the base is the first chunk. -/
theorem Tiled.handles_zero : r.handles 0 = l.head? := by
  cases l with
  | nil => exact absurd rfl (ht.ne_nil hr)
  | cons y l =>
    have hentry := ht.handles_eq hr mem_cons_self
    have hstart : (s.chunk y).ptr = r.ptr := ht.linked.1
    rwa [hstart, tsub_self] at hentry

end

/-! ## Layouts -/

/-- The handle is a chunk of some region. -/
def Live (s : BFCAllocator) (chain : Nat → List ChunkHandle) (h : ChunkHandle) : Prop :=
  ∃ r ∈ s.regionManager, h ∈ chain r.ptr

/-- `chain` gives the chunks of the region at an address, `free` are the handles that are
listed as free, and one more handle may be spare. -/
structure Layout (s : BFCAllocator) (chain : Nat → List ChunkHandle) (free : List ChunkHandle)
    (spare : Option ChunkHandle) : Prop where
  ordered : RegionManager.Ordered s.regionManager
  sized : ∀ r ∈ s.regionManager, r.Sized
  tiled : ∀ r ∈ s.regionManager, s.Tiled r (chain r.ptr)
  listed : Listed (fun h => (s.chunk h).next) s.freeChunksList free
  nodup : free.Nodup
  valid : ∀ h, h < s.chunks.length ↔ spare = some h ∨ h ∈ free ∨ s.Live chain h
  free_dead : ∀ h ∈ free, ¬ s.Live chain h
  spare_dead : ∀ h, spare = some h → h ∉ free ∧ ¬ s.Live chain h

variable {chain : Nat → List ChunkHandle} {free : List ChunkHandle}
  {spare spare' : Option ChunkHandle}

variable (hl : s.Layout chain free spare)
include hl

theorem Layout.lt_of_live (hh : s.Live chain h) : h < s.chunks.length :=
  (hl.valid h).mpr (.inr (.inr hh))

/-- A chunk belongs to one region. -/
theorem Layout.eq_of_mem {r r' : AllocationRegion} (hr : r ∈ s.regionManager)
    (hr' : r' ∈ s.regionManager) (hh : h ∈ chain r.ptr) (hh' : h ∈ chain r'.ptr) : r = r' := by
  obtain ⟨hlow, hhigh, -⟩ := (hl.tiled r hr).mem_range hh
  obtain ⟨hlow', hhigh', -⟩ := (hl.tiled r' hr').mem_range hh'
  exact hl.ordered.eq_of_mem hr hr' hlow hhigh hlow' hhigh'

/-- Chunks that start at one address are the same. -/
theorem Layout.eq_of_ptr (hh : s.Live chain h) (hx : s.Live chain x)
    (he : (s.chunk h).ptr = (s.chunk x).ptr) : h = x := by
  obtain ⟨r, hr, hh⟩ := hh
  obtain ⟨r', hr', hx⟩ := hx
  obtain ⟨hlow, hhigh, -⟩ := (hl.tiled r hr).mem_range hh
  obtain ⟨hlow', hhigh', -⟩ := (hl.tiled r' hr').mem_range hx
  rw [← he] at hlow' hhigh'
  obtain rfl := hl.ordered.eq_of_mem hr hr' hlow hhigh hlow' hhigh'
  exact (hl.tiled r hr).eq_of_ptr hh hx he

/-- A layout reads the blocks, the regions and the list of free handles. -/
theorem Layout.congr (hregions : s'.regionManager = s.regionManager)
    (hlist : s'.freeChunksList = s.freeChunksList) (hlen : s'.chunks.length = s.chunks.length)
    (hb : ∀ h, s'.block h = s.block h) : s'.Layout chain free spare := by
  have hlive : ∀ h, s'.Live chain h ↔ s.Live chain h := fun h => by rw [Live, Live, hregions]
  refine ⟨?_, ?_, ?_, ?_, hl.nodup, ?_, ?_, ?_⟩
  · rw [hregions]
    exact hl.ordered
  · rw [hregions]
    exact hl.sized
  · rw [hregions]
    exact fun r hr => (hl.tiled r hr).congr fun h _ => hb h
  · rw [hlist]
    exact hl.listed.congr fun h _ => congrArg Block.next (hb h)
  · intro h
    rw [hlen, hlive, hl.valid]
  · intro h hh
    rw [hlive]
    exact hl.free_dead h hh
  · intro h hh
    rw [hlive]
    exact hl.spare_dead h hh

/-- The chain of one region changes, and with it an entry of its table. -/
theorem Layout.replace (hr : r ∈ s.regionManager) {i : Nat} {v : Option ChunkHandle}
    (hregions : s'.regionManager = RegionManager.writeAt s.regionManager r.ptr i v)
    (hlist : s'.freeChunksList = s.freeChunksList) (hlen : s'.chunks.length = s.chunks.length)
    (ht : s'.Tiled (r.write i v) l)
    (hb : ∀ h, h ∉ chain r.ptr → spare ≠ some h → s'.block h = s.block h)
    (hmem : ∀ h, (spare' = some h ∨ h ∈ l) ↔ (spare = some h ∨ h ∈ chain r.ptr))
    (hspare : ∀ h, spare' = some h → h ∉ l) :
    s'.Layout (Function.update chain r.ptr l) free spare' := by
  have hother : ∀ r' ∈ s.regionManager, r'.ptr ≠ r.ptr → ∀ h ∈ chain r'.ptr,
      h ∉ chain r.ptr ∧ spare ≠ some h := by
    intro r' hr' hne h hh
    constructor
    · exact fun hh' => hne (congrArg AllocationRegion.ptr (hl.eq_of_mem hr' hr hh hh'))
    · exact fun he => (hl.spare_dead h he).2 ⟨r', hr', hh⟩
  have hlive : ∀ h, s'.Live (update chain r.ptr l) h ↔
      h ∈ l ∨ ∃ r' ∈ s.regionManager, r'.ptr ≠ r.ptr ∧ h ∈ chain r'.ptr := by
    intro h
    rw [Live, hregions]
    constructor
    · rintro ⟨x, hx, hh⟩
      obtain ⟨r', hr', rfl⟩ := RegionManager.mem_writeAt.mp hx
      by_cases he : r'.ptr = r.ptr
      · rw [if_pos he, AllocationRegion.write_ptr, he, update_self] at hh
        exact .inl hh
      · rw [if_neg he, update_of_ne he] at hh
        exact .inr ⟨r', hr', he, hh⟩
    · rintro (hh | ⟨r', hr', hne, hh⟩)
      · refine ⟨r.write i v, RegionManager.mem_writeAt.mpr ⟨r, hr, if_pos rfl⟩, ?_⟩
        rwa [AllocationRegion.write_ptr, update_self]
      · refine ⟨r', RegionManager.mem_writeAt.mpr ⟨r', hr', if_neg hne⟩, ?_⟩
        rwa [update_of_ne hne]
  have hlive' : ∀ h, spare' = some h ∨ s'.Live (update chain r.ptr l) h ↔
      spare = some h ∨ s.Live chain h := by
    intro h
    rw [hlive, ← or_assoc, hmem, or_assoc]
    refine or_congr_right ⟨?_, ?_⟩
    · rintro (hh | ⟨r', hr', -, hh⟩)
      · exact ⟨r, hr, hh⟩
      · exact ⟨r', hr', hh⟩
    · rintro ⟨r', hr', hh⟩
      by_cases he : r'.ptr = r.ptr
      · exact .inl (he ▸ hh)
      · exact .inr ⟨r', hr', he, hh⟩
  have hdead : ∀ h ∈ free, ¬ (spare = some h ∨ s.Live chain h) := by
    rintro h hh (he | hlv)
    · exact (hl.spare_dead h he).1 hh
    · exact hl.free_dead h hh hlv
  refine ⟨?_, ?_, ?_, ?_, hl.nodup, ?_, ?_, ?_⟩
  · rw [hregions]
    exact hl.ordered.writeAt
  · intro x hx
    rw [hregions] at hx
    obtain ⟨r', hr', rfl⟩ := RegionManager.mem_writeAt.mp hx
    split
    · exact (hl.sized r' hr').write
    · exact hl.sized r' hr'
  · intro x hx
    rw [hregions] at hx
    obtain ⟨r', hr', rfl⟩ := RegionManager.mem_writeAt.mp hx
    by_cases he : r'.ptr = r.ptr
    · obtain rfl := hl.ordered.eq_of_ptr hl.sized hr' hr he
      rw [if_pos rfl, AllocationRegion.write_ptr, update_self]
      exact ht
    · rw [if_neg he, update_of_ne he]
      exact (hl.tiled r' hr').congr fun h hh => hb h (hother r' hr' he h hh).1
        (hother r' hr' he h hh).2
  · rw [hlist]
    refine hl.listed.congr fun h hh => ?_
    refine congrArg Block.next (hb h (fun hc => ?_) fun he => ?_)
    · exact hdead h hh (.inr ⟨r, hr, hc⟩)
    · exact hdead h hh (.inl he)
  · intro h
    rw [hlen, hl.valid, or_left_comm, ← hlive', or_left_comm]
  · exact fun h hh hlv => hdead h hh ((hlive' h).mp (.inr hlv))
  · intro h he
    refine ⟨fun hh => hdead h hh ((hlive' h).mp (.inl he)), fun hlv => ?_⟩
    rcases (hlive h).mp hlv with hh | ⟨r', hr', hne, hh⟩
    · exact hspare h he hh
    · rcases (hmem h).mp (.inl he) with he | hc
      · exact (hother r' hr' hne h hh).2 he
      · exact (hother r' hr' hne h hh).1 hc

end BFCAllocator

end Tension.Bfc
