import Mathlib
import Tension.Core.OrderedSet

/-!
# The best-fit allocator with coalescing

Memory comes in regions, each of them cut into chunks. The chunks of a region form a doubly
linked list, a table per region finds the chunk that starts at an address, and free chunks
are kept in bins by size. Addresses and sizes are numbers below `2 ^ 64`; a step whose
result is not defined (a failed check, an access outside an array) has no result, and
neither has a loop that does not end.
-/

namespace Tension.Bfc

/-- `ChunkHandle`; `kInvalidChunkHandle` is `none`. -/
abbrev ChunkHandle := Nat

/-- `kNumBins`. -/
def kNumBins : Nat := 21

/-- `kMinAllocationBits`. -/
def kMinAllocationBits : Nat := 8

/-- `kMinAllocationSize`. -/
def kMinAllocationSize : Nat := 1 <<< kMinAllocationBits

/-- `kMaxInternalFragmentation`. -/
def kMaxInternalFragmentation : Nat := 128 <<< 20

/-- Arithmetic on `size_t`. -/
def toSizeT (n : Nat) : Nat := n % 2 ^ 64

/-- Subtraction on `size_t`. -/
def subSizeT (a b : Nat) : Nat := (a + 2 ^ 64 - b) % 2 ^ 64

/-- Conversion of a `size_t` to `int`. -/
def toInt (n : Nat) : Int := Int.bmod n (2 ^ 32)

/-- `RoundedBytes`. -/
def roundedBytes (bytes : Nat) : Nat :=
  kMinAllocationSize * (toSizeT (bytes + kMinAllocationSize - 1) / kMinAllocationSize)

/-- `Log2FloorNonZero`. -/
def log2FloorNonZero (n : Nat) : Nat := Nat.log2 n

/-- `BinNumForSize`. -/
def binNumForSize (bytes : Nat) : Nat :=
  min (kNumBins - 1) (log2FloorNonZero (max bytes 256 >>> kMinAllocationBits))

/-! ## Chunks and regions -/

/-- `Chunk`; `kInvalidBinNum` is `none`. -/
structure Chunk where
  size : Nat := 0
  requestedSize : Nat := 0
  allocationId : Int := -1
  ptr : Nat := 0
  prev : Option ChunkHandle := none
  next : Option ChunkHandle := none
  binNum : Option Nat := none
  deriving DecidableEq, Repr

/-- `in_use`. -/
def Chunk.inUse (c : Chunk) : Bool := c.allocationId ≠ -1

/-- `AllocationRegion`. -/
structure AllocationRegion where
  ptr : Nat
  memorySize : Nat
  /-- The entries of `handles_`. -/
  handles : Nat → Option ChunkHandle

namespace AllocationRegion

/-- A region without chunks. -/
def create (ptr memorySize : Nat) : AllocationRegion := ⟨ptr, memorySize, fun _ => none⟩

variable (r : AllocationRegion)

/-- `end_ptr`. -/
def endPtr : Nat := r.ptr + r.memorySize

/-- The number of entries of `handles_`. -/
def numHandles : Nat :=
  toSizeT (r.memorySize + kMinAllocationSize - 1) / kMinAllocationSize

/-- `IndexFor`, which returns an `int`. -/
def indexFor (p : Nat) : Int :=
  toInt (subSizeT p r.ptr >>> kMinAllocationBits)

/-- The entry of an address if it lies in the table. -/
def slotFor (p : Nat) : Option Nat :=
  let i := r.indexFor p
  if 0 ≤ i ∧ i < r.numHandles then some i.toNat else none

/-- `get_handle`. -/
def getHandle (p : Nat) : Option (Option ChunkHandle) :=
  (r.slotFor p).map r.handles

/-- Write an entry of the table. -/
def write (i : Nat) (h : Option ChunkHandle) : AllocationRegion :=
  { r with handles := fun j => if j = i then h else r.handles j }

/-- `set_handle`. -/
def setHandle (p : Nat) (h : Option ChunkHandle) :
    Option AllocationRegion :=
  (r.slotFor p).map fun i => r.write i h

end AllocationRegion

/-- `RegionManager`: the regions in the order of their addresses. -/
abbrev RegionManager := List AllocationRegion

namespace RegionManager

/-- `AddAllocationRegion`. -/
def addAllocationRegion (ptr memorySize : Nat) : RegionManager → RegionManager
  | [] => [.create ptr memorySize]
  | r :: rs =>
    if ptr < r.endPtr then .create ptr memorySize :: r :: rs
    else r :: addAllocationRegion ptr memorySize rs

/-- `get_handle` of the region with the address. -/
def getHandle (p : Nat) : RegionManager → Option (Option ChunkHandle)
  | [] => none
  | r :: rs => if p < r.endPtr then r.getHandle p else getHandle p rs

/-- `set_handle` of the region with the address. -/
def setHandle (p : Nat) (h : Option ChunkHandle) : RegionManager → Option RegionManager
  | [] => none
  | r :: rs =>
    if p < r.endPtr then (r.setHandle p h).map (· :: rs)
    else (setHandle p h rs).map (r :: ·)

end RegionManager

/-- `AllocatorStats`. -/
structure AllocatorStats where
  numAllocs : Int := 0
  bytesInUse : Int := 0
  maxBytesInUse : Int := 0
  maxAllocSize : Int := 0
  bytesLimit : Int := 0
  deriving DecidableEq, Repr

/-- `BFCAllocator`. -/
structure BFCAllocator where
  memoryLimit : Nat
  currRegionAllocationBytes : Nat
  totalRegionAllocatedBytes : Nat
  startedBackpedal : Bool
  regionManager : RegionManager
  chunks : List Chunk
  freeChunksList : Option ChunkHandle
  nextAllocationId : Int
  /-- The free chunks of every bin, in the order of `ChunkComparator`. -/
  bins : Nat → List ChunkHandle
  stats : AllocatorStats

namespace BFCAllocator

/-- The constructor. -/
def create (totalMemory : Nat) (allowGrowth : Bool) : BFCAllocator where
  memoryLimit := totalMemory
  currRegionAllocationBytes :=
    if allowGrowth then roundedBytes (min totalMemory 1048576) else roundedBytes totalMemory
  totalRegionAllocatedBytes := 0
  startedBackpedal := false
  regionManager := []
  chunks := []
  freeChunksList := none
  nextAllocationId := 1
  bins _ := []
  stats := { bytesLimit := totalMemory }

/-! ## Chunks -/

variable (s : BFCAllocator)

/-- `ChunkFromHandle`. -/
def chunkFromHandle (h : ChunkHandle) : Option Chunk := s.chunks[h]?

/-- The chunk of a handle that is valid. -/
def chunk (h : ChunkHandle) : Chunk := s.chunks[h]?.getD {}

/-- Assign to fields of a chunk. -/
def modifyChunk (h : ChunkHandle) (f : Chunk → Chunk) : BFCAllocator :=
  { s with chunks := s.chunks.modify h f }

/-- `AllocateChunk`. -/
def allocateChunk : Option (ChunkHandle × BFCAllocator) :=
  match s.freeChunksList with
  | some h => do
    let c ← s.chunkFromHandle h
    some (h, { s with freeChunksList := c.next })
  | none => some (s.chunks.length, { s with chunks := s.chunks ++ [{}] })

/-- `DeallocateChunk`. -/
def deallocateChunk (h : ChunkHandle) : BFCAllocator :=
  { s.modifyChunk h fun c => { c with next := s.freeChunksList } with freeChunksList := some h }

/-- `DeleteChunk`. -/
def deleteChunk (h : ChunkHandle) : Option BFCAllocator := do
  let c ← s.chunkFromHandle h
  let regions ← RegionManager.setHandle c.ptr none s.regionManager
  some ({ s with regionManager := regions }.deallocateChunk h)

/-! ## Bins -/

/-- `ChunkComparator`. -/
def chunkComparator (ha hb : ChunkHandle) : Bool :=
  if (s.chunk ha).size ≠ (s.chunk hb).size then (s.chunk ha).size < (s.chunk hb).size
  else (s.chunk ha).ptr < (s.chunk hb).ptr

/-- Replace the free chunks of a bin. -/
def setBin (b : Nat) (l : List ChunkHandle) : BFCAllocator :=
  { s with bins := fun i => if i = b then l else s.bins i }

/-- `InsertFreeChunkIntoBin`. -/
def insertFreeChunkIntoBin (h : ChunkHandle) : Option BFCAllocator := do
  let c ← s.chunkFromHandle h
  if !c.inUse && c.binNum.isNone then
    let b := binNumForSize c.size
    let s := s.modifyChunk h fun c => { c with binNum := some b }
    some (s.setBin b (OrderedSet.insert s.chunkComparator h (s.bins b)))
  else none

/-- `RemoveFreeChunkIterFromBin`. -/
def removeFreeChunkIterFromBin (b : Nat) (h : ChunkHandle) :
    Option BFCAllocator := do
  let c ← s.chunkFromHandle h
  if !c.inUse && c.binNum.isSome then
    let s := s.setBin b ((s.bins b).erase h)
    some (s.modifyChunk h fun c => { c with binNum := none })
  else none

/-- `RemoveFreeChunkFromBin`. -/
def removeFreeChunkFromBin (h : ChunkHandle) : Option BFCAllocator := do
  let c ← s.chunkFromHandle h
  if c.inUse then none else
  let b ← c.binNum
  if OrderedSet.contains s.chunkComparator h (s.bins b) then
    let s := s.setBin b (OrderedSet.erase s.chunkComparator h (s.bins b))
    some (s.modifyChunk h fun c => { c with binNum := none })
  else none

/-! ## Allocation -/

/-- Link a chunk that may not exist back to `h`. -/
def setPrev (neighbor : Option ChunkHandle) (h : ChunkHandle) :
    BFCAllocator :=
  match neighbor with
  | some n => s.modifyChunk n fun c => { c with prev := some h }
  | none => s

/-- The assignments of `SplitChunk`: the new chunk takes what `c`, the chunk of `h`, has after
its first `numBytes` bytes. -/
def linkNewChunk (h hNewChunk : ChunkHandle) (c : Chunk) (numBytes : Nat) :
    BFCAllocator :=
  let s := s.modifyChunk hNewChunk fun n =>
    { n with
      ptr := c.ptr + numBytes
      size := subSizeT c.size numBytes
      allocationId := -1
      prev := some h
      next := c.next }
  let s := s.modifyChunk h fun c => { c with size := numBytes, next := some hNewChunk }
  s.setPrev c.next hNewChunk

/-- `SplitChunk`. -/
def splitChunk (h : ChunkHandle) (numBytes : Nat) : Option BFCAllocator := do
  let (hNewChunk, s) ← s.allocateChunk
  let c ← s.chunkFromHandle h
  if !c.inUse && c.binNum.isNone then
    let regions ← RegionManager.setHandle (c.ptr + numBytes) (some hNewChunk) s.regionManager
    let s := { s with regionManager := regions }.linkNewChunk h hNewChunk c numBytes
    s.insertFreeChunkIntoBin hNewChunk
  else none

/-- The loops of `FindChunkPtr`: the bin and the first chunk that is large enough. -/
def findFit (binNum roundedBytes : Nat) : Option (Nat × ChunkHandle) :=
  (List.range' binNum (kNumBins - binNum)).findSome? fun b =>
    ((s.bins b).find? fun h => roundedBytes ≤ (s.chunk h).size).map fun h => (b, h)

/-- Whether `FindChunkPtr` splits a chunk of this size. -/
def splits (size roundedBytes : Nat) : Bool :=
  toSizeT (roundedBytes * 2) ≤ size || kMaxInternalFragmentation ≤ subSizeT size roundedBytes

/-- Hand a chunk out. -/
def markInUse (h : ChunkHandle) (numBytes : Nat) : BFCAllocator :=
  let size : Int := (s.chunk h).size
  let bytesInUse := s.stats.bytesInUse + size
  { s.modifyChunk h fun c =>
      { c with requestedSize := numBytes, allocationId := s.nextAllocationId } with
    nextAllocationId := s.nextAllocationId + 1
    stats := { s.stats with
      numAllocs := s.stats.numAllocs + 1
      bytesInUse := bytesInUse
      maxBytesInUse := max s.stats.maxBytesInUse bytesInUse
      maxAllocSize := max s.stats.maxAllocSize size } }

/-- `FindChunkPtr`; the null pointer is `none`. -/
def findChunkPtr (binNum roundedBytes numBytes : Nat) :
    Option (Option Nat × BFCAllocator) :=
  match s.findFit binNum roundedBytes with
  | none => some (none, s)
  | some (b, h) => do
    let s ← s.removeFreeChunkIterFromBin b h
    let s ← if splits (s.chunk h).size roundedBytes then s.splitChunk h roundedBytes else some s
    some (some (s.chunk h).ptr, s.markInUse h numBytes)

/-- The loop of `Extend` that doubles the size of the next region. Doubling 64 times gives
zero, so that the loop does not end if it takes longer. -/
def growRegion (roundedBytes : Nat) : Nat → Nat → Bool → Option (Nat × Bool)
  | 0, curr, increased => if curr < roundedBytes then none else some (curr, increased)
  | fuel + 1, curr, increased =>
    if curr < roundedBytes then growRegion roundedBytes fuel (toSizeT (curr * 2)) true
    else some (curr, increased)

/-- The loop of `Extend` that asks for less and less, with the answers of the
`SubAllocator`; `scale` multiplies by `kBackpedalFactor`. -/
def backpedal (scale : Nat → Nat) (roundedBytes : Nat) :
    List (Option Nat) → Nat → Option (Nat × Option Nat)
  | answers, bytes =>
    let bytes := Bfc.roundedBytes (scale bytes)
    if bytes < roundedBytes then some (bytes, none)
    else match answers with
      | [] => none
      | some memAddr :: _ => some (bytes, some memAddr)
      | none :: answers => backpedal scale roundedBytes answers bytes

/-- What `Extend` has after asking the `SubAllocator`. -/
structure Request where
  currRegionAllocationBytes : Nat
  increasedAllocation : Bool
  startedBackpedal : Bool
  bytes : Nat
  memAddr : Option Nat
  deriving DecidableEq, Repr

/-- The bytes that `Extend` may still ask for. -/
def availableBytes : Nat :=
  subSizeT s.memoryLimit s.totalRegionAllocatedBytes / kMinAllocationSize * kMinAllocationSize

/-- The part of `Extend` that asks the `SubAllocator`, with its answers in order. -/
def requestRegion (scale : Nat → Nat) (roundedBytes : Nat)
    (answers : List (Option Nat)) : Option Request := do
  let (curr, increased) ← growRegion roundedBytes 64 s.currRegionAllocationBytes false
  let bytes := min curr s.availableBytes
  match answers with
  | [] => none
  | some memAddr :: _ => some ⟨curr, increased, s.startedBackpedal, bytes, some memAddr⟩
  | none :: answers =>
    if s.startedBackpedal then some ⟨curr, increased, true, bytes, none⟩
    else
      let (bytes, memAddr) ← backpedal scale roundedBytes answers bytes
      some ⟨curr, increased, true, bytes, memAddr⟩

/-- The part of `Extend` that makes one chunk of a new region. -/
def addRegion (memAddr bytes : Nat) : Option BFCAllocator := do
  let s := { s with
    regionManager := RegionManager.addAllocationRegion memAddr bytes s.regionManager }
  let (h, s) ← s.allocateChunk
  let s := s.modifyChunk h fun c =>
    { c with ptr := memAddr, size := bytes, allocationId := -1, prev := none, next := none }
  let regions ← RegionManager.setHandle memAddr (some h) s.regionManager
  { s with regionManager := regions }.insertFreeChunkIntoBin h

/-- `Extend`. -/
def extend (scale : Nat → Nat) (roundedBytes : Nat)
    (answers : List (Option Nat)) : Option (Bool × BFCAllocator) :=
  if s.availableBytes < roundedBytes then some (false, s) else do
  let q ← s.requestRegion scale roundedBytes answers
  let s := { s with
    currRegionAllocationBytes := q.currRegionAllocationBytes
    startedBackpedal := q.startedBackpedal }
  match q.memAddr with
  | none => some (false, s)
  | some memAddr =>
    let s := { s with
      currRegionAllocationBytes := if q.increasedAllocation then s.currRegionAllocationBytes
        else toSizeT (s.currRegionAllocationBytes * 2)
      totalRegionAllocatedBytes := toSizeT (s.totalRegionAllocatedBytes + q.bytes) }
    (s.addRegion memAddr q.bytes).map fun s => (true, s)

/-- `AllocateRawInternal`. -/
def allocateRawInternal (scale : Nat → Nat) (numBytes : Nat)
    (answers : List (Option Nat)) : Option (Option Nat × BFCAllocator) :=
  if numBytes = 0 then some (none, s) else do
  let rounded := roundedBytes numBytes
  let binNum := binNumForSize rounded
  match ← s.findChunkPtr binNum rounded numBytes with
  | (some ptr, s) => some (some ptr, s)
  | (none, s) =>
    let (extended, s) ← s.extend scale rounded answers
    if extended then s.findChunkPtr binNum rounded numBytes else some (none, s)

/-! ## Deallocation -/

/-- The assignments of `Merge`: `h1` takes over `c2`, its next chunk. -/
def linkMerged (h1 : ChunkHandle) (c2 : Chunk) : BFCAllocator :=
  let s := s.modifyChunk h1 fun c =>
    { c with next := c2.next, size := toSizeT (c.size + c2.size) }
  s.setPrev c2.next h1

/-- `Merge`. -/
def merge (h1 h2 : ChunkHandle) : Option BFCAllocator := do
  let c1 ← s.chunkFromHandle h1
  let c2 ← s.chunkFromHandle h2
  if c1.inUse || c2.inUse || c2.prev ≠ some h1 then none else
  (s.linkMerged h1 c2).deleteChunk h2

/-- The part of `FreeAndMaybeCoalesce` that looks at the next chunk. -/
def coalesceNext (h : ChunkHandle) : Option BFCAllocator := do
  let c ← s.chunkFromHandle h
  match c.next with
  | none => some s
  | some n =>
    let cnext ← s.chunkFromHandle n
    if cnext.inUse then some s else
    let s ← s.removeFreeChunkFromBin n
    s.merge h n

/-- The part of `FreeAndMaybeCoalesce` that looks at the previous chunk, with the chunk that
remains. -/
def coalescePrev (h : ChunkHandle) : Option (ChunkHandle × BFCAllocator) := do
  let c ← s.chunkFromHandle h
  match c.prev with
  | none => some (h, s)
  | some p =>
    let cprev ← s.chunkFromHandle p
    if cprev.inUse then some (h, s) else
    let s ← s.removeFreeChunkFromBin p
    (s.merge p h).map fun s => (p, s)

/-- `FreeAndMaybeCoalesce`. -/
def freeAndMaybeCoalesce (h : ChunkHandle) : Option BFCAllocator := do
  let c ← s.chunkFromHandle h
  if !c.inUse || c.binNum.isSome then none else
  let s := s.modifyChunk h fun c => { c with allocationId := -1 }
  let s := { s with stats := { s.stats with bytesInUse := s.stats.bytesInUse - c.size } }
  let s ← s.coalesceNext h
  let (chunkToReassign, s) ← s.coalescePrev h
  s.insertFreeChunkIntoBin chunkToReassign

/-- `DeallocateRawInternal`; the null pointer is `none`. -/
def deallocateRawInternal : Option Nat → Option BFCAllocator
  | none => some s
  | some ptr => do
    let some h ← RegionManager.getHandle ptr s.regionManager | none
    s.freeAndMaybeCoalesce h

end BFCAllocator

end Tension.Bfc
