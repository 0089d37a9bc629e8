import Mathlib.Data.List.AList
import Mathlib.Data.List.Sort
import Tension.Core.FreeChunks
import Tension.Core.OrderedSet
import Tension.Core.Run

/-!
# The lazy best-fit heap

Buffers are assigned ranges of a simulated heap. A buffer that does not fit into a free chunk
gets its range only when it is freed. A heap for runs collects consecutive allocations, and
consecutive frees, and passes them on by decreasing size. Buffers are their identifiers. A
call in which a check fails does not return. Numbers are exact as long as sums are below
`2 ^ 63`.
-/

namespace Tension.HeapSimulator

open FreeChunks

/-- An entry of `chunk_map`. The offset of a lazily allocated buffer is missing. -/
structure Allocation where
  offset : Option Nat
  size : Nat
  deriving DecidableEq, Repr

/-- `RoundUpToNearest`. -/
def roundUpToNearest (value divisor : Nat) : Nat :=
  (value / divisor + if value / divisor * divisor < value then 1 else 0) * divisor

/-- `OrderChunkByIncreasingSize`. -/
def orderChunkByIncreasingSize (a b : Chunk) : Bool :=
  if a.size ≠ b.size then a.size < b.size else a.offset < b.offset

/-- `LazyBestFitHeap` with its result so far. -/
structure LazyBestFitHeap where
  chunkMap : AList fun _ : Nat => Allocation
  heapSize : Nat
  /-- The free chunks by increasing size. -/
  free : List Chunk

/-- A call of the algorithm. -/
inductive Op where
  | alloc (buffer size : Nat)
  | free (buffer size : Nat)
  deriving DecidableEq, Repr

namespace LazyBestFitHeap

/-- A heap without buffers. -/
def new : LazyBestFitHeap := ⟨∅, 0, []⟩

variable (s : LazyBestFitHeap)

/-- `chunk_map.emplace`, which keeps an entry that is there. -/
def emplace (buffer : Nat) (allocation : Allocation) : LazyBestFitHeap :=
  if buffer ∈ s.chunkMap then s else { s with chunkMap := s.chunkMap.insert buffer allocation }

/-- Buffers of size zero are allocated at offset zero. -/
def emplaceEmpty (buffer size : Nat) : LazyBestFitHeap :=
  if size = 0 then s.emplace buffer ⟨some 0, 0⟩ else s

/-- `AddFreeChunk`. -/
def addFreeChunk (offset size : Nat) : LazyBestFitHeap :=
  if size = 0 then s
  else
    let merged := coalesce s.free ⟨offset, size⟩
    { s with free := OrderedSet.insert orderChunkByIncreasingSize merged.1 merged.2 }

/-- A buffer of the given size fits into a chunk behind an aligned offset. -/
def fits (alignment size : Nat) (c : Chunk) : Bool :=
  roundUpToNearest c.offset alignment + size ≤ c.chunkEnd

/-- The first chunk that is large enough and that the buffer fits into. -/
def bestFit (alignment size : Nat) (free : List Chunk) : Option Chunk :=
  (free.dropWhile fun c => orderChunkByIncreasingSize c ⟨0, size⟩).find? (fits alignment size)

variable (alignment : Nat)

/-- The buffer is allocated out of a free chunk. -/
def allocFrom (s : LazyBestFitHeap) (buffer size : Nat) (best : Chunk) :
    LazyBestFitHeap :=
  let newOffset := roundUpToNearest best.offset alignment
  let newEnd := newOffset + size
  let s := { s with free := s.free.erase best }.emplace buffer ⟨some newOffset, size⟩
  (s.addFreeChunk best.offset (newOffset - best.offset)).addFreeChunk newEnd
    (best.chunkEnd - newEnd)

/-- The heap grows behind its last chunk, which is free. -/
def grow (s : LazyBestFitHeap) (buffer size : Nat) (last : Chunk) :
    Option LazyBestFitHeap :=
  let newOffset := roundUpToNearest last.offset alignment
  let newEnd := newOffset + size
  let s := { s with free := s.free.erase last }.emplace buffer ⟨some newOffset, size⟩
  let s := s.addFreeChunk last.offset (newOffset - last.offset)
  if s.heapSize < newEnd ∧ newEnd < s.heapSize + size then some { s with heapSize := newEnd }
  else none

/-- `Alloc`. Buffers of size zero go through the search as well. -/
def alloc (alignment : Nat) (s : LazyBestFitHeap) (buffer size : Nat) : Option LazyBestFitHeap :=
  let s := s.emplaceEmpty buffer size
  match bestFit alignment size s.free with
  | some best => some (s.allocFrom alignment buffer size best)
  | none =>
    match s.free.find? fun c => c.chunkEnd = s.heapSize with
    | some last =>
      if last.chunkEnd ≤ roundUpToNearest last.offset alignment then
        some (s.emplace buffer ⟨none, size⟩)
      else s.grow alignment buffer size last
    | none => some (s.emplace buffer ⟨none, size⟩)

/-- A lazily allocated buffer gets its range behind the heap, and the range is free. -/
def freeLazily (s : LazyBestFitHeap) (buffer size : Nat) :
    Option LazyBestFitHeap :=
  let offset := roundUpToNearest s.heapSize alignment
  let newEnd := offset + size
  let s := { s with chunkMap := s.chunkMap.insert buffer ⟨some offset, size⟩ }
  let s := s.addFreeChunk s.heapSize (newEnd - s.heapSize)
  if s.heapSize < newEnd ∧ s.heapSize + size ≤ newEnd then some { s with heapSize := newEnd }
  else none

/-- `Free`. -/
def dealloc (s : LazyBestFitHeap) (buffer size : Nat) :
    Option LazyBestFitHeap :=
  match s.chunkMap.lookup buffer with
  | none => none
  | some allocation =>
    if allocation.size ≠ size then none
    else
      match allocation.offset with
      | some offset => some (s.addFreeChunk offset allocation.size)
      | none => s.freeLazily alignment buffer allocation.size

/-- `Finish`. -/
def finish : Option LazyBestFitHeap :=
  match s.free with
  | [] => some s
  | [c] => if c.offset = 0 ∧ c.size = s.heapSize then some s else none
  | _ => none

/-- One call. -/
def step (s : LazyBestFitHeap) : Op → Option LazyBestFitHeap
  | .alloc buffer size => s.alloc alignment buffer size
  | .free buffer size => s.dealloc alignment buffer size

end LazyBestFitHeap

/-! ## Runs -/

/-- `DecreasingSizeRunsHeap::Op`. -/
structure RunOp where
  buffer : Nat
  size : Nat
  deriving DecidableEq, Repr

/-- `DecreasingSizeRunsHeap::Mode`. -/
inductive Mode where
  | init
  | alloc
  | free
  deriving DecidableEq, Repr

/-- The call that a collected operation stands for. -/
def RunOp.toOp (mode : Mode) (op : RunOp) : Op :=
  if mode = .alloc then .alloc op.buffer op.size else .free op.buffer op.size

/-- By decreasing size, and by the identifiers of the buffers. -/
def RunOp.le (a b : RunOp) : Prop := b.size < a.size ∨ a.size = b.size ∧ a.buffer ≤ b.buffer

instance : DecidableRel RunOp.le := fun a b =>
  inferInstanceAs (Decidable (b.size < a.size ∨ a.size = b.size ∧ a.buffer ≤ b.buffer))

/-- `DecreasingSizeRunsHeap` with its algorithm. -/
structure DecreasingSizeRunsHeap where
  algorithm : LazyBestFitHeap
  run : List RunOp
  mode : Mode

namespace DecreasingSizeRunsHeap

/-- A heap for runs. -/
def new : DecreasingSizeRunsHeap := ⟨.new, [], .init⟩

variable (alignment : Nat)

/-- `CallAndDrainRun`. -/
def callAndDrainRun (s : DecreasingSizeRunsHeap) :
    Option DecreasingSizeRunsHeap :=
  if s.mode = .init then if s.run = [] then some s else none
  else
    let ops := (s.run.insertionSort RunOp.le).map (RunOp.toOp s.mode)
    (Run.run (LazyBestFitHeap.step alignment) s.algorithm ops).map fun algorithm =>
      { s with algorithm := algorithm, run := [] }

/-- `SetMode`. -/
def setMode (s : DecreasingSizeRunsHeap) (mode : Mode) :
    Option DecreasingSizeRunsHeap :=
  if s.mode ≠ mode then (s.callAndDrainRun alignment).map fun s' => { s' with mode := mode }
  else some s

/-- An operation is collected. -/
def collect (s : DecreasingSizeRunsHeap) (buffer size : Nat) : DecreasingSizeRunsHeap :=
  { s with run := s.run ++ [⟨buffer, size⟩] }

/-- `Alloc` and `Free`. -/
def step (s : DecreasingSizeRunsHeap) : Op → Option DecreasingSizeRunsHeap
  | .alloc buffer size => (s.setMode alignment .alloc).map fun s' => s'.collect buffer size
  | .free buffer size =>
    if s.mode = .init then none
    else (s.setMode alignment .free).map fun s' => s'.collect buffer size

/-- `Finish`. -/
def finish (s : DecreasingSizeRunsHeap) : Option LazyBestFitHeap :=
  (s.callAndDrainRun alignment).bind fun s' => s'.algorithm.finish

end DecreasingSizeRunsHeap

end Tension.HeapSimulator
