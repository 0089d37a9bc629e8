import Mathlib
import Tension.Core.Run
import Tension.Models.Io.Coding
import Tension.Models.Status

/-!
# Blocks and their iterators

A block holds entries with prefix-compressed keys, the offsets of the entries that store their
whole key, and the number of these restart points. The iterator parses entry after entry and
searches the restart points by bisection. Offsets and lengths are 32-bit numbers, stored as
natural numbers, and sums of them wrap around.
-/

namespace Tension.SSTable

open Io

/-- Byte strings are compared as unsigned bytes, `StringPiece::compare`. -/
instance instLinearOrderByte : LinearOrder UInt8 where
  le_refl := UInt8.le_refl
  le_trans _ _ _ := UInt8.le_trans
  le_antisymm _ _ := UInt8.le_antisymm
  le_total := UInt8.le_total
  lt_iff_le_not_ge a b := by
    rw [UInt8.not_le, UInt8.lt_iff_toNat_lt, UInt8.le_iff_toNat_le]
    omega
  toDecidableLE := inferInstance

/-! ## Entries -/

/-- The three numbers at the start of an entry and the bytes that follow them up to the end of
the data area. -/
structure DecodedEntry where
  shared : Nat
  nonShared : Nat
  valueLength : Nat
  /-- The bytes between the returned pointer and `limit`. -/
  rest : List UInt8
  deriving DecidableEq, Repr

/-- The first part of `DecodeEntry`, with its fast path for three one-byte numbers. -/
def entryHeader : List UInt8 → Option DecodedEntry
  | b₀ :: b₁ :: b₂ :: rest =>
    if b₀.toNat ||| b₁.toNat ||| b₂.toNat < 128 then
      some ⟨b₀.toNat, b₁.toNat, b₂.toNat, rest⟩
    else
      (getVarint32 (b₀ :: b₁ :: b₂ :: rest)).bind fun (shared, p) =>
        (getVarint32 p).bind fun (nonShared, p) =>
          (getVarint32 p).map fun (valueLength, p) => ⟨shared, nonShared, valueLength, p⟩
  | _ => none

/-- `DecodeEntry` of the bytes between `p` and `limit`: the lengths are added in 32 bits. -/
def decodeEntry (bytes : List UInt8) : Option DecodedEntry :=
  (entryHeader bytes).bind fun e =>
    if e.rest.length % 2 ^ 32 < (e.nonShared + e.valueLength) % 2 ^ 32 then none else some e

/-! ## Blocks -/

/-- `Block`: a size of zero marks bad contents. -/
structure Block where
  data : List UInt8
  size : Nat
  restartOffset : Nat

namespace Block

/-- `Block::NumRestarts`. -/
def numRestarts (data : List UInt8) (size : Nat) : Nat :=
  (decodeFixed32 (data.drop (size - 4))).toNat

/-- The constructor of `Block`. -/
def create (contents : List UInt8) : Block :=
  if contents.length < 4 then ⟨contents, 0, 0⟩
  else if (contents.length - 4) / 4 < numRestarts contents contents.length then ⟨contents, 0, 0⟩
  else
    ⟨contents, contents.length,
      (contents.length - (1 + numRestarts contents contents.length) % 2 ^ 32 * 4) % 2 ^ 32⟩

end Block

/-! ## The iterator of a block -/

/-- `Block::Iter`. What lies behind the block in memory is not modelled: a key that reaches past
the block is copied as far as the block goes. -/
structure BlockIter where
  data : List UInt8
  /-- `restarts_`, the end of the data area. -/
  restarts : Nat
  numRestarts : Nat
  current : Nat
  restartIndex : Nat
  key : List UInt8
  /-- The offset of `value_` in the block. -/
  valueOffset : Nat
  /-- The length of `value_`. -/
  valueLength : Nat
  status : Status
  /-- The offsets at which `DecodeEntry` was called. -/
  decodedAt : List Nat
  deriving DecidableEq, Repr

namespace BlockIter

/-- The constructor of `Block::Iter`. -/
def create (data : List UInt8) (restarts numRestarts : Nat) : BlockIter :=
  ⟨data, restarts, numRestarts, restarts, numRestarts, [], 0, 0, .ok, []⟩

variable (it : BlockIter)

/-- The bytes of the data area from an offset on. -/
def area (p : Nat) : List UInt8 := (it.data.take it.restarts).drop p

/-- A stretch of bytes of the block. -/
def bytesAt (offset n : Nat) : List UInt8 := (it.data.drop offset).take n

/-- The offset of the pointer that `DecodeEntry` returned. -/
def entryOffset (e : DecodedEntry) : Nat := it.restarts - e.rest.length

/-- `Block::Iter::Valid`. -/
def valid : Bool := it.current < it.restarts

/-- `Block::Iter::value`. -/
def value : List UInt8 := it.bytesAt it.valueOffset it.valueLength

/-- `NextEntryOffset`. -/
def nextEntryOffset : Nat := (it.valueOffset + it.valueLength) % 2 ^ 32

/-- `GetRestartPoint`. -/
def getRestartPoint (index : Nat) : Nat :=
  (decodeFixed32 (it.data.drop (it.restarts + index * 4))).toNat

/-- `SeekToRestartPoint`. -/
def seekToRestartPoint (index : Nat) : BlockIter :=
  { it with
    key := []
    restartIndex := index
    valueOffset := it.getRestartPoint index
    valueLength := 0 }

/-- `CorruptionError`. -/
def corruptionError : BlockIter :=
  { it with
    current := it.restarts
    restartIndex := it.numRestarts
    status := .dataLoss "bad entry in block"
    key := []
    valueOffset := 0
    valueLength := 0 }

/-- The loop at the end of `ParseNextKey` over at most `fuel` restart points. -/
def advanceRestartIndex (it : BlockIter) : Nat → Nat → Nat
  | 0, index => index
  | fuel + 1, index =>
    if index + 1 < it.numRestarts ∧ it.getRestartPoint (index + 1) < it.current then
      advanceRestartIndex it fuel (index + 1)
    else index

/-- The iterator at a decoded entry. -/
def enter (e : DecodedEntry) : BlockIter :=
  { it with
    key := it.key.take e.shared ++ it.bytesAt (it.entryOffset e) e.nonShared
    valueOffset := it.entryOffset e + e.nonShared
    valueLength := e.valueLength
    restartIndex := it.advanceRestartIndex it.numRestarts it.restartIndex }

/-- A call of `DecodeEntry` at an offset is on record. -/
def record (p : Nat) : BlockIter := { it with decodedAt := p :: it.decodedAt }

/-- `ParseNextKey` after `current_` is set. -/
def parseAt : Bool × BlockIter :=
  if it.restarts ≤ it.current then
    (false, { it with current := it.restarts, restartIndex := it.numRestarts })
  else
    match decodeEntry (it.area it.current) with
    | none => (false, (it.record it.current).corruptionError)
    | some e =>
      if it.key.length < e.shared then (false, (it.record it.current).corruptionError)
      else (true, (it.record it.current).enter e)

/-- `ParseNextKey`. -/
def parseNextKey : Bool × BlockIter :=
  parseAt { it with current := it.nextEntryOffset }

/-- `mid` in `Seek`. -/
def midpoint (left right : Nat) : Nat := (left + right + 1) % 2 ^ 32 / 2

/-- The bisection of `Seek` over `left` and `right`, which are less than `fuel` apart. The result
is missing if an entry is corrupted. -/
def searchRestarts (target : List UInt8) : Nat → BlockIter → Nat → Nat → BlockIter × Option Nat
  | 0, it, left, _ => (it, some left)
  | fuel + 1, it, left, right =>
    if left < right then
      match decodeEntry (it.area (it.getRestartPoint (midpoint left right))) with
      | none => ((it.record (it.getRestartPoint (midpoint left right))).corruptionError, none)
      | some e =>
        if e.shared ≠ 0 then
          ((it.record (it.getRestartPoint (midpoint left right))).corruptionError, none)
        else if it.bytesAt (it.entryOffset e) e.nonShared < target then
          searchRestarts target fuel (it.record (it.getRestartPoint (midpoint left right)))
            (midpoint left right) right
        else
          searchRestarts target fuel (it.record (it.getRestartPoint (midpoint left right)))
            left (midpoint left right - 1)
    else (it, some left)

/-- The linear search of `Seek` over at most `fuel` entries. -/
def searchEntries (target : List UInt8) : Nat → BlockIter → BlockIter
  | 0, it => it
  | fuel + 1, it =>
    if !it.parseNextKey.1 then it.parseNextKey.2
    else if target ≤ it.parseNextKey.2.key then it.parseNextKey.2
    else searchEntries target fuel it.parseNextKey.2

/-- `Block::Iter::Seek`. -/
def seek (it : BlockIter) (target : List UInt8) : BlockIter :=
  match searchRestarts target it.numRestarts it 0 (it.numRestarts - 1) with
  | (it', none) => it'
  | (it', some left) =>
    searchEntries target (it'.restarts + 1) (it'.seekToRestartPoint left)

/-- `Block::Iter::SeekToFirst`. -/
def seekToFirst : BlockIter := (it.seekToRestartPoint 0).parseNextKey.2

/-- `Block::Iter::Next`. -/
def next : BlockIter := it.parseNextKey.2

end BlockIter

/-! ## Iterators -/

/-- The iterators a block can have. -/
inductive BlockIterator where
  /-- `EmptyIterator`. -/
  | empty (status : Status)
  /-- `Block::Iter`. -/
  | entries (it : BlockIter)
  deriving DecidableEq, Repr

/-- The calls that move an iterator. -/
inductive IterCall where
  | seekToFirst
  | seek (target : List UInt8)
  | next
  deriving DecidableEq, Repr

namespace BlockIterator

/-- `Iterator::Valid`. -/
def valid : BlockIterator → Bool
  | .empty _ => false
  | .entries it => it.valid

/-- `Iterator::key` of a valid iterator. -/
def key : BlockIterator → List UInt8
  | .empty _ => []
  | .entries it => it.key

/-- `Iterator::value` of a valid iterator. -/
def value : BlockIterator → List UInt8
  | .empty _ => []
  | .entries it => it.value

/-- `Iterator::status`. -/
def status : BlockIterator → Status
  | .empty s => s
  | .entries it => it.status

/-- `Iterator::SeekToFirst`. -/
def seekToFirst : BlockIterator → BlockIterator
  | .empty s => .empty s
  | .entries it => .entries it.seekToFirst

/-- `Iterator::Seek`. -/
def seek (target : List UInt8) : BlockIterator → BlockIterator
  | .empty s => .empty s
  | .entries it => .entries (it.seek target)

/-- `Iterator::Next` of a valid iterator. -/
def next : BlockIterator → BlockIterator
  | .empty s => .empty s
  | .entries it => .entries it.next

/-- One call; `Next` requires a valid iterator. -/
def step (it : BlockIterator) : IterCall → Option BlockIterator
  | .seekToFirst => some it.seekToFirst
  | .seek target => some (it.seek target)
  | .next => if it.valid then some it.next else none

end BlockIterator

/-- `Block::NewIterator`. -/
def Block.newIterator (block : Block) : BlockIterator :=
  if block.size < 4 then .empty (.dataLoss "bad block contents")
  else if numRestarts block.data block.size = 0 then .empty .ok
  else .entries (.create block.data block.restartOffset (numRestarts block.data block.size))

end Tension.SSTable
