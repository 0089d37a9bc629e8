import Tension.Models.SSTable.Format

/-!
# Reading a table

`Table::Open` reads the footer and the index block. The iterator of a table has two levels: the
index iterator yields handles, and the iterator of the data block at the current handle yields
entries. A data block whose handle is still the current one is not read again, and data blocks
without a further entry are skipped.
-/

namespace Tension.SSTable

open Io

/-! ## The table -/

/-- `Table`. -/
structure Table where
  file : RandomAccessFile
  metaindexHandle : BlockHandle
  indexBlock : Block

namespace Table

variable (crc : Crc) (snappy : Snappy)

/-- `Table::Open` of a file with `size` bytes. -/
def openTable (file : RandomAccessFile) (size : Nat) : Except Status Table :=
  if size < Footer.kEncodedLength then .error (.dataLoss "file is too short to be an sstable")
  else
    let r := file.read (size - Footer.kEncodedLength) Footer.kEncodedLength
    if r.1.code ≠ .ok then .error r.1
    else
      match Footer.decodeFrom r.2 with
      | .error s => .error s
      | .ok footer =>
        match readBlock crc snappy file footer.indexHandle with
        | .error s => .error s
        | .ok contents => .ok ⟨file, footer.metaindexHandle, .create contents⟩

/-- `Table::BlockReader`. -/
def blockReader (table : Table) (indexValue : List UInt8) : BlockIterator :=
  match BlockHandle.decodeFrom indexValue with
  | .error s => .empty s
  | .ok (handle, _) =>
    match readBlock crc snappy table.file handle with
    | .error s => .empty s
    | .ok contents => (Block.create contents).newIterator

/-- `Table::InternalGet`: the status and the calls of the saver. -/
def internalGet (table : Table) (k : List UInt8) : Status × List (List UInt8 × List UInt8) :=
  let iiter := table.indexBlock.newIterator.seek k
  if iiter.valid then
    let blockIter := (blockReader crc snappy table iiter.value).seek k
    (if blockIter.status.code = .ok then iiter.status else blockIter.status,
      if blockIter.valid then [(blockIter.key, blockIter.value)] else [])
  else (iiter.status, [])

end Table

/-! ## The iterator with two levels -/

/-- `TwoLevelIterator`. -/
structure TwoLevelIterator where
  /-- `status_`. -/
  ownStatus : Status
  indexIter : BlockIterator
  dataIter : Option BlockIterator
  dataBlockHandle : List UInt8

namespace TwoLevelIterator

variable (blockFunction : List UInt8 → BlockIterator)

/-- `NewTwoLevelIterator`. -/
def create (indexIter : BlockIterator) : TwoLevelIterator := ⟨.ok, indexIter, none, []⟩

variable (it : TwoLevelIterator)

/-- `TwoLevelIterator::Valid`. -/
def valid : Bool := it.dataIter.elim false BlockIterator.valid

/-- `TwoLevelIterator::key` of a valid iterator. -/
def key : List UInt8 := it.dataIter.elim [] BlockIterator.key

/-- `TwoLevelIterator::value` of a valid iterator. -/
def value : List UInt8 := it.dataIter.elim [] BlockIterator.value

/-- `TwoLevelIterator::status`. -/
def status (it : TwoLevelIterator) : Status :=
  if it.indexIter.status.code ≠ .ok then it.indexIter.status
  else
    match it.dataIter with
    | some d => if d.status.code ≠ .ok then d.status else it.ownStatus
    | none => it.ownStatus

/-- `SaveError`. -/
def saveError (s : Status) : TwoLevelIterator :=
  if it.ownStatus.code = .ok ∧ s.code ≠ .ok then { it with ownStatus := s } else it

/-- `SetDataIterator`. -/
def setDataIterator (d : Option BlockIterator) : TwoLevelIterator :=
  match it.dataIter with
  | some old => { it.saveError old.status with dataIter := d }
  | none => { it with dataIter := d }

/-- `InitDataBlock`. -/
def initDataBlock : TwoLevelIterator :=
  if !it.indexIter.valid then it.setDataIterator none
  else if it.dataIter.isSome ∧ it.indexIter.value = it.dataBlockHandle then it
  else
    { it with dataBlockHandle := it.indexIter.value }.setDataIterator
      (some (blockFunction it.indexIter.value))

/-- A call for the data iterator, if there is one. -/
def onData (f : BlockIterator → BlockIterator) (it : TwoLevelIterator) : TwoLevelIterator :=
  { it with dataIter := it.dataIter.map f }

/-- The index iterator goes one block further. -/
def nextBlock : TwoLevelIterator :=
  ({ it with indexIter := it.indexIter.next }.initDataBlock blockFunction).onData
    BlockIterator.seekToFirst

/-- `SkipEmptyDataBlocksForward` over at most `fuel` blocks. -/
def skipEmptyDataBlocksForward : Nat → TwoLevelIterator → TwoLevelIterator
  | 0, it => it
  | fuel + 1, it =>
    if it.valid then it
    else if !it.indexIter.valid then it.setDataIterator none
    else skipEmptyDataBlocksForward fuel (it.nextBlock blockFunction)

/-- A bound for the number of index entries: each one takes bytes of the index block. -/
def blockBound : Nat :=
  match it.indexIter with
  | .empty _ => 3
  | .entries index => index.restarts + 3

/-- `TwoLevelIterator::Seek`. -/
def seek (target : List UInt8) : TwoLevelIterator :=
  skipEmptyDataBlocksForward blockFunction it.blockBound
    (({ it with indexIter := it.indexIter.seek target }.initDataBlock blockFunction).onData
      (BlockIterator.seek target))

/-- `TwoLevelIterator::SeekToFirst`. -/
def seekToFirst : TwoLevelIterator :=
  skipEmptyDataBlocksForward blockFunction it.blockBound
    (({ it with indexIter := it.indexIter.seekToFirst }.initDataBlock blockFunction).onData
      BlockIterator.seekToFirst)

/-- `TwoLevelIterator::Next` of a valid iterator. -/
def next : TwoLevelIterator :=
  skipEmptyDataBlocksForward blockFunction it.blockBound (it.onData BlockIterator.next)

/-- One call; `Next` requires a valid iterator. -/
def step : IterCall → Option TwoLevelIterator
  | .seekToFirst => some (it.seekToFirst blockFunction)
  | .seek target => some (it.seek blockFunction target)
  | .next => if it.valid then some (it.next blockFunction) else none

end TwoLevelIterator

/-- `Table::NewIterator`. -/
def Table.newIterator (table : Table) : TwoLevelIterator := .create table.indexBlock.newIterator

end Tension.SSTable
