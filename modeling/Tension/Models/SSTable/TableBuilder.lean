import Tension.Models.SSTable.Format

/-!
# Building a table

Entries go into a data block until it is large enough. Its index entry waits for the next key, so
that a short separator can stand for the block: a key that is at least every key of the block and
smaller than the next one. All appends to the file succeed, so the status of the builder stays OK.
-/

namespace Tension.SSTable

open Io

/-! ## Separators -/

/-- `FindShortestSeparator`. -/
def findShortestSeparator (start limit : List UInt8) : List UInt8 :=
  let diffIndex := sharedLength start limit
  match start[diffIndex]?, limit[diffIndex]? with
  | some a, some b =>
    if a.toNat < 0xff ∧ a.toNat + 1 < b.toNat then start.take diffIndex ++ [a + 1] else start
  | _, _ => start

/-- `FindShortSuccessor`. -/
def findShortSuccessor : List UInt8 → List UInt8
  | [] => []
  | b :: rest => if b ≠ 0xff then [b + 1] else b :: findShortSuccessor rest

/-! ## The builder -/

/-- `TableBuilder`, with the contents of its file. -/
structure TableBuilder where
  options : Options
  /-- The contents of `file`. -/
  file : List UInt8
  offset : Nat
  dataBlock : BlockBuilder
  indexBlock : BlockBuilder
  lastKey : List UInt8
  numEntries : Nat
  closed : Bool
  pendingIndexEntry : Bool
  pendingHandle : BlockHandle
  /-- The contents of the blocks that were written, before compression. -/
  rawBlocks : List (List UInt8)

namespace TableBuilder

variable (crc : Crc) (snappy : Snappy)

/-- The constructor of `TableBuilder`; index blocks have a restart point at every entry. -/
def create (options : Options) : TableBuilder where
  options := options
  file := []
  offset := 0
  dataBlock := .create options.blockRestartInterval
  indexBlock := .create 1
  lastKey := []
  numEntries := 0
  closed := false
  pendingIndexEntry := false
  pendingHandle := ⟨2 ^ 64 - 1, 2 ^ 64 - 1⟩
  rawBlocks := []

variable (b : TableBuilder)

/-- `TableBuilder::WriteRawBlock`: the handle of the block and the builder. -/
def writeRawBlock (contents : List UInt8) (type : CompressionType) :
    BlockHandle × TableBuilder :=
  (⟨b.offset, contents.length⟩, { b with
    file := b.file ++ (contents ++ blockTrailer crc contents type)
    offset := (b.offset + (contents.length + kBlockTrailerSize)) % 2 ^ 64 })

/-- `TableBuilder::WriteBlock` of the finished contents of a block. -/
def writeBlock (raw : List UInt8) : BlockHandle × TableBuilder :=
  let stored := compressBlock snappy b.options.compression raw
  writeRawBlock crc { b with rawBlocks := raw :: b.rawBlocks } stored.1 stored.2

/-- `TableBuilder::Flush`. -/
def flush : TableBuilder :=
  if b.dataBlock.isEmpty then b
  else
    let w := writeBlock crc snappy b b.dataBlock.finish.1
    { w.2 with
      dataBlock := b.dataBlock.finish.2.reset
      pendingHandle := w.1
      pendingIndexEntry := true }

/-- The index entry of the last data block, with the separator that `key` stands for. -/
def addIndexEntry (separator : List UInt8) : TableBuilder :=
  { b with
    lastKey := separator
    indexBlock := b.indexBlock.add separator b.pendingHandle.encode
    pendingIndexEntry := false }

/-- The first part of `TableBuilder::Add`: an overly large entry gets a block of its own. -/
def flushBefore (key value : List UInt8) : TableBuilder :=
  if 0 < b.numEntries ∧ 2 * b.options.blockSize % 2 ^ 64 ≤ key.length + value.length then
    flush crc snappy b
  else b

/-- The second part of `TableBuilder::Add`: the index entry that waits for the key. -/
def addPendingEntry (key : List UInt8) : TableBuilder :=
  if b.pendingIndexEntry then b.addIndexEntry (findShortestSeparator b.lastKey key) else b

/-- The part of `TableBuilder::Add` that adds the entry to the data block. -/
def addEntry (key value : List UInt8) : TableBuilder :=
  { b with
    lastKey := key
    numEntries := b.numEntries + 1
    dataBlock := b.dataBlock.add key value }

/-- The last part of `TableBuilder::Add`. -/
def flushAfter : TableBuilder :=
  if b.options.blockSize ≤ b.dataBlock.currentSizeEstimate then flush crc snappy b else b

/-- `TableBuilder::Add`. -/
def add (key value : List UInt8) : TableBuilder :=
  flushAfter crc snappy
    (((flushBefore crc snappy b key value).addPendingEntry key).addEntry key value)

/-- The metaindex block of `TableBuilder::Finish`, which has no entries. -/
def writeMetaindex : BlockHandle × TableBuilder :=
  writeBlock crc snappy b (BlockBuilder.create b.options.blockRestartInterval).finish.1

/-- The last index entry of `TableBuilder::Finish`. -/
def addLastEntry : TableBuilder :=
  if b.pendingIndexEntry then b.addIndexEntry (findShortSuccessor b.lastKey) else b

/-- The index block of `TableBuilder::Finish`. -/
def writeIndex : BlockHandle × TableBuilder :=
  let w := writeBlock crc snappy b b.indexBlock.finish.1
  (w.1, { w.2 with indexBlock := b.indexBlock.finish.2.reset })

/-- The footer of `TableBuilder::Finish`. -/
def writeFooter (footer : Footer) : TableBuilder :=
  { b with
    file := b.file ++ footer.encode
    offset := (b.offset + footer.encode.length) % 2 ^ 64 }

/-- `TableBuilder::Finish`. -/
def finish : TableBuilder :=
  let metaindex := writeMetaindex crc snappy { flush crc snappy b with closed := true }
  let index := writeIndex crc snappy metaindex.2.addLastEntry
  index.2.writeFooter ⟨metaindex.1, index.1⟩

/-- The builder after adding a list of entries. -/
def addAll (entries : List (List UInt8 × List UInt8)) : TableBuilder :=
  entries.foldl (fun b e => add crc snappy b e.1 e.2) b

/-- The table with a list of entries. -/
def build (options : Options) (entries : List (List UInt8 × List UInt8)) : TableBuilder :=
  finish crc snappy (addAll crc snappy (create options) entries)

end TableBuilder

/-! ## What separators do -/

theorem lt_add_one_of_lt {a : UInt8} (h : a.toNat < 0xff) : a < a + 1 := by
  rw [UInt8.lt_iff_toNat_lt, UInt8.toNat_add]
  have hone : (1 : UInt8).toNat = 1 := rfl
  omega

theorem cons_le_cons_self (a : UInt8) {s t : List UInt8} (h : s ≤ t) : a :: s ≤ a :: t := by
  refine not_lt.mp fun hlt => ?_
  rcases List.cons_lt_cons_iff.mp hlt with hbyte | ⟨-, hrest⟩
  · exact lt_irrefl a hbyte
  · exact not_lt.mpr h hrest

theorem findShortestSeparator_cons (c : UInt8) (start limit : List UInt8) :
    findShortestSeparator (c :: start) (c :: limit) = c :: findShortestSeparator start limit := by
  simp only [findShortestSeparator, sharedLength, if_true, List.getElem?_cons_succ]
  split
  · split
    · rfl
    · rfl
  · rfl

/-- The separator of two keys is at least the first and smaller than the second. -/
theorem findShortestSeparator_spec {start limit : List UInt8} (h : start < limit) :
    start ≤ findShortestSeparator start limit ∧ findShortestSeparator start limit < limit := by
  induction start generalizing limit with
  | nil =>
    cases limit with
    | nil => exact absurd h (lt_irrefl _)
    | cons b limit => exact ⟨le_rfl, h⟩
  | cons a start ih =>
    cases limit with
    | nil => exact absurd h (List.not_lt_nil _)
    | cons b limit =>
      rcases List.cons_lt_cons_iff.mp h with hlt | ⟨rfl, hlt⟩
      · have hne : a ≠ b := hlt.ne
        simp only [findShortestSeparator, sharedLength, if_neg hne, List.getElem?_cons_zero]
        split
        · next hroom =>
          have hnext : (a + 1).toNat = a.toNat + 1 := by
            rw [UInt8.toNat_add]
            have hone : (1 : UInt8).toNat = 1 := rfl
            omega
          have hbelow : a + 1 < b := by
            rw [UInt8.lt_iff_toNat_lt, hnext]
            exact hroom.2
          exact ⟨(List.cons_lt_cons_iff.mpr (.inl (lt_add_one_of_lt hroom.1))).le,
            List.cons_lt_cons_iff.mpr (.inl hbelow)⟩
        · exact ⟨le_rfl, h⟩
      · rw [findShortestSeparator_cons]
        obtain ⟨hle, hlt'⟩ := ih hlt
        exact ⟨cons_le_cons_self a hle, List.cons_lt_cons_iff.mpr (.inr ⟨rfl, hlt'⟩)⟩

/-- The short successor of a key is at least the key. -/
theorem le_findShortSuccessor (key : List UInt8) : key ≤ findShortSuccessor key := by
  induction key with
  | nil => exact le_rfl
  | cons b rest ih =>
    rw [findShortSuccessor]
    split
    · next hne =>
      have hlt : b.toNat < 0xff := by
        have hbound := b.toNat_lt
        have hb : b.toNat ≠ 0xff := fun h => hne (UInt8.toNat_inj.mp h)
        omega
      exact (List.cons_lt_cons_iff.mpr (.inl (lt_add_one_of_lt hlt))).le
    · exact cons_le_cons_self b ih

end Tension.SSTable
