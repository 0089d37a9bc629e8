import Tension.Models.Io.Checksum
import Tension.Models.Io.InputStream
import Tension.Models.SSTable.BlockBuilder

/-!
# The file format of a table

A stored block is followed by its compression type and a masked checksum of both. A handle names
the extent of a stored block. The footer holds the handles of the metaindex and of the index block,
padding and a magic number. A block that was stored is read back wherever its bytes are in the
file.
-/

namespace Tension.SSTable

open Io List

/-! ## Handles and the footer -/

/-- `BlockHandle`. -/
structure BlockHandle where
  offset : Nat
  size : Nat
  deriving DecidableEq, Repr

namespace BlockHandle

/-- `BlockHandle::kMaxEncodedLength`. -/
def kMaxEncodedLength : Nat := 10 + 10

/-- `BlockHandle::EncodeTo`. -/
def encode (h : BlockHandle) : List UInt8 := encodeVarint64 h.offset ++ encodeVarint64 h.size

/-- `BlockHandle::DecodeFrom`: the handle and what is left of the input. -/
def decodeFrom (input : List UInt8) : Except Status (BlockHandle × List UInt8) :=
  match (getVarint64 input).bind fun (offset, rest) =>
    (getVarint64 rest).map fun (size, rest) => (BlockHandle.mk offset size, rest) with
  | some r => .ok r
  | none => .error (.dataLoss "bad block handle")

/-- A handle of 64-bit numbers is read back. -/
theorem decodeFrom_encode {h : BlockHandle} (hoffset : h.offset < 2 ^ 64) (hsize : h.size < 2 ^ 64)
    (rest : List UInt8) : decodeFrom (h.encode ++ rest) = .ok (h, rest) := by
  simp [decodeFrom, encode, getVarint64_encodeVarint64 hoffset, getVarint64_encodeVarint64 hsize]

/-- The encoding of a handle is bounded. -/
theorem length_encode_le (h : BlockHandle) : h.encode.length ≤ kMaxEncodedLength := by
  have h₁ := length_encodeVarint64_le h.offset
  have h₂ := length_encodeVarint64_le h.size
  rw [encode, length_append, kMaxEncodedLength]
  omega

end BlockHandle

/-- `string::resize` with zero bytes. -/
def resize (n : Nat) (l : List UInt8) : List UInt8 := l.take n ++ List.replicate (n - l.length) 0

/-- Short strings are padded with zeros. -/
theorem resize_eq {n : Nat} {l : List UInt8} (h : l.length ≤ n) :
    resize n l = l ++ List.replicate (n - l.length) 0 := by
  rw [resize, take_of_length_le h]

/-- `kTableMagicNumber`. -/
def kTableMagicNumber : UInt64 := 0xdb4775248b80fb57

/-- `Footer`. -/
structure Footer where
  metaindexHandle : BlockHandle
  indexHandle : BlockHandle
  deriving DecidableEq, Repr

namespace Footer

/-- `Footer::kEncodedLength`. -/
def kEncodedLength : Nat := 2 * BlockHandle.kMaxEncodedLength + 8

/-- `Footer::EncodeTo` an empty string. -/
def encode (f : Footer) : List UInt8 :=
  resize (2 * BlockHandle.kMaxEncodedLength) (f.metaindexHandle.encode ++ f.indexHandle.encode) ++
    encodeFixed32 (kTableMagicNumber &&& 0xffffffff).toUInt32 ++
    encodeFixed32 (kTableMagicNumber >>> 32).toUInt32

/-- `Footer::DecodeFrom`. -/
def decodeFrom (input : List UInt8) : Except Status Footer :=
  let magicLo := decodeFixed32 (input.drop (kEncodedLength - 8))
  let magicHi := decodeFixed32 (input.drop (kEncodedLength - 4))
  if (magicHi.toUInt64 <<< 32) ||| magicLo.toUInt64 ≠ kTableMagicNumber then
    .error (.dataLoss "not an sstable (bad magic number)")
  else
    match BlockHandle.decodeFrom input with
    | .error s => .error s
    | .ok (metaindexHandle, rest) =>
      match BlockHandle.decodeFrom rest with
      | .error s => .error s
      | .ok (indexHandle, _) => .ok ⟨metaindexHandle, indexHandle⟩

theorem length_handles (f : Footer) : (resize (2 * BlockHandle.kMaxEncodedLength)
      (f.metaindexHandle.encode ++ f.indexHandle.encode)).length =
        2 * BlockHandle.kMaxEncodedLength := by
  have h₁ := f.metaindexHandle.length_encode_le
  have h₂ := f.indexHandle.length_encode_le
  rw [resize_eq (by rw [length_append]; omega), length_append, length_replicate, length_append]
  omega

theorem length_encode (f : Footer) : f.encode.length = kEncodedLength := by
  rw [encode, length_append, length_append, length_handles]
  rfl

/-- A footer is read back. -/
theorem decodeFrom_encode {f : Footer} (h₁ : f.metaindexHandle.offset < 2 ^ 64)
    (h₂ : f.metaindexHandle.size < 2 ^ 64) (h₃ : f.indexHandle.offset < 2 ^ 64)
    (h₄ : f.indexHandle.size < 2 ^ 64) : decodeFrom f.encode = .ok f := by
  have hhandles := f.length_handles
  have hlo : f.encode.drop (kEncodedLength - 8) =
      encodeFixed32 (kTableMagicNumber &&& 0xffffffff).toUInt32 ++
        encodeFixed32 (kTableMagicNumber >>> 32).toUInt32 := by
    rw [encode, append_assoc]
    exact drop_left' hhandles
  have hhi : f.encode.drop (kEncodedLength - 4) =
      encodeFixed32 (kTableMagicNumber >>> 32).toUInt32 ++ [] := by
    refine drop_left' ?_
    rw [length_append, hhandles]
    rfl
  have hmagic : ((kTableMagicNumber >>> 32).toUInt32.toUInt64 <<< 32) |||
      (kTableMagicNumber &&& 0xffffffff).toUInt32.toUInt64 = kTableMagicNumber := by
    decide
  have hle : (f.metaindexHandle.encode ++ f.indexHandle.encode).length ≤
      2 * BlockHandle.kMaxEncodedLength := by
    have h₁ := f.metaindexHandle.length_encode_le
    have h₂ := f.indexHandle.length_encode_le
    rw [length_append]
    omega
  simp only [decodeFrom, hlo, hhi, decodeFixed32_encodeFixed32, hmagic]
  simp [encode, resize_eq hle, BlockHandle.decodeFrom_encode h₁ h₂,
    BlockHandle.decodeFrom_encode h₃ h₄]

end Footer

/-! ## Stored blocks -/

/-- The functions `port::Snappy_*`. -/
structure Snappy where
  /-- `Snappy_Compress`; not every build supports it. -/
  compress : List UInt8 → Option (List UInt8)
  /-- `Snappy_GetUncompressedLength`. -/
  getUncompressedLength : List UInt8 → Option Nat
  /-- `Snappy_Uncompress` into a buffer of the uncompressed length. -/
  uncompress : List UInt8 → Option (List UInt8)

variable (snappy : Snappy)

/-- What was compressed is uncompressed. -/
def Snappy.Lawful : Prop :=
  ∀ raw c, snappy.compress raw = some c →
    snappy.getUncompressedLength c = some raw.length ∧ snappy.uncompress c = some raw

/-- The byte that stands for a compression type. -/
def CompressionType.byte : CompressionType → UInt8
  | .noCompression => 0
  | .snappyCompression => 1

/-- `kBlockTrailerSize`. -/
def kBlockTrailerSize : Nat := 5

/-- The choice of `TableBuilder::WriteBlock`: what is stored for a block. -/
def compressBlock (type : CompressionType) (raw : List UInt8) :
    List UInt8 × CompressionType :=
  match type with
  | .noCompression => (raw, .noCompression)
  | .snappyCompression =>
    match snappy.compress raw with
    | some compressed =>
      if compressed.length < raw.length - raw.length / 8 then (compressed, .snappyCompression)
      else (raw, .noCompression)
    | none => (raw, .noCompression)

variable (crc : Crc)

/-- The trailer that `TableBuilder::WriteRawBlock` writes. -/
def blockTrailer (contents : List UInt8) (type : CompressionType) : List UInt8 :=
  type.byte :: encodeFixed32 (Crc.mask (crc.extend (crc.value contents) [type.byte]))

@[simp] theorem length_blockTrailer (contents : List UInt8) (type : CompressionType) :
    (blockTrailer crc contents type).length = kBlockTrailerSize := by
  rfl

/-- The end of `ReadBlock`: the contents for the type byte. -/
def uncompressBlock (type : UInt8) (data : List UInt8) :
    Except Status (List UInt8) :=
  if type = CompressionType.noCompression.byte then .ok data
  else if type = CompressionType.snappyCompression.byte then
    match snappy.getUncompressedLength data with
    | none => .error (.dataLoss "corrupted compressed block contents")
    | some _ =>
      match snappy.uncompress data with
      | none => .error (.dataLoss "corrupted compressed block contents")
      | some u => .ok u
  else .error (.dataLoss "bad block type")

/-- `ReadBlock`. Handles whose extent does not fit into 64 bits are not modelled. -/
def readBlock (snappy : Snappy) (file : RandomAccessFile) (handle : BlockHandle) :
    Except Status (List UInt8) :=
  let r := file.read handle.offset (handle.size + kBlockTrailerSize)
  if r.1.code ≠ .ok then .error r.1
  else if r.2.length ≠ handle.size + kBlockTrailerSize then
    .error (.dataLoss "truncated block read")
  else if crc.value (r.2.take (handle.size + 1)) ≠
      Crc.unmask (decodeFixed32 (r.2.drop (handle.size + 1))) then
    .error (.dataLoss "block checksum mismatch")
  else uncompressBlock snappy (r.2.getD handle.size 0) (r.2.take handle.size)

/-- The bytes of a stored block are at the place that the handle names. -/
def Stored (snappy : Snappy) (bytes : List UInt8) (handle : BlockHandle)
    (raw : List UInt8) : Prop :=
  ∃ before contents type after,
    bytes = before ++ (contents ++ blockTrailer crc contents type) ++ after ∧
    handle = ⟨before.length, contents.length⟩ ∧
    uncompressBlock snappy type.byte contents = .ok raw

/-- Writing goes on behind a stored block. -/
theorem Stored.append {crc : Crc} {snappy : Snappy} {bytes : List UInt8} {handle : BlockHandle}
    {raw : List UInt8} (h : Stored crc snappy bytes handle raw) (more : List UInt8) :
    Stored crc snappy (bytes ++ more) handle raw := by
  obtain ⟨before, contents, type, after, rfl, hhandle, hraw⟩ := h
  exact ⟨before, contents, type, after ++ more, by simp only [append_assoc], hhandle, hraw⟩

/-- Blocks survive compression. -/
theorem uncompressBlock_compressBlock {snappy : Snappy} (h : snappy.Lawful)
    (type : CompressionType) (raw : List UInt8) :
    uncompressBlock snappy (compressBlock snappy type raw).2.byte
      (compressBlock snappy type raw).1 = .ok raw := by
  have hplain : uncompressBlock snappy CompressionType.noCompression.byte raw = .ok raw :=
    if_pos rfl
  cases type with
  | noCompression => exact hplain
  | snappyCompression =>
    simp only [compressBlock]
    split
    · next compressed hcompress =>
      split
      · obtain ⟨hlength, hraw⟩ := h raw compressed hcompress
        have hne : CompressionType.snappyCompression.byte ≠ CompressionType.noCompression.byte := by
          decide
        simp [uncompressBlock, if_neg hne, hlength, hraw]
      · exact hplain
    · exact hplain

/-- A stored block is read back. -/
theorem Stored.readBlock {crc : Crc} {snappy : Snappy} {file : RandomAccessFile}
    {handle : BlockHandle} {raw : List UInt8} (h : Stored crc snappy file.contents handle raw) :
    SSTable.readBlock crc snappy file handle = .ok raw := by
  obtain ⟨before, contents, type, after, hbytes, rfl, hraw⟩ := h
  have hdrop : file.contents.drop before.length =
      (contents ++ blockTrailer crc contents type) ++ after := by
    rw [hbytes, append_assoc, drop_left]
  have hlength : (contents ++ blockTrailer crc contents type).length =
      contents.length + kBlockTrailerSize := by
    rw [length_append, length_blockTrailer]
  have hread : file.read before.length (contents.length + kBlockTrailerSize) =
      (.ok, contents ++ blockTrailer crc contents type) := by
    rw [RandomAccessFile.read_of_le (by rw [hdrop, length_append]; omega), hdrop,
      take_left' hlength]
  have hsplit : contents ++ blockTrailer crc contents type = (contents ++ [type.byte]) ++
      encodeFixed32 (Crc.mask (crc.extend (crc.value contents) [type.byte])) := by
    rw [append_assoc]
    rfl
  have hone : (contents ++ [type.byte]).length = contents.length + 1 := by simp
  have hchecksum : Crc.unmask (decodeFixed32
      ((contents ++ blockTrailer crc contents type).drop (contents.length + 1))) =
      crc.value ((contents ++ blockTrailer crc contents type).take (contents.length + 1)) := by
    have hround := decodeFixed32_encodeFixed32
      (Crc.mask (crc.extend (crc.value contents) [type.byte])) []
    rw [append_nil] at hround
    rw [hsplit, drop_left' hone, take_left' hone, hround, Crc.unmask_mask, Crc.value,
      crc.extend_append]
    rfl
  have htype : (contents ++ blockTrailer crc contents type).getD contents.length 0 = type.byte := by
    rw [getD_eq_getElem?_getD, getElem?_append_right le_rfl, tsub_self]
    rfl
  simp only [SSTable.readBlock, hread, hlength, hchecksum, htype, take_left, Status.code_ok,
    ne_eq, not_true_eq_false, if_false, hraw]

end Tension.SSTable
