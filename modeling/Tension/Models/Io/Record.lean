import Tension.Models.Io.Checksum
import Tension.Models.Io.Coding
import Tension.Models.Io.InputStream

/-!
# Record files

A record is its length, the masked checksum of the length, the payload and the masked
checksum of the payload. The reader fetches the two checksummed parts either at an
absolute offset of the file or as the next bytes of a buffered stream. Reading a
complete record returns its payload; what a reader reports for an incomplete one
depends on the part in which the file ends.
-/

namespace Tension.Io

open List Option

/-! ## Writing -/

variable (crc : Crc)

/-- `MaskedCrc`. -/
def maskedCrc (data : List UInt8) : UInt32 := Crc.mask (crc.value data)

/-- `RecordWriter::WriteRecord` to a file whose appends succeed. -/
def writeRecord (dest data : List UInt8) : List UInt8 :=
  let length := encodeFixed64 (UInt64.ofNat data.length)
  let header := length ++ encodeFixed32 (maskedCrc crc length)
  let footer := encodeFixed32 (maskedCrc crc data)
  dest ++ header ++ data ++ footer

/-- The file after writing a list of records. -/
def writeRecords (records : List (List UInt8)) : List UInt8 :=
  records.foldl (writeRecord crc) []

/-- Bytes followed by their masked checksum. -/
def checksummed (data : List UInt8) : List UInt8 :=
  data ++ encodeFixed32 (maskedCrc crc data)

@[simp] theorem length_checksummed (data : List UInt8) :
    (checksummed crc data).length = data.length + 4 := by
  rw [checksummed, length_append, length_encodeFixed32]

variable (data : List UInt8)

/-- The length field of a record. -/
def lengthField : List UInt8 := encodeFixed64 (UInt64.ofNat data.length)

@[simp] theorem length_lengthField : (lengthField data).length = 8 := by
  rw [lengthField, length_encodeFixed64]

/-- The bytes of one record. -/
def recordBytes (data : List UInt8) : List UInt8 :=
  checksummed crc (lengthField data) ++ checksummed crc data

/-- The size of a record in the file. -/
def recordSize : Nat := 12 + data.length + 4

@[simp] theorem length_recordBytes (data : List UInt8) :
    (recordBytes crc data).length = recordSize data := by
  simp only [recordBytes, recordSize, length_append, length_checksummed, length_lengthField]
  omega

theorem writeRecord_eq (dest data : List UInt8) :
    writeRecord crc dest data = dest ++ recordBytes crc data := by
  simp [writeRecord, recordBytes, checksummed, lengthField]

/-- The file is the concatenation of its records. -/
theorem writeRecords_eq (records : List (List UInt8)) :
    writeRecords crc records = records.flatMap (recordBytes crc) := by
  have h : ∀ dest, records.foldl (writeRecord crc) dest =
      dest ++ records.flatMap (recordBytes crc) := by
    induction records with
    | nil => simp
    | cons d ds ih =>
      intro dest
      rw [foldl_cons, ih, writeRecord_eq, flatMap_cons, append_assoc]
  exact h []

theorem length_writeRecords (records : List (List UInt8)) :
    (writeRecords crc records).length = (records.map recordSize).sum := by
  rw [writeRecords_eq, length_flatMap]
  exact congrArg (fun f => (records.map f).sum) (funext fun d => length_recordBytes crc d)

/-! ## Reading -/

/-- The stream a reader opens. -/
inductive InputStream where
  | buffered (stream : BufferedInputStream)
  | direct (stream : RandomAccessInputStream)

/-- `InputStreamInterface::ReadNBytes`. -/
def InputStream.readNBytes (stream : InputStream) (bytesToRead : Int) (result : List UInt8) :
    Option (Status × List UInt8 × InputStream) :=
  match stream with
  | .buffered b => (b.readNBytes bytesToRead result).map fun r => (r.1, r.2.1, .buffered r.2.2)
  | .direct s =>
    let r := s.readNBytes bytesToRead result
    some (r.1, r.2.1, .direct r.2.2)

/-- `RecordReader` without compression. -/
structure RecordReader where
  src : RandomAccessFile
  /-- `options_.buffer_size`. -/
  bufferSize : Int
  inputStream : InputStream

/-- The conversion of a `size_t` to `int64`. -/
def toInt64 (n : Nat) : Int := if n < 2 ^ 63 then n else (n : Int) - 2 ^ 64

namespace RecordReader

/-- The constructor: a positive buffer size selects a buffered stream. -/
def create (file : RandomAccessFile) (bufferSize : Int) : RecordReader :=
  ⟨file, bufferSize, if 0 < bufferSize then .buffered (.create file bufferSize.toNat)
    else .direct ⟨file, 0⟩⟩

/-- The read at the start of `ReadChecksummed`: the next bytes of the stream if there
is a buffer, the bytes at the offset otherwise. -/
def fetch (r : RecordReader) (offset expected : Nat) :
    Option (Status × List UInt8 × RecordReader) :=
  if 0 < r.bufferSize then
    (r.inputStream.readNBytes (toInt64 expected) (List.replicate expected 0)).map fun t =>
      (t.1, t.2.1, { r with inputStream := t.2.2 })
  else
    let t := r.src.read offset expected
    some (t.1, t.2, r)

/-- The checks of `ReadChecksummed` on the bytes read, the same for both kinds of read. -/
def verify (crc : Crc) (offset n : Nat) (s : Status) (data : List UInt8) :
    Except Status (List UInt8) :=
  if s.code ≠ .ok then .error s
  else if data.length ≠ n + 4 then
    .error (if data = [] then .outOfRange "eof"
      else .dataLoss ("truncated record at " ++ toString offset))
  else if Crc.unmask (decodeFixed32 (data.drop n)) ≠ crc.value (data.take n) then
    .error (.dataLoss ("corrupted record at " ++ toString offset))
  else .ok (data.take n)

/-- `RecordReader::ReadChecksummed`. -/
def readChecksummed (crc : Crc) (r : RecordReader) (offset n : UInt64) :
    Option (Except Status (List UInt8) × RecordReader) :=
  if 2 ^ 64 - 1 - 4 ≤ n.toNat then some (.error (.dataLoss "record size too large"), r)
  else
    (r.fetch offset.toNat (n.toNat + 4)).map fun t =>
      (verify crc offset.toNat n.toNat t.1 t.2.1, t.2.2)

/-- The end of `ReadRecord`: a payload that is cut short is data loss, and a record that
was read moves the offset past it. -/
def finishRecord (offset length : UInt64) :
    Except Status (List UInt8) × RecordReader →
      Except Status (List UInt8) × UInt64 × RecordReader
  | (.error s, r) =>
    (.error (if s.code = .outOfRange then
      .dataLoss ("truncated record at " ++ toString offset.toNat) else s), offset, r)
  | (.ok data, r) => (.ok data, offset + (12 + length + 4), r)

/-- `RecordReader::ReadRecord`: the outcome with the record, the offset afterwards and
the reader. -/
def readRecord (crc : Crc) (r : RecordReader) (offset : UInt64) :
    Option (Except Status (List UInt8) × UInt64 × RecordReader) :=
  (readChecksummed crc r offset 8).bind fun
    | (.error s, r₁) => some (.error s, offset, r₁)
    | (.ok lbuf, r₁) =>
      let length := decodeFixed64 lbuf
      (readChecksummed crc r₁ (offset + 12) length).map (finishRecord offset length)

/-- The outcomes of a number of successive `ReadRecord` calls, each with the offset it
leaves. -/
def readRecords (crc : Crc) :
    Nat → RecordReader → UInt64 → Option (List (Except Status (List UInt8) × UInt64))
  | 0, _, _ => some []
  | calls + 1, r, offset =>
    (r.readRecord crc offset).bind fun t =>
      (readRecords crc calls t.2.2 t.2.1).map ((t.1, t.2.1) :: ·)

/-! ## One read -/

/-- A sequential reader stands at position `p` of the file. -/
structure At (r : RecordReader) (file : RandomAccessFile) (p : Nat) : Prop where
  src_eq : r.src = file
  stream : 0 < r.bufferSize → ∃ b, r.inputStream = .buffered b ∧ b.At file p

theorem at_create (file : RandomAccessFile) (bufferSize : Int) :
    (create file bufferSize).At file 0 := by
  refine ⟨rfl, fun h => ⟨.create file bufferSize.toNat, ?_, ?_⟩⟩
  · exact if_pos h
  · have hpos : 0 < bufferSize := h
    exact BufferedInputStream.at_create file (by omega)

variable {r : RecordReader} {file : RandomAccessFile} {crc : Crc} {offset : UInt64}
  {data rest : List UInt8}

/-- Fetching returns the bytes that the file still has, and reports whether they are enough. -/
theorem fetch_spec {p n : Nat} (hr : r.At file p) (hlt : n < 2 ^ 63) :
    ∃ s r', r.fetch p n = some (s, (file.contents.drop p).take n, r') ∧
      s.code = (if (file.contents.drop p).length < n then .outOfRange else .ok) ∧
      r'.At file (p + n) := by
  obtain ⟨rfl, hstream⟩ := hr
  rw [fetch]
  split
  · next hbuf =>
    obtain ⟨b, hb, hat⟩ := hstream hbuf
    obtain ⟨s, b', hread, hs, hat', -⟩ :=
      BufferedInputStream.readNBytes_spec hat n (replicate n 0)
    rw [hb, InputStream.readNBytes, toInt64, if_pos hlt, hread]
    exact ⟨s, _, rfl, hs, rfl, fun _ => ⟨b', rfl, hat'⟩⟩
  · next hbuf =>
    refine ⟨_, r, rfl, ?_, rfl, fun h => absurd h hbuf⟩
    split
    · next hn => rw [RandomAccessFile.read_of_lt hn, Status.code_outOfRange]
    · next hn => rw [RandomAccessFile.read_of_le (not_lt.mp hn), Status.code_ok]

/-- The checks accept bytes that carry their own checksum. -/
theorem verify_checksummed (crc : Crc) (offset : Nat) {s : Status} (hs : s.code = .ok)
    (data : List UInt8) : verify crc offset data.length s (checksummed crc data) = .ok data := by
  have hcrc : decodeFixed32 ((checksummed crc data).drop data.length) = maskedCrc crc data := by
    rw [checksummed]
    simpa using decodeFixed32_encodeFixed32 (maskedCrc crc data) []
  have htake : (checksummed crc data).take data.length = data := take_left
  rw [verify, if_neg (by simp [hs]), if_neg (by simp), hcrc, htake, maskedCrc, Crc.unmask_mask,
    if_neg (by simp)]

/-- A checksummed part that is in the file is read back. -/
theorem readChecksummed_of_append {n : UInt64} (hr : r.At file offset.toNat)
    (hdrop : file.contents.drop offset.toNat = checksummed crc data ++ rest)
    (hn : n.toNat = data.length) : ∃ r', r.readChecksummed crc offset n = some (.ok data, r') ∧
      r'.At file (offset.toNat + (data.length + 4)) := by
  have hlen : data.length + 4 ≤ (file.contents.drop offset.toNat).length := by
    rw [hdrop, length_append, length_checksummed]
    omega
  have hbound : data.length + 4 < 2 ^ 63 := by
    have hfile := file.length_lt
    rw [length_drop] at hlen
    omega
  obtain ⟨s, r', hfetch, hok, hat⟩ := fetch_spec hr hbound
  rw [if_neg (not_lt.mpr hlen)] at hok
  refine ⟨r', ?_, hat⟩
  rw [hdrop, take_left' (length_checksummed crc data)] at hfetch
  rw [readChecksummed, if_neg (by omega), hn, hfetch, map_some, verify_checksummed crc _ hok]

/-- A checksummed part that the file cuts short is reported as the end of the file. -/
theorem readChecksummed_of_short (crc : Crc) {n : UInt64} (hr : r.At file offset.toNat)
    (hshort : (file.contents.drop offset.toNat).length < n.toNat + 4) (hn : n.toNat + 4 < 2 ^ 63) :
    ∃ s r', r.readChecksummed crc offset n = some (.error s, r') ∧ s.code = .outOfRange := by
  obtain ⟨s, r', hfetch, hout, -⟩ := fetch_spec hr hn
  rw [if_pos hshort] at hout
  have hne : s.code ≠ .ok := by simp [hout]
  refine ⟨s, r', ?_, hout⟩
  rw [readChecksummed, if_neg (by omega), hfetch, map_some, verify, if_pos hne]

/-! ## One record -/

theorem toNat_add_of_lt {a b : UInt64} (h : a.toNat + b.toNat < 2 ^ 64) :
    (a + b).toNat = a.toNat + b.toNat := by
  rw [UInt64.toNat_add, Nat.mod_eq_of_lt h]

/-- The length field decodes to the length of the payload. -/
theorem decodeFixed64_lengthField (h : data.length < 2 ^ 63) :
    (decodeFixed64 (lengthField data)).toNat = data.length := by
  have hdecode := decodeFixed64_encodeFixed64 (UInt64.ofNat data.length) []
  rw [append_nil] at hdecode
  rw [lengthField, hdecode, UInt64.toNat_ofNat_of_lt' (h.trans (by norm_num))]

/-- A header that is in the file leads on to the payload read. -/
theorem readRecord_of_header (hr : r.At file offset.toNat)
    (hdrop : file.contents.drop offset.toNat = checksummed crc (lengthField data) ++ rest)
    (hdata : data.length < 2 ^ 63) :
    ∃ (r₁ : RecordReader) (n : UInt64), r₁.At file (offset + 12).toNat ∧
      n.toNat = data.length ∧ (offset + 12).toNat = offset.toNat + 12 ∧
      file.contents.drop (offset + 12).toNat = rest ∧
      r.readRecord crc offset =
        (r₁.readChecksummed crc (offset + 12) n).map (finishRecord offset n) := by
  have hlen : (lengthField data).length = 8 := length_lengthField data
  have hoffset : offset.toNat + 12 < 2 ^ 64 := by
    have hfile := file.length_lt
    have hcut := congrArg length hdrop
    rw [length_drop, length_append, length_checksummed] at hcut
    omega
  have hadd : (offset + 12).toNat = offset.toNat + 12 := toNat_add_of_lt hoffset
  obtain ⟨r₁, hread, hat⟩ := readChecksummed_of_append hr hdrop (n := 8) (by rw [hlen]; rfl)
  refine ⟨r₁, decodeFixed64 (lengthField data), by rwa [hadd], decodeFixed64_lengthField hdata,
    hadd, ?_, ?_⟩
  · rw [hadd, ← drop_drop, hdrop, drop_left' (by rw [length_checksummed, hlen])]
  · rw [readRecord, hread, bind_some]

/-- A complete record is returned and the offset moves past it. -/
theorem readRecord_of_append (hr : r.At file offset.toNat)
    (hdrop : file.contents.drop offset.toNat = recordBytes crc data ++ rest) :
    ∃ next r', r.readRecord crc offset = some (.ok data, next, r') ∧
      next.toNat = offset.toNat + recordSize data ∧ r'.At file next.toNat := by
  have hsize : offset.toNat + recordSize data < 2 ^ 63 := by
    have hfile := file.length_lt
    have hcut := congrArg length hdrop
    rw [length_drop, length_append, length_recordBytes] at hcut
    have hpos : 0 < recordSize data := by unfold recordSize; omega
    omega
  unfold recordSize at hsize ⊢
  obtain ⟨r₁, n, hat, hn, hadd, hrest, hread⟩ := readRecord_of_header hr hdrop (by omega)
  obtain ⟨r₂, hpayload, hat₂⟩ := readChecksummed_of_append hat hrest hn
  have hlen : (12 + n + 4 : UInt64).toNat = 12 + data.length + 4 := by
    have h12 : (12 + n : UInt64).toNat = 12 + data.length := by
      rw [← hn]
      exact toNat_add_of_lt (by rw [hn]; change 12 + data.length < 2 ^ 64; omega)
    rw [← h12]
    exact toNat_add_of_lt (by rw [h12]; change 12 + data.length + 4 < 2 ^ 64; omega)
  have hnext : (offset + (12 + n + 4)).toNat = offset.toNat + (12 + data.length + 4) := by
    rw [← hlen]
    exact toNat_add_of_lt (by omega)
  refine ⟨offset + (12 + n + 4), r₂, by rw [hread, hpayload, map_some, finishRecord], hnext, ?_⟩
  rw [hnext]
  rw [hadd] at hat₂
  rwa [← add_assoc, ← add_assoc]

/-- A file that ends inside the header, or before it, is reported as `OUT_OF_RANGE`. -/
theorem readRecord_of_short_header (crc : Crc) (hr : r.At file offset.toNat)
    (hshort : (file.contents.drop offset.toNat).length < 12) :
    ∃ s r', r.readRecord crc offset = some (.error s, offset, r') ∧ s.code = .outOfRange := by
  have h8 : (8 : UInt64).toNat = 8 := rfl
  obtain ⟨s, r', hread, hout⟩ := readChecksummed_of_short crc hr
    (by rw [h8]; omega) (by rw [h8]; norm_num)
  exact ⟨s, r', by rw [readRecord, hread, bind_some], hout⟩

/-- A file that ends inside the payload is reported as `DATA_LOSS`. -/
theorem readRecord_of_short_payload (hr : r.At file offset.toNat)
    (hdrop : file.contents.drop offset.toNat = checksummed crc (lengthField data) ++ rest)
    (hdata : data.length + 4 < 2 ^ 63) (hshort : rest.length < data.length + 4) :
    ∃ s r', r.readRecord crc offset = some (.error s, offset, r') ∧ s.code = .dataLoss := by
  obtain ⟨r₁, n, hat, hn, -, hrest, hread⟩ := readRecord_of_header hr hdrop (by omega)
  obtain ⟨s, r', hpayload, hout⟩ := readChecksummed_of_short crc hat
    (by rwa [hrest, hn]) (by rwa [hn])
  refine ⟨_, r', by rw [hread, hpayload, map_some, finishRecord], ?_⟩
  rw [if_pos hout, Status.code_dataLoss]

/-! ## Sequences of records -/

/-- The outcomes of reading complete records one after another from position `p`. -/
def delivered : Nat → List (List UInt8) → List (Except Status (List UInt8) × UInt64)
  | _, [] => []
  | p, d :: ds => (.ok d, UInt64.ofNat (p + recordSize d)) :: delivered (p + recordSize d) ds

/-- Reading a sequence of complete records leaves the reader behind them. -/
theorem readRecords_of_append (calls : Nat) {records : List (List UInt8)}
    (hr : r.At file offset.toNat)
    (hdrop : file.contents.drop offset.toNat = records.flatMap (recordBytes crc) ++ rest) :
    ∃ r' next, r'.At file next.toNat ∧ file.contents.drop next.toNat = rest ∧
      next.toNat = offset.toNat + (records.flatMap (recordBytes crc)).length ∧
      readRecords crc (records.length + calls) r offset =
        (readRecords crc calls r' next).map (delivered offset.toNat records ++ ·) := by
  induction records generalizing r offset with
  | nil => exact ⟨r, offset, hr, hdrop, rfl, by simp [delivered]⟩
  | cons d ds ih =>
    rw [flatMap_cons, append_assoc] at hdrop
    obtain ⟨mid, r₁, hread, hmid, hat⟩ := readRecord_of_append hr hdrop
    have hdrop₁ : file.contents.drop mid.toNat = ds.flatMap (recordBytes crc) ++ rest := by
      rw [hmid, ← drop_drop, hdrop, drop_left' (length_recordBytes crc d)]
    obtain ⟨r', next, hat', hrest, hnext, hreads⟩ := ih hat hdrop₁
    refine ⟨r', next, hat', hrest, ?_, ?_⟩
    · rw [hnext, hmid, flatMap_cons, length_append, length_recordBytes, add_assoc]
    · have hmid' : UInt64.ofNat (offset.toNat + recordSize d) = mid := by
        rw [← hmid, UInt64.ofNat_toNat]
      rw [length_cons, add_right_comm, readRecords, hread, bind_some, hreads,
        Option.map_map, delivered, hmid', ← hmid]
      rfl

/-- Every list of records is read back in order, each call leaving the offset of the
following record, and the next call reports the end of the file. -/
theorem readRecords_writeRecords (crc : Crc) (records : List (List UInt8))
    (file : RandomAccessFile) (hfile : file.contents = writeRecords crc records)
    (bufferSize : Int) : ∃ s, s.code = .outOfRange ∧
      readRecords crc (records.length + 1) (create file bufferSize) 0 =
        some (delivered 0 records ++ [(.error s, UInt64.ofNat file.contents.length)]) := by
  have hdrop : file.contents.drop (0 : UInt64).toNat = records.flatMap (recordBytes crc) ++ [] := by
    rw [append_nil, ← writeRecords_eq, ← hfile]
    rfl
  obtain ⟨r', next, hat, hrest, hnext, hreads⟩ :=
    readRecords_of_append 1 (at_create file bufferSize) hdrop
  obtain ⟨s, r'', hread, hout⟩ := readRecord_of_short_header crc hat (by rw [hrest]; norm_num)
  have hend : UInt64.ofNat file.contents.length = next := by
    rw [hfile, writeRecords_eq, ← UInt64.ofNat_toNat (x := next), hnext]
    simp
  refine ⟨s, hout, ?_⟩
  rw [hreads, readRecords, hread, hend]
  rfl

/-- A file of two records, one of them empty. -/
def twoRecordFile : RandomAccessFile where
  contents := writeRecords Crc.reference [[7], []]
  eofMessage := "EOF"
  length_lt := by
    rw [length_writeRecords]
    decide

/-- Both records are read back, and then the file ends. -/
theorem readRecords_twoRecordFile : ∃ s, s.code = .outOfRange ∧
      readRecords Crc.reference 3 (create twoRecordFile 5) 0 =
        some [(.ok [7], 17), (.ok [], 33),
          (.error s, UInt64.ofNat twoRecordFile.contents.length)] :=
  readRecords_writeRecords Crc.reference [[7], []] twoRecordFile rfl 5

end RecordReader

end Tension.Io
