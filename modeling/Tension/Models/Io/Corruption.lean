import Tension.Models.Io.Crc32c
import Tension.Models.Io.Record

/-!
# Corrupted records

A record whose bytes are changed in one place is reported as `DATA_LOSS`. A change of the length
field or of its checksum is noticed before the length is used.
-/

namespace Tension.Io

open Crc32c Endian List Option

/-- There are finitely many checksums, so every one is a masked one. -/
theorem Crc.mask_unmask (c : UInt32) : Crc.mask (Crc.unmask c) = c := by
  have hinjective : Function.Injective Crc.mask := Function.LeftInverse.injective Crc.unmask_mask
  obtain ⟨d, rfl⟩ := Finite.injective_iff_surjective.mp hinjective c
  rw [Crc.unmask_mask]

/-- Four bytes are determined by their number. -/
theorem decodeFixed32_injective {l l' : List UInt8} (hl : l.length = 4) (hl' : l'.length = 4)
    (h : decodeFixed32 l = decodeFixed32 l') : l = l' := by
  have hdecode (l : List UInt8) (hl : l.length = 4) : encodeLE 4 (decodeFixed32 l).toNat = l := by
    have hlt := decodeLE_lt l
    rw [hl] at hlt
    rw [decodeFixed32, take_of_length_le (by omega), UInt32.toNat_ofNat_of_lt' hlt, ← hl,
      encodeLE_decodeLE]
  rw [← hdecode l hl, ← hdecode l' hl', h]

namespace RecordReader

variable {crc : Crc} {data : List UInt8} {i : Nat} {b : UInt8}

section

variable (hcrc : IsCrc32c crc)
include hcrc

/-- The checks notice a change of one byte of a checksummed part. -/
theorem verify_corrupted (offset : Nat) {s : Status} (hs : s.code = .ok)
    (hi : i < (checksummed crc data).length) (hb : (checksummed crc data)[i] ≠ b) :
    verify crc offset data.length s ((checksummed crc data).set i b) =
      .error (.dataLoss ("corrupted record at " ++ toString offset)) := by
  suffices hne : Crc.unmask (decodeFixed32 (((checksummed crc data).set i b).drop data.length)) ≠
      crc.value (((checksummed crc data).set i b).take data.length) by
    rw [verify, if_neg (by simp [hs]), if_neg (by simp), if_pos hne]
  by_cases hdata : i < data.length
  · -- The stored checksum is that of the original bytes.
    have hset : (checksummed crc data).set i b =
        data.set i b ++ encodeFixed32 (maskedCrc crc data) := set_append_left _ _ hdata
    have hdrop : decodeFixed32 (((checksummed crc data).set i b).drop data.length) =
        maskedCrc crc data := by
      rw [hset]
      simpa using decodeFixed32_encodeFixed32 (maskedCrc crc data) []
    have hbyte : data[i] ≠ b := by
      simpa [checksummed, getElem_append_left hdata] using hb
    rw [hdrop, hset, take_left' (length_set ..), maskedCrc, Crc.unmask_mask]
    exact (hcrc.value_set hdata hbyte).symm
  · -- The bytes are the original ones.
    have hset : (checksummed crc data).set i b =
        data ++ (encodeFixed32 (maskedCrc crc data)).set (i - data.length) b :=
      set_append_right _ _ (by omega)
    rw [hset, drop_left, take_left]
    intro heq
    have hcode : decodeFixed32 ((encodeFixed32 (maskedCrc crc data)).set (i - data.length) b) =
        decodeFixed32 (encodeFixed32 (maskedCrc crc data)) := by
      have hround := decodeFixed32_encodeFixed32 (maskedCrc crc data) []
      rw [append_nil] at hround
      have hmask := congrArg Crc.mask heq
      rw [Crc.mask_unmask] at hmask
      rw [hround]
      exact hmask
    have hsame := decodeFixed32_injective (by simp) (by simp) hcode
    rw [length_checksummed] at hi
    have hplace : i - data.length < (encodeFixed32 (maskedCrc crc data)).length := by
      rw [length_encodeFixed32]
      omega
    apply hb
    have hget : (checksummed crc data)[i] = (encodeFixed32 (maskedCrc crc data))[i - data.length] :=
      getElem_append_right (by omega)
    have hbyte := congrArg (·[i - data.length]?) hsame
    simp only [getElem?_set_self hplace, getElem?_eq_getElem hplace, some.injEq] at hbyte
    rw [hget, hbyte]

/-- A checksummed part that is changed in one byte is reported as data loss. -/
theorem readChecksummed_corrupted {r : RecordReader} {file : RandomAccessFile} {offset n : UInt64}
    {rest : List UInt8} (hr : r.At file offset.toNat) (hi : i < (checksummed crc data).length)
    (hb : (checksummed crc data)[i] ≠ b)
    (hdrop : file.contents.drop offset.toNat = (checksummed crc data).set i b ++ rest)
    (hn : n.toNat = data.length) :
    ∃ s r', r.readChecksummed crc offset n = some (.error s, r') ∧ s.code = .dataLoss := by
  have hlength : ((checksummed crc data).set i b).length = data.length + 4 := by simp
  have hle : data.length + 4 ≤ (file.contents.drop offset.toNat).length := by
    rw [hdrop, length_append]
    omega
  have hbound : data.length + 4 < 2 ^ 63 := by
    have hfile := file.length_lt
    rw [length_drop] at hle
    omega
  obtain ⟨s, r', hfetch, hok, -⟩ := fetch_spec hr hbound
  rw [if_neg (not_lt.mpr hle)] at hok
  rw [hdrop, take_left' hlength] at hfetch
  have hbad := verify_corrupted hcrc offset.toNat hok hi hb
  refine ⟨_, r', ?_, Status.code_dataLoss ("corrupted record at " ++ toString offset.toNat)⟩
  rw [readChecksummed, if_neg (by omega), hn, hfetch, map_some, hbad]

/-- A record that is changed in one byte is reported as data loss by a reader that stands before
it, and the offset stays. -/
theorem readRecord_of_set {r : RecordReader} {file : RandomAccessFile} {offset : UInt64}
    {rest : List UInt8} (hr : r.At file offset.toNat) (hi : i < (recordBytes crc data).length)
    (hb : (recordBytes crc data)[i] ≠ b)
    (hdrop : file.contents.drop offset.toNat = (recordBytes crc data).set i b ++ rest) :
    ∃ s r', r.readRecord crc offset = some (.error s, offset, r') ∧ s.code = .dataLoss := by
  have hheader : (checksummed crc (lengthField data)).length = 12 := by simp
  have hi' := hi
  rw [length_recordBytes, recordSize] at hi'
  by_cases hfirst : i < (checksummed crc (lengthField data)).length
  · -- The first part is refused, so the length it holds is not used.
    rw [recordBytes, set_append_left _ _ hfirst, append_assoc] at hdrop
    simp only [recordBytes, getElem_append_left hfirst] at hb
    obtain ⟨s, r', hread, hloss⟩ := readChecksummed_corrupted hcrc (n := 8) hr hfirst hb hdrop
      (by rw [length_lengthField]; rfl)
    exact ⟨s, r', by rw [readRecord, hread, bind_some], hloss⟩
  · rw [recordBytes, set_append_right _ _ (by omega)] at hdrop
    simp only [recordBytes, getElem_append_right (le_of_not_gt hfirst)] at hb
    have hdata : data.length < 2 ^ 63 := by
      have hcut := congrArg length hdrop
      have hfile := file.length_lt
      simp only [length_drop, length_append, length_set, length_checksummed] at hcut
      omega
    obtain ⟨r₁, n, hat, hn, -, hrest, hread⟩ := readRecord_of_header hr hdrop hdata
    obtain ⟨s, r', hpayload, hloss⟩ := readChecksummed_corrupted hcrc hat
      (by rw [hheader, length_checksummed]; omega) hb hrest hn
    refine ⟨s, r', ?_, hloss⟩
    have hrange : s.code ≠ .outOfRange := by simp [hloss]
    rw [hread, hpayload, map_some, finishRecord, if_neg hrange]

end

/-- A record that was written anywhere in a file and is then changed in exactly one byte is
reported as data loss by every reader without a buffer, and the offset stays. -/
theorem readRecord_corrupted {crc crc' : Crc} (hcrc : IsCrc32c crc) (hcrc' : IsCrc32c crc')
    (before data after : List UInt8) {i : Nat} (hi : i < recordSize data) {b : UInt8}
    (hb : (writeRecord crc before data)[before.length + i]? ≠ some b) {r : RecordReader}
    (hr : r.bufferSize ≤ 0)
    (hfile : r.src.contents = (writeRecord crc before data ++ after).set (before.length + i) b) :
    ∃ s r', r.readRecord crc' (.ofNat before.length) =
      some (.error s, .ofNat before.length, r') ∧ s.code = .dataLoss := by
  have hlength : i < (recordBytes crc' data).length := by rwa [length_recordBytes]
  have hsame : recordBytes crc data = recordBytes crc' data := by
    simp [recordBytes, checksummed, maskedCrc, hcrc.value_eq, hcrc'.value_eq]
  rw [writeRecord_eq, hsame] at hb hfile
  rw [append_assoc, set_append_right _ _ (by omega), Nat.add_sub_cancel_left,
    set_append_left _ _ hlength] at hfile
  have hbound : before.length < 2 ^ 64 := by
    have hle := r.src.length_lt
    rw [hfile, length_append] at hle
    omega
  have hoffset : (UInt64.ofNat before.length).toNat = before.length :=
    UInt64.toNat_ofNat_of_lt' hbound
  have hbyte : (recordBytes crc' data)[i] ≠ b := by
    rw [getElem?_append_right (by omega), Nat.add_sub_cancel_left,
      getElem?_eq_getElem hlength] at hb
    exact fun h => hb (congrArg some h)
  have hat : r.At r.src (UInt64.ofNat before.length).toNat := ⟨rfl, fun h => by omega⟩
  exact readRecord_of_set hcrc' hat hlength hbyte (by rw [hoffset, hfile, drop_left])

/-- A record of one byte after another record, its payload replaced. -/
def corruptedFile : RandomAccessFile where
  contents := (writeRecord Crc.reference (recordBytes Crc.reference [7]) [9]).set (17 + 12) 8
  eofMessage := "EOF"
  length_lt := by
    rw [writeRecord_eq, List.length_set, List.length_append, length_recordBytes,
      length_recordBytes]
    decide

/-- The replaced payload is reported as lost data. -/
theorem readRecord_corruptedFile :
    ∃ s r', (create corruptedFile 0).readRecord Crc.reference 17 = some (.error s, 17, r') ∧
      s.code = .dataLoss := by
  have hcrc : IsCrc32c Crc.reference := fun c bytes => ⟨0, (extend_eq 0 c bytes).symm⟩
  exact readRecord_corrupted hcrc hcrc (recordBytes Crc.reference [7]) [9] []
    (i := 12) (b := 8) (by decide) (by decide +kernel) (by decide)
    (by rw [append_nil]; rfl)

end RecordReader

end Tension.Io
