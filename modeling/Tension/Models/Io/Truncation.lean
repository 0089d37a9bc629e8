import Tension.Models.Io.Record

/-!
# Truncated record files

A proper prefix of a record file consists of complete records and a remainder that is
shorter than the next record. The complete records are read back in both modes of the
reader. A remainder of at least twelve bytes contains the header and is reported as
`DATA_LOSS`; a shorter one makes the header read itself fail with `OUT_OF_RANGE`, the
status that also stands for the end of the file.
-/

namespace Tension.Io

open List

/-- The records that are complete within the first `cut` bytes of their file. -/
def completeRecords : List (List UInt8) → Nat → List (List UInt8)
  | [], _ => []
  | d :: ds, cut =>
    if recordSize d ≤ cut then d :: completeRecords ds (cut - recordSize d) else []

/-- The number of bytes after the last complete record within the first `cut` bytes. -/
def remainder : List (List UInt8) → Nat → Nat
  | [], cut => cut
  | d :: ds, cut => if recordSize d ≤ cut then remainder ds (cut - recordSize d) else cut

/-- A proper prefix is its complete records followed by a proper prefix of the next
record. -/
theorem take_flatMap_recordBytes (crc : Crc) {records : List (List UInt8)} {cut : Nat}
    (hcut : cut < (records.flatMap (recordBytes crc)).length) :
    ∃ d ∈ records, remainder records cut < recordSize d ∧
      (records.flatMap (recordBytes crc)).take cut =
        (completeRecords records cut).flatMap (recordBytes crc) ++
          (recordBytes crc d).take (remainder records cut) := by
  induction records generalizing cut with
  | nil => exact absurd hcut (Nat.not_lt_zero cut)
  | cons d ds ih =>
    rw [flatMap_cons, length_append, length_recordBytes] at hcut
    rw [completeRecords, remainder, flatMap_cons, take_append, length_recordBytes]
    by_cases hle : recordSize d ≤ cut
    · obtain ⟨e, he, hlt, htake⟩ := ih
        (by omega : cut - recordSize d < (ds.flatMap (recordBytes crc)).length)
      refine ⟨e, mem_cons_of_mem d he, by rwa [if_pos hle], ?_⟩
      rw [if_pos hle, if_pos hle, htake, flatMap_cons, append_assoc,
        take_of_length_le (by rwa [length_recordBytes])]
    · refine ⟨d, mem_cons_self, by rw [if_neg hle]; omega, ?_⟩
      rw [if_neg hle, if_neg hle, Nat.sub_eq_zero_of_le (by omega), take_zero,
        append_nil, flatMap_nil, nil_append]

/-- What a reader of a truncated file should do: return the complete records, then
`OUT_OF_RANGE` exactly at a record boundary and `DATA_LOSS` inside a record. -/
def TruncationReported (crc : Crc) (records : List (List UInt8)) (cut : Nat)
    (r : RecordReader) : Prop :=
  ∃ s offset,
    RecordReader.readRecords crc ((completeRecords records cut).length + 1) r 0 =
      some (RecordReader.delivered 0 (completeRecords records cut) ++ [(.error s, offset)]) ∧
    (s.code = .outOfRange ↔ remainder records cut = 0) ∧
    (remainder records cut ≠ 0 → s.code = .dataLoss)

namespace RecordReader

/-- What a reader does report: the complete records are returned, and the status of the
next call depends on whether the remainder holds a whole header. -/
theorem readRecords_truncated (crc : Crc) {records : List (List UInt8)} {cut : Nat}
    (hlen : (writeRecords crc records).length < 2 ^ 63)
    (hcut : cut < (writeRecords crc records).length) {file : RandomAccessFile}
    (hfile : file.contents = (writeRecords crc records).take cut) (bufferSize : Int) : ∃ s offset,
      readRecords crc ((completeRecords records cut).length + 1) (create file bufferSize) 0 =
        some (delivered 0 (completeRecords records cut) ++ [(.error s, offset)]) ∧
      s.code = if remainder records cut < 12 then .outOfRange else .dataLoss := by
  rw [writeRecords_eq] at hlen hcut hfile
  obtain ⟨d, hd, hrem, htake⟩ := take_flatMap_recordBytes crc hcut
  have hsize : recordSize d ≤ (records.flatMap (recordBytes crc)).length := by
    rw [← length_recordBytes crc d]
    exact (sublist_flatten_of_mem (mem_map_of_mem hd)).length_le
  have hdrop : file.contents.drop (0 : UInt64).toNat =
      (completeRecords records cut).flatMap (recordBytes crc) ++
        (recordBytes crc d).take (remainder records cut) := by
    rw [← htake, ← hfile]
    rfl
  obtain ⟨r', next, hat, hrest, -, hreads⟩ :=
    readRecords_of_append 1 (at_create file bufferSize) hdrop
  have hlast : ∀ {s : Status} {r''}, r'.readRecord crc next = some (.error s, next, r'') →
      readRecords crc ((completeRecords records cut).length + 1) (create file bufferSize) 0 =
        some (delivered 0 (completeRecords records cut) ++ [(.error s, next)]) := by
    intro s r'' hread
    rw [hreads, readRecords, hread]
    rfl
  have hrestlen : (file.contents.drop next.toNat).length = remainder records cut := by
    rw [hrest, length_take, length_recordBytes]
    omega
  split
  · obtain ⟨s, r'', hread, hout⟩ := readRecord_of_short_header crc hat (by omega)
    exact ⟨s, next, hlast hread, hout⟩
  · have hheader : (checksummed crc (lengthField d)).length = 12 := by simp
    rw [recordBytes, take_append, take_of_length_le (by omega)] at hrest
    unfold recordSize at hrem hsize
    obtain ⟨s, r'', hread, hloss⟩ := readRecord_of_short_payload hat hrest (by omega)
      (by rw [length_take]; omega)
    exact ⟨s, next, hlast hread, hloss⟩

/-- Truncation is reported as it should be exactly when the cut leaves no part of a
header behind, for every list of records, proper prefix and buffer size. -/
theorem truncationReported_iff (crc : Crc) (records : List (List UInt8)) (cut : Nat)
    (hlen : (writeRecords crc records).length < 2 ^ 63)
    (hcut : cut < (writeRecords crc records).length) (file : RandomAccessFile)
    (hfile : file.contents = (writeRecords crc records).take cut) (bufferSize : Int) :
    TruncationReported crc records cut (create file bufferSize) ↔
      ¬ (0 < remainder records cut ∧ remainder records cut < 12) := by
  obtain ⟨s, offset, hreads, hcode⟩ := readRecords_truncated crc hlen hcut hfile bufferSize
  constructor
  · rintro ⟨s', offset', hreads', hiff, -⟩ ⟨hpos, hlt⟩
    have hs : s' = s := by
      rw [hreads, Option.some.injEq, append_cancel_left_eq] at hreads'
      simp only [cons.injEq, Prod.mk.injEq, Except.error.injEq] at hreads'
      exact hreads'.1.1.symm
    rw [hs, hcode, if_pos hlt] at hiff
    exact ne_of_gt hpos (hiff.mp rfl)
  · intro hheader
    refine ⟨s, offset, hreads, ?_, ?_⟩
    · rw [hcode]
      split
      · next hlt => exact ⟨fun _ => by omega, fun _ => rfl⟩
      · next hge => exact ⟨(fun h => by cases h), fun h => by omega⟩
    · intro hne
      rw [hcode, if_neg (by omega)]

/-- The first `cut` bytes of the file of one record. -/
def cutFile (cut : Nat) : RandomAccessFile where
  contents := (writeRecords Crc.reference [[7]]).take cut
  eofMessage := "EOF"
  length_lt := by
    have h : (writeRecords Crc.reference [[7]]).length = 17 := by
      rw [length_writeRecords]
      rfl
    rw [List.length_take, h]
    omega

/-- A file cut inside the header of its first record reads as an empty file. -/
theorem header_cut_is_outOfRange : readRecords Crc.reference 1 (create (cutFile 5) 0) 0 =
        some [(.error (.outOfRange "EOF"), 0)] ∧
      remainder [[7]] 5 = 5 ∧
      ¬ TruncationReported Crc.reference [[7]] 5 (create (cutFile 5) 0) := by
  have hread : readRecords Crc.reference 1 (create (cutFile 5) 0) 0 =
      some [(.error (.outOfRange "EOF"), 0)] := by rfl
  refine ⟨hread, by decide, ?_⟩
  rintro ⟨s, offset, hreads, hiff, -⟩
  have hlast := hread.symm.trans hreads
  have hs : Status.outOfRange "EOF" = s := by
    injection hlast with hcons
    injection hcons with hpair
    injection hpair with herror
    injection herror
  rw [← hs] at hiff
  exact absurd (hiff.mp rfl) (by decide)

/-- A cut inside the payload is reported in the buffered mode. -/
theorem payload_cut_is_reported :
    TruncationReported Crc.reference [[7]] 14 (create (cutFile 14) 3) := by
  have h : (writeRecords Crc.reference [[7]]).length = 17 := by
    rfl
  exact (truncationReported_iff Crc.reference [[7]] 14 (by omega) (by omega) (cutFile 14) rfl 3).mpr
    (by decide)

end RecordReader

end Tension.Io
