import Tension.Core.Refill
import Mathlib.Tactic
import Tension.Models.Status

/-!
# Random access files and buffered input streams

`RandomAccessFile::Read` returns the bytes available and `OUT_OF_RANGE` when the end
of the file cuts the read short. `RandomAccessInputStream` adds a position and
`BufferedInputStream` a window of the bytes already read. The predicate `At` says
which file position a stream delivers next; one specification of `ReadNBytes` in
those terms covers every refill boundary.
-/

namespace Tension.Io

open List

/-- A file with its exact contents. The text of the end-of-file status belongs to the
implementation; positions are `int64`. -/
structure RandomAccessFile where
  /-- All bytes of the file. -/
  contents : List UInt8
  /-- The message of the status returned for a short read. -/
  eofMessage : String
  /-- Every position in the file is representable. -/
  length_lt : contents.length < 2 ^ 63

namespace RandomAccessFile

/-- `RandomAccessFile::Read` as its interface documents it. -/
def read (file : RandomAccessFile) (offset n : Nat) : Status × List UInt8 :=
  let data := (file.contents.drop offset).take n
  (if data.length = n then .ok else .outOfRange file.eofMessage, data)

/-- A read inside the file returns the requested bytes. -/
theorem read_of_le {file : RandomAccessFile} {offset n : Nat}
    (h : n ≤ (file.contents.drop offset).length) :
    file.read offset n = (.ok, (file.contents.drop offset).take n) := by
  have hlen : ((file.contents.drop offset).take n).length = n := by
    rw [length_take]
    omega
  rw [read, if_pos hlen]

/-- A read past the end returns the remaining bytes. -/
theorem read_of_lt {file : RandomAccessFile} {offset n : Nat}
    (h : (file.contents.drop offset).length < n) :
    file.read offset n = (.outOfRange file.eofMessage, file.contents.drop offset) := by
  have htake : (file.contents.drop offset).take n = file.contents.drop offset :=
    take_of_length_le h.le
  rw [read, htake, if_neg (by omega)]

end RandomAccessFile

/-- `RandomAccessInputStream`: a file and the next position. -/
structure RandomAccessInputStream where
  file : RandomAccessFile
  pos : Nat

/-- `RandomAccessInputStream::ReadNBytes`; `result` is untouched when the count is
negative. -/
def RandomAccessInputStream.readNBytes (stream : RandomAccessInputStream) (bytesToRead : Int)
    (result : List UInt8) : Status × List UInt8 × RandomAccessInputStream :=
  if bytesToRead < 0 then
    (.invalidArgument "Cannot read negative number of bytes", result, stream)
  else
    let r := stream.file.read stream.pos bytesToRead.toNat
    if r.1.code = .ok ∨ r.1.code = .outOfRange then
      let next := { stream with pos := stream.pos + r.2.length }
      if (r.2.length : Int) < bytesToRead then
        (.outOfRange "reached end of file", r.2, next)
      else (.ok, r.2, next)
    else (r.1, r.2, stream)

/-- A stream read takes the next bytes and reports whether it got all of them. -/
theorem RandomAccessInputStream.readNBytes_eq (stream : RandomAccessInputStream) (n : Nat)
    (result : List UInt8) : stream.readNBytes n result =
      (if (stream.file.contents.drop stream.pos).length < n then
        .outOfRange "reached end of file" else .ok,
      (stream.file.contents.drop stream.pos).take n,
      { stream with pos := stream.pos +
        ((stream.file.contents.drop stream.pos).take n).length }) := by
  have hn : ¬ ((n : Int) < 0) := by omega
  rw [readNBytes, if_neg hn, Int.toNat_natCast]
  by_cases h : (stream.file.contents.drop stream.pos).length < n
  · have hcast : ((stream.file.contents.drop stream.pos).length : Int) < n := by omega
    simp only [RandomAccessFile.read_of_lt h, Status.code_outOfRange, or_true, if_true,
      if_pos hcast, if_pos h, take_of_length_le h.le]
  · have hcast : ¬ (((stream.file.contents.drop stream.pos).take n).length : Int) < n := by
      rw [length_take]
      omega
    simp only [RandomAccessFile.read_of_le (Nat.not_lt.mp h), Status.code_ok, true_or, if_true,
      if_neg hcast, if_neg h]

/-- The end of a reading loop: an end-of-file status is dropped if all bytes were read. -/
theorem collects_finish {β : Type} {delivers : β → List UInt8 → Prop} {n : Nat} {rest : List UInt8}
    {r : Option (Status × List UInt8 × β)} (h : Refill.Collects delivers (fun s => s.code = .ok)
      (fun s => s.code = .outOfRange) n [] rest r) : ∃ s b, (r.map fun r =>
        if r.1.code = .outOfRange ∧ r.2.1.length = n then (.ok, r.2) else r) =
          some (s, rest.take n, b) ∧
      s.code = (if rest.length < n then .outOfRange else .ok) ∧ delivers b (rest.drop n) := by
  obtain ⟨s, b, rfl, hb, hs, hshort⟩ := h
  simp only [length_nil, Nat.sub_zero, nil_append] at hb hshort ⊢
  rw [Option.map_some, length_take]
  by_cases hlt : rest.length < n
  · rw [if_neg (by omega), if_pos hlt]
    exact ⟨_, _, rfl, hshort hlt, hb⟩
  · rw [if_neg hlt, min_eq_left (Nat.not_lt.mp hlt)]
    rcases hs with hok | hout
    · rw [if_neg (by simp [hok])]
      exact ⟨_, _, rfl, hok, hb⟩
    · rw [if_pos ⟨hout, rfl⟩]
      exact ⟨_, _, rfl, rfl, hb⟩

/-- `BufferedInputStream` over a file stream. -/
structure BufferedInputStream where
  inputStream : RandomAccessInputStream
  /-- `size_`, the number of bytes requested by a refill. -/
  size : Nat
  buf : List UInt8
  /-- `pos_`, the next byte of the buffer. -/
  pos : Nat
  /-- `limit_`, the end of the valid part of the buffer. -/
  limit : Nat
  fileStatus : Status

namespace BufferedInputStream

/-- A stream over a freshly opened file. -/
def create (file : RandomAccessFile) (size : Nat) : BufferedInputStream :=
  ⟨⟨file, 0⟩, size, [], 0, 0, .ok⟩

variable (b : BufferedInputStream)

/-- `BufferedInputStream::FillBuffer`. -/
def fillBuffer : Status × BufferedInputStream :=
  if b.fileStatus.code ≠ .ok then (b.fileStatus, { b with pos := 0, limit := 0 })
  else
    let (s, buf, inner) := b.inputStream.readNBytes b.size b.buf
    let next := { b with inputStream := inner, buf := buf, pos := 0, limit := buf.length }
    (s, if buf = [] then { next with fileStatus := s } else next)

/-- `bytes_to_copy` in `ReadNBytes`. -/
def copyCount (n have_ : Nat) : Nat := min (b.limit - b.pos) (n - have_)

/-- The loop of `BufferedInputStream::ReadNBytes`; `none` means that it did not end
within `fuel` iterations. -/
def readNBytesLoop (n : Nat) : Nat → Status → List UInt8 → BufferedInputStream →
    Option (Status × List UInt8 × BufferedInputStream)
  | 0, s, result, b => if result.length < n then none else some (s, result, b)
  | fuel + 1, s, result, b =>
    if result.length < n then
      let filled := if b.pos = b.limit then b.fillBuffer else (s, b)
      if b.pos = b.limit ∧ filled.2.limit = 0 then
        some (filled.1, result, { filled.2 with fileStatus := filled.1 })
      else
        let count := filled.2.copyCount n result.length
        readNBytesLoop n fuel filled.1 (result ++ (filled.2.buf.drop filled.2.pos).take count)
          { filled.2 with pos := filled.2.pos + count }
    else some (s, result, b)

/-- `BufferedInputStream::ReadNBytes`; every iteration copies a byte, so `bytesToRead`
iterations are enough. -/
def readNBytes (bytesToRead : Int) (result : List UInt8) :
    Option (Status × List UInt8 × BufferedInputStream) :=
  if bytesToRead < 0 then
    some (.invalidArgument ("Can't read a negative number of bytes: " ++ toString bytesToRead),
      result, b)
  else if b.fileStatus.code ≠ .ok ∧ 0 < bytesToRead then some (b.fileStatus, [], b)
  else
    (readNBytesLoop bytesToRead.toNat (bytesToRead.toNat + 1) .ok [] b).map fun r =>
      if r.1.code = .outOfRange ∧ r.2.1.length = bytesToRead.toNat then (.ok, r.2) else r

/-- The stream delivers `file` from position `p` on: the unread part of the buffer
followed by the unread part of the file. -/
structure At (b : BufferedInputStream) (file : RandomAccessFile) (p : Nat) : Prop where
  file_eq : b.inputStream.file = file
  size_pos : 0 < b.size
  pos_le : b.pos ≤ b.limit
  limit_le : b.limit ≤ b.buf.length
  window : (b.buf.take b.limit).drop b.pos ++ file.contents.drop b.inputStream.pos =
    file.contents.drop p
  status : b.fileStatus.code = .ok ∨
    b.fileStatus.code = .outOfRange ∧ file.contents.drop p = []

/-- A new stream starts at the beginning of the file. -/
theorem at_create (file : RandomAccessFile) {size : Nat} (h : 0 < size) :
    (create file size).At file 0 :=
  ⟨rfl, h, le_rfl, le_rfl, rfl, .inl rfl⟩

variable {b : BufferedInputStream} {file : RandomAccessFile} {p n : Nat}

section

variable (hb : b.At file p)
include hb

/-- Refilling an exhausted buffer either makes bytes available or reports the end of
the file. -/
theorem fillBuffer_spec (hpos : b.pos = b.limit) : b.fillBuffer.2.At file p ∧
      ((b.fillBuffer.2.limit = 0 ∧ b.fillBuffer.1.code = .outOfRange ∧
          file.contents.drop p = []) ∨
        (b.fillBuffer.2.pos < b.fillBuffer.2.limit ∧
          (b.fillBuffer.1.code = .ok ∨ b.fillBuffer.1.code = .outOfRange))) := by
  obtain ⟨rfl, hsize, hle, hlim, hwin, hst⟩ := hb
  have hempty : (b.buf.take b.limit).drop b.pos = [] := by
    rw [drop_eq_nil_iff, length_take]
    omega
  rw [hempty, nil_append] at hwin
  rw [fillBuffer]
  by_cases hok : b.fileStatus.code = .ok
  · rw [if_neg (by simpa using hok)]
    simp only [RandomAccessInputStream.readNBytes_eq]
    generalize hrest : b.inputStream.file.contents.drop b.inputStream.pos = rest at hwin ⊢
    have hlen : b.inputStream.file.contents.drop (b.inputStream.pos + (rest.take b.size).length) =
        rest.drop b.size := by
      rw [← drop_drop, hrest, length_take]
      rcases le_total b.size rest.length with h | h
      · rw [min_eq_left h]
      · rw [min_eq_right h, drop_length, drop_eq_nil_of_le h]
    by_cases hnil : rest.take b.size = []
    · have hr : rest = [] := (take_eq_nil_iff.mp hnil).resolve_left (by omega)
      subst hr
      simp only [take_nil, length_nil, if_pos hsize]
      exact ⟨⟨rfl, hsize, le_rfl, le_rfl, by simpa [hrest] using hwin,
        .inr ⟨rfl, hwin.symm⟩⟩, .inl ⟨by simp, rfl, hwin.symm⟩⟩
    · rw [if_neg hnil]
      refine ⟨⟨rfl, hsize, Nat.zero_le _, le_rfl, ?_, .inl hok⟩, .inr ⟨?_, ?_⟩⟩
      · rw [hlen, drop_zero, take_length, take_append_drop, hwin]
      · exact length_pos_iff.mpr hnil
      · split
        · exact .inr rfl
        · exact .inl rfl
  · obtain hout | ⟨hout, hend⟩ := hst
    · exact absurd hout hok
    · rw [if_pos hok]
      exact ⟨⟨rfl, hsize, le_rfl, Nat.zero_le _, hwin, .inr ⟨hout, hend⟩⟩, .inl ⟨rfl, hout, hend⟩⟩

/-- Copying out of the buffer advances the delivered position. -/
theorem At.advance {count : Nat} (hcount : b.pos + count ≤ b.limit) :
    (b.buf.drop b.pos).take count = (file.contents.drop p).take count ∧
      count ≤ (file.contents.drop p).length ∧
      { b with pos := b.pos + count }.At file (p + count) := by
  obtain ⟨hfile, hsize, hle, hlim, hwin, hst⟩ := hb
  have hlen : count ≤ ((b.buf.take b.limit).drop b.pos).length := by
    rw [length_drop, length_take]
    omega
  have hbuf : (b.buf.drop b.pos).take count = ((b.buf.take b.limit).drop b.pos).take count := by
    rw [drop_take, take_take, min_eq_left (by omega)]
  refine ⟨?_, ?_, ⟨hfile, hsize, hcount, hlim, ?_, ?_⟩⟩
  · rw [hbuf, ← hwin, take_append_of_le_length hlen]
  · rw [← hwin, length_append]
    omega
  · rw [← drop_drop, ← drop_drop, ← hwin, drop_append_of_le_length hlen]
  · rcases hst with hok | ⟨hout, hend⟩
    · exact .inl hok
    · exact .inr ⟨hout, by rw [← drop_drop, hend, drop_nil]⟩

/-- Positions from which the same bytes follow are the same. -/
theorem At.congr {q : Nat} (h : file.contents.drop p = file.contents.drop q) : b.At file q :=
  { hb with window := hb.window.trans h, status := h ▸ hb.status }

/-- Setting the file status to an end-of-file status at the end of the file. -/
theorem At.set_status (hend : file.contents.drop p = []) {s : Status} (hs : s.code = .outOfRange) :
    { b with fileStatus := s }.At file p :=
  { hb with status := .inr ⟨hs, hend⟩ }

end

/-- The file stream is inside its file. -/
def InnerInside (b : BufferedInputStream) : Prop :=
  b.inputStream.pos ≤ b.inputStream.file.contents.length

theorem InnerInside.fillBuffer (h : b.InnerInside) : b.fillBuffer.2.InnerInside := by
  rw [BufferedInputStream.fillBuffer]
  split
  · exact h
  · simp only [RandomAccessInputStream.readNBytes_eq]
    unfold InnerInside at h ⊢
    split <;>
      · simp only [length_take, length_drop]
        omega

/-- The stream delivers the bytes `rest`, and its file stream is inside the file if it was. -/
def Delivers (file : RandomAccessFile) (inside : Prop) (b : BufferedInputStream)
    (rest : List UInt8) : Prop :=
  ∃ p, b.At file p ∧ file.contents.drop p = rest ∧ (inside → b.InnerInside)

/-- One iteration of the reading loop. -/
theorem readNBytesLoop_round {inside : Prop} {fuel : Nat} {s : Status} {result rest : List UInt8}
    (hb : Delivers file inside b rest) (hlt : result.length < n)
    (hs : s.code = .ok ∨ s.code = .outOfRange) :
    Refill.Round (Delivers file inside) (·.code = .ok) (·.code = .outOfRange) n
      (readNBytesLoop n) fuel s result b rest := by
  obtain ⟨p, hb, rfl, hinside⟩ := hb
  have hcopy : ∀ (s₁ : Status) (b₁ : BufferedInputStream), b₁.At file p →
      (inside → b₁.InnerInside) → b₁.pos < b₁.limit → (s₁.code = .ok ∨ s₁.code = .outOfRange) →
      readNBytesLoop n (fuel + 1) s result b = readNBytesLoop n fuel s₁
        (result ++ (b₁.buf.drop b₁.pos).take (b₁.copyCount n result.length))
        { b₁ with pos := b₁.pos + b₁.copyCount n result.length } →
      Refill.Round (Delivers file inside) (·.code = .ok) (·.code = .outOfRange) n
        (readNBytesLoop n) fuel s result b (file.contents.drop p) := by
    intro s₁ b₁ hb₁ hinside₁ havail hs₁ heq
    have hcount : 0 < b₁.copyCount n result.length ∧
        b₁.copyCount n result.length ≤ n - result.length ∧
        b₁.pos + b₁.copyCount n result.length ≤ b₁.limit := by
      unfold copyCount
      omega
    obtain ⟨hwin, hlen, hnext⟩ := hb₁.advance hcount.2.2
    rw [hwin] at heq
    exact .copy heq hcount.1 hcount.2.1 hlen ⟨_, hnext, drop_drop.symm, hinside₁⟩ hs₁
  by_cases hpos : b.pos = b.limit
  · have hfilled : inside → b.fillBuffer.2.InnerInside := fun h => (hinside h).fillBuffer
    obtain ⟨hat, ⟨hzero, hcode, hend⟩ | ⟨havail, hcode⟩⟩ := fillBuffer_spec hb hpos
    · refine .stop ?_ hend ⟨p, hat.set_status hend hcode, hend, hfilled⟩ hcode
      rw [readNBytesLoop, if_pos hlt]
      simp [if_pos hpos, if_pos (And.intro hpos hzero)]
    · refine hcopy _ _ hat hfilled havail hcode ?_
      have hne : ¬ (b.pos = b.limit ∧ b.fillBuffer.2.limit = 0) := by omega
      rw [readNBytesLoop, if_pos hlt]
      simp [if_pos hpos, if_neg hne]
  · have hle := hb.pos_le
    refine hcopy s b hb hinside (by omega) hs ?_
    have hne : ¬ (b.pos = b.limit ∧ b.limit = 0) := by omega
    rw [readNBytesLoop, if_pos hlt]
    simp [if_neg hpos, if_neg hne]

variable (hb : b.At file p)
include hb

/-- `ReadNBytes` returns the next bytes and reports whether there were enough of them. -/
theorem readNBytes_spec (n : Nat) (result : List UInt8) :
    ∃ s b', b.readNBytes n result = some (s, (file.contents.drop p).take n, b') ∧
      s.code = (if (file.contents.drop p).length < n then .outOfRange else .ok) ∧
      b'.At file (p + n) ∧ (b.InnerInside → b'.InnerInside) := by
  have hloop : Refill.Collects (Delivers file b.InnerInside) _ _ n [] (file.contents.drop p)
      (readNBytesLoop n (n + 1) .ok [] b) :=
    Refill.collects_of_rounds
      (fun _ _ result _ hle => by rw [readNBytesLoop, if_neg (Nat.not_lt.mpr hle)])
      (fun _ _ _ _ _ hlt hb hs => readNBytesLoop_round hb hlt hs)
      ⟨p, hb, rfl, id⟩ (Nat.zero_le n) (Nat.lt_succ_self n) (.inl rfl)
  obtain ⟨s, b', hr, hs, q, hat, hq, hinside⟩ := collects_finish hloop
  have hneg : ¬ ((n : Int) < 0) := by omega
  rw [readNBytes, if_neg hneg, Int.toNat_natCast, hr]
  by_cases hstatus : b.fileStatus.code ≠ .ok ∧ 0 < (n : Int)
  · obtain ⟨hout, hend⟩ := hb.status.resolve_left hstatus.1
    rw [if_pos hstatus, hend, if_pos (by simpa using hstatus.2)]
    exact ⟨_, _, by rw [take_nil], hout, hb.congr (by rw [← drop_drop, hend, drop_nil]), id⟩
  · rw [if_neg hstatus]
    exact ⟨s, b', rfl, hs, hat.congr (hq.trans drop_drop), hinside⟩

end BufferedInputStream

end Tension.Io
