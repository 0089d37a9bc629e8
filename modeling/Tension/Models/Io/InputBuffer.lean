import Tension.Core.Transcript
import Tension.Models.Io.FileCursor
import Tension.Models.Io.InputStream

/-!
# Input buffers

`InputBuffer` keeps the bytes just before its position in the file. Seeks inside these bytes move
a pointer, all others drop them. A buffer answers every call as a cursor over the file does, with
one exception: an unterminated last line that is a single carriage return is reported as the end
of the file.
-/

namespace Tension.Io

open List

/-- `InputBuffer`; the bytes behind `limit_` are never read. -/
structure InputBuffer where
  file : RandomAccessFile
  /-- `file_pos_`, the next position to read from. -/
  filePos : Nat
  size : Nat
  /-- The bytes at `buf_`. -/
  buf : List UInt8
  /-- `pos_ - buf_`. -/
  pos : Nat
  /-- `limit_ - buf_`. -/
  limit : Nat

namespace InputBuffer

/-- The constructor. -/
def create (file : RandomAccessFile) (bufferBytes : Nat) : InputBuffer :=
  ⟨file, 0, bufferBytes, [], 0, 0⟩

variable (b : InputBuffer)

/-- `InputBuffer::FillBuffer`. -/
def fillBuffer : Status × InputBuffer :=
  let r := b.file.read b.filePos b.size
  (r.1, { b with buf := r.2, pos := 0, limit := r.2.length, filePos := b.filePos + r.2.length })

/-- The bytes from `pos_` to `limit_`. -/
def unread : List UInt8 := (b.buf.take b.limit).drop b.pos

/-- Removing a carriage return at the end of the result. -/
def chomp (result : List UInt8) : List UInt8 :=
  if result ≠ [] ∧ result.getLast? = some 0x0d then result.take (result.length - 1) else result

/-- The end of `InputBuffer::ReadLine` behind its loop. -/
def lastLine (s : Status) (result : List UInt8) : Status × List UInt8 :=
  (if s.code = .outOfRange ∧ chomp result ≠ [] then .ok else s, chomp result)

/-- The loop of `InputBuffer::ReadLine`; `none` means that it did not end within `fuel`
iterations. -/
def readLineLoop : Nat → List UInt8 → InputBuffer → Option (Status × List UInt8 × InputBuffer)
  | 0, _, _ => none
  | fuel + 1, result, b =>
    match b.unread.findIdx? (· == 0x0a) with
    | some resultLen =>
      some (.ok, chomp (result ++ b.unread.take resultLen),
        { b with pos := b.pos + resultLen + 1 })
    | none =>
      if b.fillBuffer.2.limit ≠ 0 then readLineLoop fuel (result ++ b.unread) b.fillBuffer.2
      else
        let r := lastLine b.fillBuffer.1 (result ++ b.unread)
        some (r.1, r.2, b.fillBuffer.2)

/-- `InputBuffer::ReadLine`; every iteration but the first and the last one reads a byte. -/
def readLine : Option (Status × List UInt8 × InputBuffer) :=
  readLineLoop (b.file.contents.length + 2) [] b

/-- `bytes_to_copy` and `bytes_to_advance`. -/
def stepCount (n done : Nat) : Nat := min (b.limit - b.pos) (n - done)

/-- The loop of `InputBuffer::ReadNBytes`; `none` means that it did not end within `fuel`
iterations. -/
def readNBytesLoop (n : Nat) : Nat → Status → List UInt8 → InputBuffer →
    Option (Status × List UInt8 × InputBuffer)
  | 0, _, _, _ => none
  | fuel + 1, status, result, b =>
    if result.length < n then
      let filled := if b.pos = b.limit then b.fillBuffer else (status, b)
      if b.pos = b.limit ∧ filled.2.limit = 0 then some (filled.1, result, filled.2)
      else
        let count := filled.2.stepCount n result.length
        readNBytesLoop n fuel filled.1 (result ++ (filled.2.buf.drop filled.2.pos).take count)
          { filled.2 with pos := filled.2.pos + count }
    else some (status, result, b)

/-- `InputBuffer::ReadNBytes`; every iteration but the last one copies a byte. -/
def readNBytes (bytesToRead : Int) :
    Option (Status × List UInt8 × InputBuffer) :=
  if bytesToRead < 0 then
    some (.invalidArgument ("Can't read a negative number of bytes: " ++ toString bytesToRead),
      [], b)
  else
    (readNBytesLoop bytesToRead.toNat (bytesToRead.toNat + 1) .ok [] b).map fun r =>
      if r.1.code = .outOfRange ∧ r.2.1.length = bytesToRead.toNat then (.ok, r.2) else r

/-- The loop of `InputBuffer::SkipNBytes`. -/
def skipNBytesLoop (n : Nat) : Nat → Status → Nat → InputBuffer →
    Option (Status × Nat × InputBuffer)
  | 0, _, _, _ => none
  | fuel + 1, s, bytesSkipped, b =>
    if bytesSkipped < n then
      let filled := if b.pos = b.limit then b.fillBuffer else (s, b)
      if b.pos = b.limit ∧ filled.2.limit = 0 then some (filled.1, bytesSkipped, filled.2)
      else
        let count := filled.2.stepCount n bytesSkipped
        skipNBytesLoop n fuel filled.1 (bytesSkipped + count)
          { filled.2 with pos := filled.2.pos + count }
    else some (s, bytesSkipped, b)

/-- `InputBuffer::SkipNBytes`. -/
def skipNBytes (bytesToSkip : Int) : Option (Status × InputBuffer) :=
  if bytesToSkip < 0 then
    some (.invalidArgument ("Can only skip forward, not " ++ toString bytesToSkip), b)
  else
    (skipNBytesLoop bytesToSkip.toNat (bytesToSkip.toNat + 1) .ok 0 b).map fun r =>
      if r.1.code = .outOfRange ∧ r.2.1 = bytesToSkip.toNat then (.ok, r.2.2) else (r.1, r.2.2)

/-- `InputBuffer::Seek`. -/
def seek (position : Int) : Status × InputBuffer :=
  if position < 0 then
    (.invalidArgument ("Seeking to a negative position: " ++ toString position), b)
  else
    let bufpos : Int := b.filePos - b.limit
    if bufpos ≤ position ∧ position < b.filePos then
      (.ok, { b with pos := (position - bufpos).toNat })
    else (.ok, { b with pos := 0, limit := 0, filePos := position.toNat })

/-- `InputBuffer::Tell`. -/
def tell : Int := b.filePos - (b.limit - b.pos : Nat)

/-! ## Positions -/

/-- The buffer holds the bytes of the file before `filePos`, and `p` is the position of the next
byte it delivers. -/
structure Located (b : InputBuffer) (file : RandomAccessFile) (p : Nat) : Prop where
  file_eq : b.file = file
  size_pos : 0 < b.size
  pos_le : b.pos ≤ b.limit
  limit_le : b.limit ≤ b.filePos
  filePos_le : b.filePos ≤ file.contents.length
  window : b.buf.take b.limit = (file.contents.drop (b.filePos - b.limit)).take b.limit
  filePos_eq : b.filePos = p + (b.limit - b.pos)

namespace Located

variable {b : InputBuffer} {file : RandomAccessFile} {p : Nat}

variable (h : b.Located file p)
include h

theorem le : p ≤ file.contents.length := by
  have hle := h.filePos_le
  have heq := h.filePos_eq
  omega

/-- `Tell` is the position. -/
theorem tell_eq : b.tell = p := by
  rw [tell, h.filePos_eq]
  omega

/-- The unread bytes are the next bytes of the file. -/
theorem unread_eq : b.unread = (file.contents.drop p).take (b.limit - b.pos) := by
  have heq := h.filePos_eq
  have hpos := h.pos_le
  have hlimit := h.limit_le
  have hp : b.filePos - b.limit + b.pos = p := by omega
  rw [unread, h.window, drop_take, drop_drop, hp]

theorem length_unread : b.unread.length = b.limit - b.pos := by
  have heq := h.filePos_eq
  have hle := h.filePos_le
  rw [h.unread_eq, length_take, length_drop]
  omega

/-- The bytes behind the unread ones. -/
theorem unread_append : b.unread ++ file.contents.drop b.filePos = file.contents.drop p := by
  rw [h.unread_eq, h.filePos_eq, ← drop_drop, take_append_drop]

/-- Moving the pointer over unread bytes. -/
theorem advance {count : Nat} (hcount : b.pos + count ≤ b.limit) :
    { b with pos := b.pos + count }.Located file (p + count) := by
  have heq := h.filePos_eq
  exact { h with
    pos_le := hcount
    filePos_eq := by
      simp only
      omega }

/-- The bytes copied out of the buffer are the next bytes of the file. -/
theorem copied {count : Nat} (hcount : b.pos + count ≤ b.limit) :
    (b.buf.drop b.pos).take count = (file.contents.drop p).take count := by
  have hunread : (b.buf.drop b.pos).take count = b.unread.take count := by
    rw [unread, drop_take, take_take, min_eq_left (by omega)]
  rw [hunread, h.unread_eq, take_take, min_eq_left (by omega)]

/-- A refill drops the unread bytes and reads the next ones. -/
theorem fillBuffer : b.fillBuffer.2.Located file b.filePos ∧
      b.fillBuffer.2.limit = min b.size (file.contents.length - b.filePos) ∧
      b.fillBuffer.2.pos = 0 ∧ b.fillBuffer.2.filePos = b.filePos + b.fillBuffer.2.limit ∧
      b.fillBuffer.1.code =
        (if file.contents.length < b.filePos + b.size then .outOfRange else .ok) := by
  obtain ⟨rfl, hsize, -, -, hle, -, heq⟩ := h
  have hlength : ((b.file.contents.drop b.filePos).take b.size).length =
      min b.size (b.file.contents.length - b.filePos) := by
    rw [length_take, length_drop]
  simp only [InputBuffer.fillBuffer, RandomAccessFile.read]
  refine ⟨⟨rfl, hsize, Nat.zero_le _, ?_, ?_, ?_, ?_⟩, hlength, trivial, trivial, ?_⟩
  · exact Nat.le_add_left _ _
  · dsimp only
    omega
  · rw [take_length, Nat.add_sub_cancel, hlength]
    rcases le_total b.size (b.file.contents.length - b.filePos) with hle | hge
    · rw [min_eq_left hle]
    · rw [min_eq_right hge, take_of_length_le (by rw [length_drop]; exact hge),
        take_of_length_le (by rw [length_drop])]
  · rw [Nat.sub_zero]
  · split
    · rw [if_neg (by omega), Status.code_ok]
    · rw [if_pos (by omega), Status.code_outOfRange]

end Located

theorem located_create (file : RandomAccessFile) {size : Nat} (h : 0 < size) :
    (create file size).Located file 0 :=
  ⟨rfl, h, le_rfl, le_rfl, Nat.zero_le _, rfl, rfl⟩

/-! ## Reading and skipping bytes -/

variable {b : InputBuffer} {file : RandomAccessFile} {p fuel : Nat} {s : Status}
  {result unread rest : List UInt8}

/-- After the refill of an exhausted buffer there are bytes to copy, unless the file is at its
end. -/
theorem Located.refill (h : b.Located file p) (hpos : b.pos = b.limit) :
    b.fillBuffer.2.Located file p ∧
      (b.fillBuffer.1.code = .ok ∨ b.fillBuffer.1.code = .outOfRange) ∧
      (b.fillBuffer.2.limit = 0 → b.fillBuffer.1.code = .outOfRange ∧
        p = file.contents.length) ∧
      (b.fillBuffer.2.limit ≠ 0 → b.fillBuffer.2.pos < b.fillBuffer.2.limit) := by
  obtain ⟨hfilled, hlimit, hzero, -, hcode⟩ := h.fillBuffer
  have heq := h.filePos_eq
  have hle := h.filePos_le
  have hsize := h.size_pos
  have hp : b.filePos = p := by omega
  rw [hp] at hfilled hlimit hcode
  refine ⟨hfilled, ?_, fun hend => ⟨?_, by omega⟩, by omega⟩
  · rw [hcode]
    split
    · exact .inr rfl
    · exact .inl rfl
  · rw [hcode, if_pos (by omega)]

/-- The buffer delivers the bytes `rest`. -/
def Delivers (file : RandomAccessFile) (b : InputBuffer) (rest : List UInt8) : Prop :=
  ∃ p, b.Located file p ∧ file.contents.drop p = rest

/-- One iteration of the reading loop. -/
theorem readNBytesLoop_round {n : Nat} (h : Delivers file b rest) (hlt : result.length < n)
    (hs : s.code = .ok ∨ s.code = .outOfRange) :
    Refill.Round (Delivers file) (·.code = .ok) (·.code = .outOfRange) n (readNBytesLoop n) fuel s
      result b rest := by
  obtain ⟨p, h, rfl⟩ := h
  have hcopy : ∀ (s₁ : Status) (b₁ : InputBuffer), b₁.Located file p → b₁.pos < b₁.limit →
      (s₁.code = .ok ∨ s₁.code = .outOfRange) →
      readNBytesLoop n (fuel + 1) s result b = readNBytesLoop n fuel s₁
        (result ++ (b₁.buf.drop b₁.pos).take (b₁.stepCount n result.length))
        { b₁ with pos := b₁.pos + b₁.stepCount n result.length } →
      Refill.Round (Delivers file) (·.code = .ok) (·.code = .outOfRange) n (readNBytesLoop n) fuel s
        result b (file.contents.drop p) := by
    intro s₁ b₁ hb₁ havail hs₁ heq
    have hcount : 0 < b₁.stepCount n result.length ∧
        b₁.stepCount n result.length ≤ n - result.length ∧
        b₁.pos + b₁.stepCount n result.length ≤ b₁.limit := by
      unfold stepCount
      omega
    have hnext := hb₁.advance hcount.2.2
    have hle := hnext.le
    rw [hb₁.copied hcount.2.2] at heq
    exact .copy heq hcount.1 hcount.2.1 (by rw [length_drop]; omega) ⟨_, hnext, drop_drop.symm⟩ hs₁
  by_cases hpos : b.pos = b.limit
  · obtain ⟨hfilled, hcode, hend, havail⟩ := h.refill hpos
    by_cases hzero : b.fillBuffer.2.limit = 0
    · obtain ⟨hout, rfl⟩ := hend hzero
      refine .stop ?_ drop_length ⟨_, hfilled, drop_length⟩ hout
      rw [readNBytesLoop, if_pos hlt]
      simp [if_pos hpos, if_pos (And.intro hpos hzero)]
    · refine hcopy _ _ hfilled (havail hzero) hcode ?_
      have hne : ¬ (b.pos = b.limit ∧ b.fillBuffer.2.limit = 0) := fun hboth => hzero hboth.2
      rw [readNBytesLoop, if_pos hlt]
      simp [if_pos hpos, if_neg hne]
  · have hle := h.pos_le
    refine hcopy s b h (by omega) hs ?_
    have hne : ¬ (b.pos = b.limit ∧ b.limit = 0) := fun hboth => hpos hboth.1
    rw [readNBytesLoop, if_pos hlt]
    simp [if_neg hpos, if_neg hne]

section

variable (h : b.Located file p)
include h

/-- `ReadNBytes` moves the buffer like a cursor. -/
theorem Located.readNBytes (n : Nat) :
    ∃ s b', b.readNBytes n = some (s, (file.contents.drop p).take n, b') ∧
      s.code = (if file.contents.length < p + n then .outOfRange else .ok) ∧
      b'.Located file (min (p + n) file.contents.length) := by
  have hloop : Refill.Collects (Delivers file) _ _ n [] (file.contents.drop p)
      (readNBytesLoop n (n + 1) .ok [] b) :=
    Refill.collects_of_rounds
      (fun _ _ result _ hle => by rw [readNBytesLoop, if_neg (Nat.not_lt.mpr hle)])
      (fun _ _ _ _ _ hlt h hs => readNBytesLoop_round h hlt hs)
      ⟨p, h, rfl⟩ (Nat.zero_le n) (Nat.lt_succ_self n) (.inl rfl)
  obtain ⟨s, b', hr, hs, q, hb', hq⟩ := collects_finish hloop
  have hle := h.le
  have hle' := hb'.le
  have hlength := congrArg length hq
  rw [length_drop] at hs
  rw [length_drop, length_drop, length_drop] at hlength
  obtain rfl : q = min (p + n) file.contents.length := by omega
  rw [InputBuffer.readNBytes, Int.toNat_natCast, hr]
  exact ⟨s, b', rfl, hs.trans (if_congr (by omega) rfl rfl), hb'⟩

/-- Skipping is reading without keeping the bytes. -/
theorem skipNBytesLoop_eq {n : Nat} (result : List UInt8) :
    skipNBytesLoop n fuel s result.length b =
      (readNBytesLoop n fuel s result b).map fun r => (r.1, r.2.1.length, r.2.2) := by
  induction fuel generalizing s result b p with
  | zero => rfl
  | succ fuel ih =>
    obtain ⟨filled, hfilled, hlocated⟩ : ∃ filled,
        (if b.pos = b.limit then b.fillBuffer else (s, b)) = filled ∧ filled.2.Located file p := by
      refine ⟨_, rfl, ?_⟩
      split
      · next hpos => exact (h.refill hpos).1
      · exact h
    rw [skipNBytesLoop, readNBytesLoop, hfilled]
    split
    · dsimp only
      split
      · rfl
      have hcount : filled.2.pos + filled.2.stepCount n result.length ≤ filled.2.limit := by
        have hle := hlocated.pos_le
        unfold stepCount
        omega
      have hnext := hlocated.advance hcount
      have hle := hnext.le
      have hlen : (result ++ (filled.2.buf.drop filled.2.pos).take
          (filled.2.stepCount n result.length)).length =
          result.length + filled.2.stepCount n result.length := by
        rw [hlocated.copied hcount, length_append, length_take, length_drop]
        omega
      rw [← ih hnext _, hlen]
    · rfl

/-- `SkipNBytes` moves the buffer like a cursor. -/
theorem Located.skipNBytes (n : Nat) : ∃ s b', b.skipNBytes n = some (s, b') ∧
      s.code = (if file.contents.length < p + n then .outOfRange else .ok) ∧
      b'.Located file (min (p + n) file.contents.length) := by
  have hneg : ¬ ((n : Int) < 0) := by omega
  have hskip : b.skipNBytes n = (b.readNBytes n).map fun r => (r.1, r.2.2) := by
    have hloop : skipNBytesLoop n (n + 1) .ok 0 b =
        (readNBytesLoop n (n + 1) .ok [] b).map fun r => (r.1, r.2.1.length, r.2.2) :=
      skipNBytesLoop_eq h []
    rw [InputBuffer.skipNBytes, InputBuffer.readNBytes, if_neg hneg, if_neg hneg,
      Int.toNat_natCast, hloop, Option.map_map, Option.map_map]
    refine Option.map_congr fun r _ => ?_
    simp only [Function.comp_apply]
    split
    · rfl
    · rfl
  obtain ⟨s, b', hr, hs, hb'⟩ := h.readNBytes n
  rw [hskip, hr]
  exact ⟨s, b', rfl, hs, hb'⟩

end

/-! ## Reading lines -/

/-- The result without its carriage return. -/
theorem chomp_eq (result : List UInt8) : chomp result = FileCursor.stripReturn result := by
  rw [FileCursor.stripReturn, dropLast_eq_take]
  refine if_congr ⟨And.right, fun h => ⟨?_, h⟩⟩ rfl rfl
  rintro rfl
  cases h

/-- A newline in the unread bytes ends the line. -/
theorem line_append_of_some {k : Nat} (h : unread.findIdx? (· == 0x0a) = some k) :
    FileCursor.line (unread ++ rest) = unread.take k ∧ k < unread.length := by
  obtain ⟨hlt, hindex⟩ := findIdx?_eq_some_iff_findIdx_eq.mp h
  have hline : FileCursor.line unread = unread.take k := by
    rw [FileCursor.line, takeWhile_eq_take_findIdx_not, ← hindex]
    simp [bne]
  have hshort : (unread.take k).length ≠ unread.length := by
    rw [length_take]
    omega
  rw [FileCursor.line] at hline
  rw [FileCursor.line, takeWhile_append, hline, if_neg hshort]
  exact ⟨rfl, hlt⟩

/-- Without a newline in the unread bytes the line goes on behind them. -/
theorem line_append_of_none (h : unread.findIdx? (· == 0x0a) = none) :
    FileCursor.line (unread ++ rest) = unread ++ FileCursor.line rest := by
  rw [findIdx?_eq_none_iff] at h
  refine takeWhile_append_of_pos fun a ha => ?_
  simp [bne, h a ha]

/-- The status of a line: only an empty last line is out of range. -/
def lineCode (rest line : List UInt8) : Code :=
  if 0x0a ∈ rest ∨ line ≠ [] then .ok else .outOfRange

theorem lineCode_append_of_some {k : Nat}
    (h : unread.findIdx? (· == 0x0a) = some k) (line : List UInt8) :
    lineCode (unread ++ rest) line = .ok := by
  have hany : unread.any (· == 0x0a) = true := by rw [← findIdx?_isSome, h, Option.isSome_some]
  obtain ⟨a, ha, hnewline⟩ := any_eq_true.mp hany
  exact if_pos (.inl (mem_append_left _ (eq_of_beq hnewline ▸ ha)))

theorem lineCode_append_of_none (h : unread.findIdx? (· == 0x0a) = none) (line : List UInt8) :
    lineCode (unread ++ rest) line = lineCode rest line := by
  rw [findIdx?_eq_none_iff] at h
  refine if_congr (or_congr_left ?_) rfl rfl
  rw [mem_append, or_iff_right]
  intro hunread
  simpa using h _ hunread

/-- The last line, when the file has no more bytes. -/
theorem lastLine_eq (hs : s.code = .outOfRange) (result : List UInt8) :
    (lastLine s result).2 = FileCursor.stripReturn result ∧
      (lastLine s result).1.code = lineCode [] (FileCursor.stripReturn result) := by
  rw [lastLine, chomp_eq, lineCode]
  refine ⟨rfl, ?_⟩
  by_cases h : FileCursor.stripReturn result = []
  · rw [if_neg (by simp [h]), if_neg (by simp [h]), hs]
  · rw [if_pos ⟨hs, h⟩, if_pos (.inr h), Status.code_ok]

variable (h : b.Located file p)
include h

/-- The loop of `ReadLine` ends with the line, wherever the refills are. -/
theorem readLineLoop_spec (hfuel : file.contents.length < b.filePos + fuel) (result : List UInt8) :
    ∃ s b', readLineLoop fuel result b =
        some (s, FileCursor.stripReturn (result ++ FileCursor.line (file.contents.drop p)), b') ∧
      s.code = lineCode (file.contents.drop p)
        (FileCursor.stripReturn (result ++ FileCursor.line (file.contents.drop p))) ∧
      b'.Located file (min (p + (FileCursor.line (file.contents.drop p)).length + 1)
        file.contents.length) := by
  induction fuel generalizing result b p with
  | zero =>
    have hle := h.filePos_le
    omega
  | succ fuel ih =>
    have hlength := h.length_unread
    have heq := h.filePos_eq
    have hle := h.filePos_le
    rw [← h.unread_append, readLineLoop]
    cases hindex : b.unread.findIdx? (· == 0x0a) with
    | some k =>
      obtain ⟨hline, hlt⟩ := @line_append_of_some _ (file.contents.drop b.filePos) _ hindex
      have hnext : { b with pos := b.pos + k + 1 }.Located file (p + k + 1) :=
        h.advance (by omega : b.pos + (k + 1) ≤ b.limit)
      dsimp only
      rw [hline, chomp_eq, lineCode_append_of_some hindex, length_take, min_eq_left hlt.le,
        min_eq_left hnext.le]
      exact ⟨_, _, rfl, rfl, hnext⟩
    | none =>
      obtain ⟨hfilled, hlimit, -, hfilePos, hcode⟩ := h.fillBuffer
      have hsize := h.size_pos
      dsimp only
      rw [line_append_of_none hindex, ← append_assoc, lineCode_append_of_none hindex]
      by_cases hend : b.fillBuffer.2.limit = 0
      · have hout : b.fillBuffer.1.code = .outOfRange := by
          rw [hcode, if_pos (by omega)]
        have hfile : b.filePos = file.contents.length := by omega
        rw [hfile] at hfilled
        obtain ⟨hlast, hcode⟩ := lastLine_eq hout (result ++ b.unread)
        have hdrop : file.contents.drop b.filePos = [] := by rw [hfile, drop_length]
        have hnil : FileCursor.line [] = [] := rfl
        rw [if_neg (not_not.mpr hend), hdrop, hnil, append_nil, append_nil, min_eq_right (by omega)]
        exact ⟨_, _, by rw [hlast], hcode, hfilled⟩
      · obtain ⟨s, b', hr, hs, hb'⟩ := ih hfilled (by omega) (result ++ b.unread)
        have hpos : p + (b.unread ++ FileCursor.line (file.contents.drop b.filePos)).length + 1 =
            b.filePos + (FileCursor.line (file.contents.drop b.filePos)).length + 1 := by
          rw [length_append]
          omega
        rw [if_pos hend, hpos]
        exact ⟨s, b', hr, hs, hb'⟩

/-- `ReadLine` moves the buffer like a cursor. -/
theorem Located.readLine : ∃ s b', b.readLine =
        some (s, FileCursor.stripReturn (FileCursor.line (file.contents.drop p)), b') ∧
      s.code = lineCode (file.contents.drop p)
        (FileCursor.stripReturn (FileCursor.line (file.contents.drop p))) ∧
      b'.Located file (min (p + (FileCursor.line (file.contents.drop p)).length + 1)
        file.contents.length) := by
  have hfuel : file.contents.length < b.filePos + (file.contents.length + 2) := by omega
  rw [InputBuffer.readLine, h.file_eq]
  simpa using readLineLoop_spec h hfuel []

/-! ## Seeking -/

/-- `Seek` to an offset within the file. -/
theorem Located.seek {q : Nat} (hq : q ≤ file.contents.length) :
    (b.seek q).1.code = .ok ∧ (b.seek q).2.Located file q := by
  have hneg : ¬ ((q : Int) < 0) := by omega
  obtain ⟨hfile, hsize, hpos, hlimit, hle, hwindow, heq⟩ := h
  rw [InputBuffer.seek, if_neg hneg]
  dsimp only
  split
  · exact ⟨rfl, hfile, hsize, by simp only; omega, hlimit, hle, hwindow, by simp only; omega⟩
  · exact ⟨rfl, hfile, hsize, le_rfl, Nat.zero_le _, by simpa using hq, by simp, by simp⟩

end InputBuffer

/-! ## Runs -/

/-- The calls of an input buffer. -/
inductive BufferCall where
  | readNBytes (bytesToRead : Int)
  | skipNBytes (bytesToSkip : Int)
  | seek (position : Int)
  | readLine
  | tell
  deriving DecidableEq, Repr

/-- Seeks stay within the file. -/
def BufferCall.Within (length : Nat) : BufferCall → Prop
  | .seek position => position ≤ length
  | _ => True

/-- The answer of the cursor. -/
def FileCursor.buffer (contents : List UInt8) (p : Nat) : BufferCall → Option (Answer × Nat)
  | .readNBytes n => some (readNBytes contents p n)
  | .skipNBytes n => some (skipNBytes contents p n)
  | .seek position => some (seek contents p position)
  | .readLine => some (readLine contents p)
  | .tell => some (⟨.ok, [], p⟩, p)

namespace InputBuffer

/-- What the caller sees of a call. -/
def answer (s : Status) (bytes : List UInt8) (b : InputBuffer) : Answer × InputBuffer :=
  (⟨s.code, bytes, b.tell⟩, b)

/-- The answer of the buffer; `none` means that the call does not return. -/
def call (b : InputBuffer) : BufferCall → Option (Answer × InputBuffer)
  | .readNBytes n => (b.readNBytes n).map fun r => answer r.1 r.2.1 r.2.2
  | .skipNBytes n => (b.skipNBytes n).map fun r => answer r.1 [] r.2
  | .seek position => some (answer (b.seek position).1 [] (b.seek position).2)
  | .readLine => b.readLine.map fun r => answer r.1 r.2.1 r.2.2
  | .tell => some (answer .ok [] b)

/-- A `ReadLine` is not issued where a single carriage return is all that is left. -/
def NoLoneReturn (b : InputBuffer) (c : BufferCall) : Prop :=
  c = .readLine → b.file.contents.drop b.tell.toNat ≠ [0x0d]

variable {b : InputBuffer} {file : RandomAccessFile} {p : Nat}

theorem answer_eq (h : b.Located file p)
    (s : Status) (bytes : List UInt8) : answer s bytes b = (⟨s.code, bytes, p⟩, b) := by
  rw [answer, h.tell_eq]

/-- A buffer that went where the cursor goes, with the cursor's code. -/
theorem answer_moveTo {q : Nat} {s : Status}
    (hs : s.code = if file.contents.length < q then .outOfRange else .ok)
    (h : b.Located file (min q file.contents.length)) (bytes : List UInt8) :
    answer s bytes b = ((FileCursor.moveTo file.contents q bytes).1, b) := by
  rw [answer_eq h, hs, FileCursor.moveTo]

/-- Every call but `ReadLine` answers as the cursor does and moves like it. -/
theorem call_of_ne {c : BufferCall}
    (h : b.Located file p) (hwithin : c.Within file.contents.length) (hc : c ≠ .readLine) :
    ∃ o b' p', b.call c = some (o, b') ∧ FileCursor.buffer file.contents p c = some (o, p') ∧
      b'.Located file p' := by
  cases c with
  | readNBytes n =>
    rw [call, FileCursor.buffer, FileCursor.readNBytes]
    rcases Int.lt_or_le n 0 with hneg | hnonneg
    · rw [InputBuffer.readNBytes, if_pos hneg, if_pos hneg, Option.map_some, answer_eq h]
      exact ⟨_, b, p, rfl, rfl, h⟩
    · obtain ⟨n, rfl⟩ := Int.eq_ofNat_of_zero_le hnonneg
      obtain ⟨s, b', hr, hs, hb'⟩ := h.readNBytes n
      rw [hr, Option.map_some, answer_moveTo hs hb']
      exact ⟨_, b', _, rfl, rfl, hb'⟩
  | skipNBytes n =>
    rw [call, FileCursor.buffer, FileCursor.skipNBytes]
    rcases Int.lt_or_le n 0 with hneg | hnonneg
    · rw [InputBuffer.skipNBytes, if_pos hneg, if_pos hneg, Option.map_some, answer_eq h]
      exact ⟨_, b, p, rfl, rfl, h⟩
    · obtain ⟨n, rfl⟩ := Int.eq_ofNat_of_zero_le hnonneg
      obtain ⟨s, b', hr, hs, hb'⟩ := h.skipNBytes n
      rw [hr, Option.map_some, answer_moveTo hs hb']
      exact ⟨_, _, _, rfl, rfl, hb'⟩
  | seek position =>
    rw [call, FileCursor.buffer, FileCursor.seek]
    rcases Int.lt_or_le position 0 with hneg | hnonneg
    · rw [InputBuffer.seek, if_pos hneg, if_pos hneg, answer_eq h]
      exact ⟨_, b, p, rfl, rfl, h⟩
    obtain ⟨q, rfl⟩ := Int.eq_ofNat_of_zero_le hnonneg
    have hq : q ≤ file.contents.length := Int.ofNat_le.mp hwithin
    obtain ⟨hs, hb'⟩ := h.seek hq
    have hmin : (b.seek q).2.Located file (min q file.contents.length) := by
      rwa [min_eq_left hq]
    rw [answer_moveTo (hs.trans (if_neg (by omega)).symm) hmin]
    exact ⟨_, _, _, rfl, rfl, hmin⟩
  | readLine => exact absurd rfl hc
  | tell =>
    rw [call, answer_eq h]
    exact ⟨_, _, _, rfl, rfl, h⟩

/-- Stripping leaves nothing only of an empty line and of a single carriage return. -/
theorem stripReturn_eq_nil_iff {line : List UInt8} :
    FileCursor.stripReturn line = [] ↔ line = [] ∨ line = [0x0d] := by
  rw [FileCursor.stripReturn]
  split
  · next hlast =>
    obtain ⟨line, rfl⟩ := getLast?_eq_some_iff.mp hlast
    simp
  · next hlast =>
    constructor
    · exact Or.inl
    · rintro (rfl | rfl)
      · rfl
      · exact absurd rfl hlast

/-- The code of a line is the cursor's, unless a single carriage return is left. -/
theorem lineCode_eq_ok_iff {rest : List UInt8} (h : rest ≠ []) :
    lineCode rest (FileCursor.stripReturn (FileCursor.line rest)) = .ok ↔ rest ≠ [0x0d] := by
  constructor
  · rintro hok rfl
    exact absurd hok (by decide)
  · intro hreturn
    refine if_pos (or_iff_not_imp_left.mpr fun hnewline hstrip => ?_)
    have hnone : rest.findIdx? (· == 0x0a) = none := by
      rw [findIdx?_eq_none_iff]
      intro a ha
      rw [beq_eq_false_iff_ne]
      rintro rfl
      exact hnewline ha
    have hline : FileCursor.line rest = rest := by
      simpa [FileCursor.line] using @line_append_of_none _ [] hnone
    rw [hline, stripReturn_eq_nil_iff] at hstrip
    exact hstrip.elim h hreturn

/-- `ReadLine` moves like the cursor, and answers alike unless a single carriage return is left. -/
theorem call_readLine (h : b.Located file p) : ∃ o b' o' p', b.call .readLine = some (o, b') ∧
      FileCursor.buffer file.contents p .readLine = some (o', p') ∧ b'.Located file p' ∧
      (o = o' ↔ file.contents.drop p ≠ [0x0d]) := by
  obtain ⟨s, b', hr, hs, hb'⟩ := h.readLine
  rw [call, hr, Option.map_some, FileCursor.buffer, FileCursor.readLine, answer_eq hb', hs]
  by_cases hnil : file.contents.drop p = []
  · have hend : min (p + (FileCursor.line (file.contents.drop p)).length + 1)
        file.contents.length = p := by
      have hle := h.le
      rw [drop_eq_nil_iff] at hnil
      omega
    rw [hend] at hb' ⊢
    rw [hnil]
    exact ⟨_, _, _, _, rfl, rfl, hb', iff_of_true rfl (by decide)⟩
  · rw [if_neg hnil, FileCursor.moveTo, min_eq_left (min_le_right _ _)]
    refine ⟨_, _, _, _, rfl, rfl, hb', ?_⟩
    rw [← lineCode_eq_ok_iff hnil]
    simp

/-- Every call moves buffer and cursor alike, and their answers agree unless `ReadLine` finds a
single carriage return. -/
theorem call_spec (b : InputBuffer) (p : Nat) (c : BufferCall)
    (hwithin : c.Within file.contents.length) (h : b.Located file p) :
    ∃ o b' o' p', b.call c = some (o, b') ∧
      FileCursor.buffer file.contents p c = some (o', p') ∧ b'.Located file p' ∧
      (o = o' ↔ b.NoLoneReturn c) := by
  by_cases hc : c = .readLine
  · subst hc
    obtain ⟨o, b', o', p', hb, hp, hb', hiff⟩ := call_readLine h
    refine ⟨o, b', o', p', hb, hp, hb', hiff.trans ?_⟩
    rw [NoLoneReturn, h.file_eq, h.tell_eq]
    exact ⟨fun hne _ => hne, fun hne => hne rfl⟩
  · obtain ⟨o, b', p', hb, hp, hb'⟩ := call_of_ne h hwithin hc
    exact ⟨o, b', o, p', hb, hp, hb', iff_of_true rfl fun heq => absurd heq hc⟩

open Transcript

/-- For every file, every buffer size and every list of calls whose seeks stay within the file,
buffer and cursor both answer every call, and they answer alike exactly if no `ReadLine` is issued
where a single carriage return is all that is left of the file. -/
theorem transcript_eq_cursor_iff_noLoneReturn (file : RandomAccessFile) {bufferBytes : Nat}
    (h : 0 < bufferBytes) (calls : List BufferCall)
    (hwithin : ∀ c ∈ calls, c.Within file.contents.length) :
    ∃ answers expected, transcript call (create file bufferBytes) calls = some answers ∧
      transcript (FileCursor.buffer file.contents) 0 calls = some expected ∧
      (answers = expected ↔ Throughout call NoLoneReturn (create file bufferBytes) calls) :=
  transcript_eq_iff call_spec (located_create file h) calls hwithin

/-- A file with a line and an unterminated second one. -/
def twoLines : RandomAccessFile := ⟨[0x61, 0x0d, 0x0a, 0x0d], "", by decide⟩

/-- The second line of the file is a single carriage return; it is consumed and reported as the end
of the file. -/
theorem readLine_loneReturn : transcript call (create twoLines 2) [.readLine, .readLine] =
        some [⟨.ok, [0x61], 3⟩, ⟨.outOfRange, [], 4⟩] ∧
      transcript (FileCursor.buffer twoLines.contents) 0 [.readLine, .readLine] =
        some [⟨.ok, [0x61], 3⟩, ⟨.ok, [], 4⟩] := by
  decide +kernel

/-- A run whose lines straddle refills. -/
theorem transcript_eq_cursor_twoLines : ∃ answers expected,
      transcript call (create twoLines 1) [.readLine, .seek 1, .readLine, .readNBytes 3, .tell] =
        some answers ∧
      transcript (FileCursor.buffer twoLines.contents) 0
        [.readLine, .seek 1, .readLine, .readNBytes 3, .tell] = some expected ∧
      (answers = expected ↔
        Throughout call NoLoneReturn (create twoLines 1)
          [.readLine, .seek 1, .readLine, .readNBytes 3, .tell]) := by
  refine transcript_eq_cursor_iff_noLoneReturn twoLines (by decide) _ ?_
  simp [BufferCall.Within, twoLines]

end InputBuffer

end Tension.Io
