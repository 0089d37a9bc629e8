import Tension.Core.Transcript
import Tension.Models.Io.FileCursor
import Tension.Models.Io.InputStream

/-!
# Seeking in buffered streams

`SkipNBytes`, `Seek`, `Reset`, `ReadAll` and `Tell` of `BufferedInputStream`. A stream that is
located at a position answers every call as a cursor at this position does, except for `ReadAll`:
it refills the buffer first, so the bytes that were buffered and not yet read are lost.
-/

namespace Tension.Io

open List Option

/-! ## The file stream -/

/-- `kMaxSkipSize`. -/
def kMaxSkipSize : Nat := 8 * 1024 * 1024

namespace RandomAccessInputStream

/-- The loop of `RandomAccessInputStream::SkipNBytes`; every iteration skips a byte, so
`bytesToSkip` iterations are enough. -/
def skipLoop : Nat → RandomAccessInputStream → Nat → Status × RandomAccessInputStream
  | 0, stream, _ => (.ok, stream)
  | fuel + 1, stream, bytesToSkip =>
    if 0 < bytesToSkip then
      let r := stream.file.read stream.pos (min kMaxSkipSize bytesToSkip)
      if r.1.code = .ok ∨ r.1.code = .outOfRange then
        if r.2.length < min kMaxSkipSize bytesToSkip then
          (.outOfRange "reached end of file", { stream with pos := stream.pos + r.2.length })
        else
          skipLoop fuel { stream with pos := stream.pos + r.2.length }
            (bytesToSkip - min kMaxSkipSize bytesToSkip)
      else (r.1, stream)
    else (.ok, stream)

/-- `RandomAccessInputStream::SkipNBytes`: if the last byte to be skipped can be read, all of them
are in the file. -/
def skipNBytes (stream : RandomAccessInputStream) (bytesToSkip : Int) :
    Status × RandomAccessInputStream :=
  if bytesToSkip < 0 then (.invalidArgument "Can't skip a negative number of bytes", stream)
  else
    let r := stream.file.read (stream.pos + bytesToSkip.toNat - 1) 1
    if 0 < bytesToSkip ∧ (r.1.code = .ok ∨ r.1.code = .outOfRange) ∧ r.2.length = 1 then
      (.ok, { stream with pos := stream.pos + bytesToSkip.toNat })
    else skipLoop bytesToSkip.toNat stream bytesToSkip.toNat

/-- `RandomAccessInputStream::Reset`. -/
def reset (stream : RandomAccessInputStream) : RandomAccessInputStream := { stream with pos := 0 }

theorem code_read (file : RandomAccessFile) (offset n : Nat) :
    (file.read offset n).1.code = .ok ∨ (file.read offset n).1.code = .outOfRange := by
  rw [RandomAccessFile.read]
  split
  · exact .inl rfl
  · exact .inr rfl

/-- The loop runs into the end of the file if it has to. -/
theorem skipLoop_eq {stream : RandomAccessInputStream} {n fuel : Nat} (hfuel : n ≤ fuel)
    (hlt : stream.file.contents.length < stream.pos + n)
    (hpos : stream.pos ≤ stream.file.contents.length) :
    skipLoop fuel stream n = (.outOfRange "reached end of file",
      { stream with pos := stream.file.contents.length }) := by
  induction fuel generalizing stream n with
  | zero => omega
  | succ fuel ih =>
    have hn : 0 < n := by omega
    rw [skipLoop, if_pos hn]
    simp only [code_read, if_true]
    have hsize : 0 < min kMaxSkipSize n := by
      unfold kMaxSkipSize
      omega
    have hle : min kMaxSkipSize n ≤ n := min_le_right _ _
    generalize min kMaxSkipSize n = size at hsize hle ⊢
    have hread : (stream.file.read stream.pos size).2.length =
        min size (stream.file.contents.length - stream.pos) := by
      rw [RandomAccessFile.read, length_take, length_drop]
    rw [hread]
    split
    · have hend : stream.pos + min size (stream.file.contents.length - stream.pos) =
          stream.file.contents.length := by omega
      rw [hend]
    · exact ih (by omega) (by simp only; omega) (by simp only; omega)

/-- Skipping moves the position, at most to the end of the file. -/
theorem skipNBytes_eq {stream : RandomAccessInputStream}
    (hpos : stream.pos ≤ stream.file.contents.length) (n : Nat) : stream.skipNBytes n =
      (if stream.file.contents.length < stream.pos + n then .outOfRange "reached end of file"
        else .ok,
      { stream with pos := min (stream.pos + n) stream.file.contents.length }) := by
  have hneg : ¬ ((n : Int) < 0) := by omega
  have hread : (stream.file.read (stream.pos + n - 1) 1).2.length =
      min 1 (stream.file.contents.length - (stream.pos + n - 1)) := by
    rw [RandomAccessFile.read, length_take, length_drop]
  rw [skipNBytes, if_neg hneg, Int.toNat_natCast]
  simp only [code_read, true_and]
  split
  · rw [if_neg (by omega), min_eq_left (by omega)]
  · by_cases hn : n = 0
    · subst hn
      rw [skipLoop, if_neg (by omega), add_zero, min_eq_left hpos]
    · rw [skipLoop_eq le_rfl (by omega) hpos, if_pos (by omega), min_eq_right (by omega)]

end RandomAccessInputStream

/-! ## The buffered stream -/

namespace BufferedInputStream

variable (b : BufferedInputStream)

/-- `BufferedInputStream::SkipNBytes`. -/
def skipNBytes (bytesToSkip : Int) : Status × BufferedInputStream :=
  if bytesToSkip < 0 then
    (.invalidArgument ("Can only skip forward, not " ++ toString bytesToSkip), b)
  else if b.pos + bytesToSkip.toNat < b.limit then
    (.ok, { b with pos := b.pos + bytesToSkip.toNat })
  else
    let r := b.inputStream.skipNBytes (bytesToSkip - (b.limit - b.pos : Nat))
    (r.1, { b with
      inputStream := r.2
      pos := 0
      limit := 0
      fileStatus := if r.1.code = .outOfRange then r.1 else b.fileStatus })

/-- `BufferedInputStream::Tell`. -/
def tell : Int := b.inputStream.pos - (b.limit - b.pos : Nat)

/-- `BufferedInputStream::Reset`. -/
def reset : BufferedInputStream :=
  { b with inputStream := b.inputStream.reset, pos := 0, limit := 0, fileStatus := .ok }

/-- `BufferedInputStream::Seek`. -/
def seek (position : Int) : Status × BufferedInputStream :=
  if position < 0 then
    (.invalidArgument ("Seeking to a negative position: " ++ toString position), b)
  else if position < b.tell then b.reset.skipNBytes position
  else b.skipNBytes (position - b.tell)

/-- The loop of `BufferedInputStream::ReadAll`; `none` means that it did not end within `fuel`
iterations. -/
def readAllLoop : Nat → Status → List UInt8 → BufferedInputStream →
    Option (Status × List UInt8 × BufferedInputStream)
  | 0, _, _, _ => none
  | fuel + 1, status, result, b =>
    if status.code = .ok then
      if b.fillBuffer.2.limit = 0 then some (b.fillBuffer.1, result, b.fillBuffer.2)
      else
        readAllLoop fuel b.fillBuffer.1 (result ++ b.fillBuffer.2.buf)
          { b.fillBuffer.2 with pos := b.fillBuffer.2.limit }
    else some (status, result, b)

/-- `BufferedInputStream::ReadAll`; every iteration but the last one reads a byte. -/
def readAll : Option (Status × List UInt8 × BufferedInputStream) :=
  (readAllLoop (b.inputStream.file.contents.length + 2) .ok [] b).map fun r =>
    if r.1.code = .outOfRange then (.ok, r.2.1, { r.2.2 with fileStatus := r.1 }) else r

/-! ## Positions -/

/-- The stream delivers the file from position `p` on, and its file stream is inside the file. -/
structure Located (b : BufferedInputStream) (file : RandomAccessFile) (p : Nat) : Prop where
  atPos : b.At file p
  inner_le : b.inputStream.pos ≤ file.contents.length
  le : p ≤ file.contents.length

variable {b : BufferedInputStream} {file : RandomAccessFile} {p : Nat} {result : List UInt8}

/-- The bytes in the buffer are those before the position of the file stream. -/
theorem Located.inner_eq (h : b.Located file p) : b.inputStream.pos = p + (b.limit - b.pos) := by
  have hwindow := congrArg length h.atPos.window
  have hlimit := h.atPos.limit_le
  have hinner := h.inner_le
  have hle := h.le
  rw [length_append, length_drop, length_take, length_drop, length_drop] at hwindow
  omega

/-- `Tell` is the position. -/
theorem Located.tell_eq (h : b.Located file p) : b.tell = p := by
  rw [tell, h.inner_eq]
  omega

/-- Behind the end of the file a stream is located at the end. -/
theorem At.located (h : b.At file p) (hinner : b.inputStream.pos ≤ file.contents.length) :
    b.Located file (min p file.contents.length) := by
  refine ⟨?_, hinner, min_le_right _ _⟩
  rcases le_total p file.contents.length with hle | hge
  · rwa [min_eq_left hle]
  · have hdrop : file.contents.drop p = file.contents.drop file.contents.length := by
      rw [drop_length, drop_eq_nil_of_le hge]
    rw [min_eq_right hge]
    exact h.congr hdrop

/-! ## Reading -/

/-- `ReadNBytes` moves the stream like a cursor. -/
theorem Located.readNBytes (h : b.Located file p) (n : Nat) :
    ∃ s b', b.readNBytes n [] = some (s, (file.contents.drop p).take n, b') ∧
      s.code = (if file.contents.length < p + n then .outOfRange else .ok) ∧
      b'.Located file (min (p + n) file.contents.length) := by
  obtain ⟨s, b', hr, hs, hat, hinside⟩ := readNBytes_spec h.atPos n []
  rw [InnerInside, InnerInside, hat.file_eq, h.atPos.file_eq] at hinside
  have hlt : (file.contents.drop p).length < n ↔ file.contents.length < p + n := by
    have hle := h.le
    rw [length_drop]
    omega
  exact ⟨s, b', hr, hs.trans (if_congr hlt rfl rfl), hat.located (hinside h.inner_le)⟩

/-- What a refill leaves behind. -/
theorem fillBuffer_of_ok (hok : b.fileStatus.code = .ok)
    {rest : List UInt8} (hrest : b.inputStream.file.contents.drop b.inputStream.pos = rest) :
    b.fillBuffer.1 = (if rest.length < b.size then .outOfRange "reached end of file" else .ok) ∧
      b.fillBuffer.2.size = b.size ∧ b.fillBuffer.2.buf = rest.take b.size ∧
      b.fillBuffer.2.limit = (rest.take b.size).length ∧ b.fillBuffer.2.pos = 0 ∧
      b.fillBuffer.2.inputStream =
        ⟨b.inputStream.file, b.inputStream.pos + (rest.take b.size).length⟩ ∧
      (rest.take b.size ≠ [] → b.fillBuffer.2.fileStatus = b.fileStatus) := by
  rw [fillBuffer, if_neg (by simpa using hok)]
  simp only [RandomAccessInputStream.readNBytes_eq, hrest, true_and]
  by_cases hnil : rest.take b.size = []
  · rw [if_pos hnil]
    exact ⟨rfl, rfl, rfl, rfl, rfl, fun h => absurd hnil h⟩
  · rw [if_neg hnil]
    exact ⟨rfl, rfl, rfl, rfl, rfl, fun _ => rfl⟩

/-- The loop of `ReadAll` returns what the file stream has left: the bytes of the buffer are
dropped by the first refill. -/
theorem readAllLoop_spec (fuel : Nat) (result : List UInt8)
    (hsize : 0 < b.size) (hok : b.fileStatus.code = .ok) (h : b.InnerInside)
    (hfuel : b.inputStream.file.contents.length + 1 < b.inputStream.pos + fuel) :
    ∃ s b', readAllLoop fuel .ok result b =
        some (s, result ++ b.inputStream.file.contents.drop b.inputStream.pos, b') ∧
      s.code = .outOfRange ∧ b'.size = b.size ∧ b'.pos = b'.limit ∧ b'.limit ≤ b'.buf.length ∧
      b'.inputStream = ⟨b.inputStream.file, b.inputStream.file.contents.length⟩ := by
  induction fuel generalizing result b with
  | zero =>
    rw [InnerInside] at h
    omega
  | succ fuel ih =>
    unfold InnerInside at h ih
    obtain ⟨rest, hrest⟩ : ∃ rest, b.inputStream.file.contents.drop b.inputStream.pos = rest :=
      ⟨_, rfl⟩
    obtain ⟨hstatus, hsize', hbuf, hlimit, hpos, hinner, hkeep⟩ := fillBuffer_of_ok hok hrest
    have hlength := congrArg length hrest
    rw [length_drop] at hlength
    rw [readAllLoop, Status.code_ok, if_pos rfl, hrest]
    generalize b.fillBuffer = filled at hstatus hsize' hbuf hlimit hpos hinner hkeep ⊢
    obtain ⟨s, b₁⟩ := filled
    dsimp only at hstatus hsize' hbuf hlimit hpos hinner hkeep ⊢
    by_cases hlt : rest.length < b.size
    · rw [take_of_length_le hlt.le] at hbuf hlimit hinner
      rw [if_pos hlt] at hstatus
      have hend : b.inputStream.pos + rest.length = b.inputStream.file.contents.length := by omega
      rw [hend] at hinner
      subst hstatus
      by_cases hnil : rest = []
      · subst hnil
        rw [length_nil] at hlimit
        rw [if_pos hlimit, append_nil]
        exact ⟨_, _, rfl, rfl, hsize', hpos.trans hlimit.symm, hlimit.trans_le (Nat.zero_le _),
          hinner⟩
      · have hpositive : 0 < rest.length := length_pos_iff.mpr hnil
        obtain ⟨fuel, rfl⟩ : ∃ k, fuel = k + 1 := ⟨fuel - 1, by omega⟩
        rw [if_neg (by omega), hbuf]
        exact ⟨_, _, rfl, rfl, hsize', rfl, by simp only [hlimit, le_refl], hinner⟩
    · have hle : b.size ≤ rest.length := Nat.not_lt.mp hlt
      rw [if_neg hlt] at hstatus
      rw [length_take, min_eq_left hle] at hlimit hinner
      subst hstatus
      have htake : rest.take b.size ≠ [] := by
        rw [← length_pos_iff, length_take]
        omega
      have hnext := ih (result ++ b₁.buf) (b := { b₁ with pos := b₁.limit })
        (by simpa [hsize'] using hsize)
        (by simpa [hkeep htake] using hok) (by simp only [hinner]; omega)
        (by simp only [hinner]; omega)
      rw [if_neg (by omega)]
      simp only [hinner] at hnext
      rw [← drop_drop, hrest, hbuf, append_assoc, take_append_drop, hsize'] at hnext
      rw [hinner, hsize', hbuf]
      exact hnext

/-- `ReadAll` returns what the file stream has left and goes to the end of the file. -/
theorem Located.readAll (h : b.Located file p) :
    ∃ b', b.readAll = some (.ok, file.contents.drop b.inputStream.pos, b') ∧
      b'.Located file file.contents.length := by
  have hinner := h.inner_eq
  obtain ⟨⟨rfl, hsize, -, -, -, hstatus⟩, hinside, hp⟩ := h
  rcases hstatus with hok | ⟨hout, hend⟩
  · obtain ⟨s, b', hr, hs, hsize', hpos', hlimit', hinner'⟩ := readAllLoop_spec
      (b.inputStream.file.contents.length + 2) [] hsize hok hinside (by omega)
    rw [BufferedInputStream.readAll, hr, map_some, if_pos hs]
    refine ⟨_, rfl, ⟨⟨?_, ?_, ?_, ?_, ?_, ?_⟩, ?_, le_rfl⟩⟩
    · simp [hinner']
    · simpa [hsize'] using hsize
    · exact hpos'.le
    · exact hlimit'
    · simp only [hinner', drop_length, append_nil, drop_eq_nil_iff, length_take]
      omega
    · exact .inr ⟨hs, drop_length⟩
    · simp [hinner']
  · rw [drop_eq_nil_iff] at hend
    have hdrop : b.inputStream.file.contents.drop b.inputStream.pos = [] := by
      rw [drop_eq_nil_iff]
      omega
    have hne : b.fileStatus.code ≠ .ok := by simp [hout]
    rw [BufferedInputStream.readAll, readAllLoop, Status.code_ok, fillBuffer,
      if_pos hne, hdrop]
    simp only [if_true, map_some, if_pos hout]
    refine ⟨_, rfl, ⟨⟨rfl, hsize, le_rfl, Nat.zero_le _, ?_, .inr ⟨hout, drop_length⟩⟩,
      hinside, le_rfl⟩⟩
    simp [hdrop]

/-! ## Skipping and seeking -/

variable (h : b.Located file p)
include h

/-- `SkipNBytes` moves the stream like a cursor. -/
theorem Located.skipNBytes (n : Nat) :
    (b.skipNBytes n).1.code = (if file.contents.length < p + n then .outOfRange else .ok) ∧
      (b.skipNBytes n).2.Located file (min (p + n) file.contents.length) := by
  have hneg : ¬ ((n : Int) < 0) := by omega
  have hinner := h.inner_eq
  rw [BufferedInputStream.skipNBytes, if_neg hneg, Int.toNat_natCast]
  by_cases hlt : b.pos + n < b.limit
  · obtain ⟨-, havail, hat⟩ := h.atPos.advance hlt.le
    rw [length_drop] at havail
    have hle := h.le
    rw [if_pos hlt, if_neg (by omega)]
    exact ⟨rfl, hat.located h.inner_le⟩
  · have hrest : (n : Int) - (b.limit - b.pos : Nat) = (n - (b.limit - b.pos) : Nat) := by omega
    obtain ⟨⟨rfl, hsize, -, -, -, hstatus⟩, hinside, hp⟩ := h
    rw [if_neg hlt, hrest, RandomAccessInputStream.skipNBytes_eq hinside]
    have hsum : b.inputStream.pos + (n - (b.limit - b.pos)) = p + n := by omega
    rw [hsum]
    refine ⟨?_, ⟨⟨rfl, hsize, le_rfl, Nat.zero_le _, by simp, ?_⟩, min_le_right _ _,
      min_le_right _ _⟩⟩
    · split
      · rfl
      · rfl
    · by_cases hout : b.inputStream.file.contents.length < p + n
      · rw [if_pos hout]
        exact .inr ⟨rfl, by rw [min_eq_right hout.le, drop_length]⟩
      · rw [if_neg hout]
        refine hstatus.imp_right fun hend => ⟨hend.1, ?_⟩
        rw [drop_eq_nil_iff] at hend ⊢
        omega

theorem Located.reset : b.reset.Located file 0 :=
  ⟨⟨h.atPos.file_eq, h.atPos.size_pos, le_rfl, Nat.zero_le _, by simp [BufferedInputStream.reset,
    RandomAccessInputStream.reset], .inl rfl⟩, Nat.zero_le _, Nat.zero_le _⟩

/-- `Seek` goes to the position, or to the end of the file. -/
theorem Located.seek (q : Nat) :
    (b.seek q).1.code = (if file.contents.length < q then .outOfRange else .ok) ∧
      (b.seek q).2.Located file (min q file.contents.length) := by
  have hneg : ¬ ((q : Int) < 0) := by omega
  rw [BufferedInputStream.seek, if_neg hneg, h.tell_eq]
  by_cases hlt : (q : Int) < p
  · rw [if_pos hlt]
    simpa using h.reset.skipNBytes q
  · have hcast : (q : Int) - p = (q - p : Nat) := by omega
    have hsum : p + (q - p) = q := by omega
    have hskip := h.skipNBytes (q - p)
    rw [hsum] at hskip
    rw [if_neg hlt, hcast]
    exact hskip

end BufferedInputStream

/-! ## Runs -/

/-- The calls of a stream. -/
inductive StreamCall where
  | readNBytes (bytesToRead : Int)
  | skipNBytes (bytesToSkip : Int)
  | seek (position : Int)
  | reset
  | readAll
  | tell
  deriving DecidableEq, Repr

/-- The answer of the cursor. -/
def FileCursor.stream (contents : List UInt8) (p : Nat) : StreamCall → Option (Answer × Nat)
  | .readNBytes n => some (readNBytes contents p n)
  | .skipNBytes n => some (skipNBytes contents p n)
  | .seek position => some (seek contents p position)
  | .reset => some (moveTo contents 0 [])
  | .readAll => some (readAll contents p)
  | .tell => some (⟨.ok, [], p⟩, p)

namespace BufferedInputStream

/-- What the caller sees of a call. -/
def answer (s : Status) (bytes : List UInt8) (b : BufferedInputStream) :
    Answer × BufferedInputStream := (⟨s.code, bytes, b.tell⟩, b)

/-- The answer of the stream; `none` means that the call does not return. -/
def call (b : BufferedInputStream) : StreamCall → Option (Answer × BufferedInputStream)
  | .readNBytes n => (b.readNBytes n []).map fun r => answer r.1 r.2.1 r.2.2
  | .skipNBytes n => some (answer (b.skipNBytes n).1 [] (b.skipNBytes n).2)
  | .seek position => some (answer (b.seek position).1 [] (b.seek position).2)
  | .reset => some (answer .ok [] b.reset)
  | .readAll => b.readAll.map fun r => answer r.1 r.2.1 r.2.2
  | .tell => some (answer .ok [] b)

/-- A `ReadAll` is issued only when no unread byte is in the buffer. -/
def BufferDrained (b : BufferedInputStream) (c : StreamCall) : Prop :=
  c = .readAll → b.pos = b.limit

variable {b : BufferedInputStream} {file : RandomAccessFile} {p : Nat}

theorem answer_eq (h : b.Located file p) (s : Status) (bytes : List UInt8) :
    answer s bytes b = (⟨s.code, bytes, p⟩, b) := by
  rw [answer, h.tell_eq]

/-- A stream that went where the cursor goes, with the cursor's code. -/
theorem answer_moveTo {q : Nat} {s : Status}
    (hs : s.code = if file.contents.length < q then .outOfRange else .ok)
    (h : b.Located file (min q file.contents.length)) (bytes : List UInt8) :
    answer s bytes b = ((FileCursor.moveTo file.contents q bytes).1, b) := by
  rw [answer_eq h, hs, FileCursor.moveTo]

/-- Every call but `ReadAll` answers as the cursor does and moves like it. -/
theorem call_of_ne {c : StreamCall} (h : b.Located file p) (hc : c ≠ .readAll) :
    ∃ o b' p', b.call c = some (o, b') ∧ FileCursor.stream file.contents p c = some (o, p') ∧
      b'.Located file p' := by
  cases c with
  | readNBytes n =>
    rw [call, FileCursor.stream, FileCursor.readNBytes]
    rcases Int.lt_or_le n 0 with hneg | hnonneg
    · rw [BufferedInputStream.readNBytes, if_pos hneg, if_pos hneg, map_some, answer_eq h]
      exact ⟨_, b, p, rfl, rfl, h⟩
    · obtain ⟨n, rfl⟩ := Int.eq_ofNat_of_zero_le hnonneg
      obtain ⟨s, b', hr, hs, hb'⟩ := h.readNBytes n
      rw [hr, map_some, answer_moveTo hs hb']
      exact ⟨_, b', _, rfl, rfl, hb'⟩
  | skipNBytes n =>
    rw [call, FileCursor.stream, FileCursor.skipNBytes]
    rcases Int.lt_or_le n 0 with hneg | hnonneg
    · rw [BufferedInputStream.skipNBytes, if_pos hneg, if_pos hneg, answer_eq h]
      exact ⟨_, b, p, rfl, rfl, h⟩
    · obtain ⟨n, rfl⟩ := Int.eq_ofNat_of_zero_le hnonneg
      obtain ⟨hs, hb'⟩ := h.skipNBytes n
      rw [answer_moveTo hs hb']
      exact ⟨_, _, _, rfl, rfl, hb'⟩
  | seek position =>
    rw [call, FileCursor.stream, FileCursor.seek]
    rcases Int.lt_or_le position 0 with hneg | hnonneg
    · rw [BufferedInputStream.seek, if_pos hneg, if_pos hneg, answer_eq h]
      exact ⟨_, b, p, rfl, rfl, h⟩
    · obtain ⟨q, rfl⟩ := Int.eq_ofNat_of_zero_le hnonneg
      obtain ⟨hs, hb'⟩ := h.seek q
      rw [answer_moveTo hs hb']
      exact ⟨_, _, _, rfl, rfl, hb'⟩
  | reset =>
    have hreset : b.reset.Located file (min 0 file.contents.length) := by
      exact h.reset
    exact ⟨_, _, _, rfl, rfl, hreset⟩
  | readAll => exact absurd rfl hc
  | tell =>
    rw [call, answer_eq h]
    exact ⟨_, _, _, rfl, rfl, h⟩

/-- `ReadAll` moves like the cursor, and answers alike exactly if no byte was buffered. -/
theorem call_readAll (h : b.Located file p) : ∃ o b' o' p', b.call .readAll = some (o, b') ∧
      FileCursor.stream file.contents p .readAll = some (o', p') ∧ b'.Located file p' ∧
      (o = o' ↔ b.pos = b.limit) := by
  obtain ⟨b', hr, hb'⟩ := h.readAll
  have hmoved : b'.Located file (min file.contents.length file.contents.length) := by
    rwa [min_self]
  have hbytes : file.contents.drop b.inputStream.pos = file.contents.drop p ↔ b.pos = b.limit := by
    have hinner := h.inner_eq
    have hinside := h.inner_le
    have hpos := h.atPos.pos_le
    constructor
    · intro heq
      have hlength := congrArg length heq
      rw [length_drop, length_drop] at hlength
      omega
    · intro heq
      rw [hinner, heq, tsub_self, add_zero]
  rw [call, hr, map_some, answer_moveTo (by simp) hmoved]
  refine ⟨_, _, _, _, rfl, rfl, hmoved, ?_⟩
  rw [← hbytes]
  simp [FileCursor.moveTo]

/-- Every call moves stream and cursor alike, and their answers agree unless `ReadAll` drops
buffered bytes. -/
theorem call_spec (b : BufferedInputStream) (p : Nat) (c : StreamCall) (h : b.Located file p) :
    ∃ o b' o' p', b.call c = some (o, b') ∧
      FileCursor.stream file.contents p c = some (o', p') ∧ b'.Located file p' ∧
      (o = o' ↔ b.BufferDrained c) := by
  by_cases hc : c = .readAll
  · subst hc
    obtain ⟨o, b', o', p', hb, hp, hb', hiff⟩ := call_readAll h
    exact ⟨o, b', o', p', hb, hp, hb', hiff.trans ⟨fun heq _ => heq, fun hdrained => hdrained rfl⟩⟩
  · obtain ⟨o, b', p', hb, hp, hb'⟩ := call_of_ne h hc
    exact ⟨o, b', o, p', hb, hp, hb', iff_of_true rfl fun h => absurd h hc⟩

open Transcript

/-- For every file, every buffer size and every list of calls, stream and cursor both answer every
call, and they answer alike exactly if no `ReadAll` is issued while unread bytes are buffered. -/
theorem transcript_eq_cursor_iff (file : RandomAccessFile) {size : Nat} (h : 0 < size)
    (calls : List StreamCall) :
    ∃ answers expected, transcript call (create file size) calls = some answers ∧
      transcript (FileCursor.stream file.contents) 0 calls = some expected ∧
      (answers = expected ↔ Throughout call BufferDrained (create file size) calls) :=
  transcript_eq_iff (fun b p c _ => call_spec b p c)
    ⟨at_create file h, Nat.zero_le _, Nat.zero_le _⟩ calls fun _ _ => trivial

/-- A file of three bytes. -/
def threeBytes : RandomAccessFile := ⟨[1, 2, 3], "", by decide⟩

/-- Reading one byte of a file of three bytes and then the rest loses the byte in between. -/
theorem readAll_loses_bytes : transcript call (create threeBytes 2) [.readNBytes 1, .readAll] =
        some [⟨.ok, [1], 1⟩, ⟨.ok, [3], 3⟩] ∧
      transcript (FileCursor.stream threeBytes.contents) 0 [.readNBytes 1, .readAll] =
        some [⟨.ok, [1], 1⟩, ⟨.ok, [2, 3], 3⟩] := by
  decide +kernel

/-- After a read of as many bytes as the buffer holds, `ReadAll` returns the rest. -/
theorem transcript_eq_cursor_threeBytes : ∃ answers expected,
      transcript call (create threeBytes 2) [.readNBytes 2, .readAll, .seek 1, .readNBytes 5] =
        some answers ∧
      transcript (FileCursor.stream threeBytes.contents) 0
        [.readNBytes 2, .readAll, .seek 1, .readNBytes 5] = some expected ∧
      (answers = expected ↔
        Throughout call BufferDrained (create threeBytes 2)
          [.readNBytes 2, .readAll, .seek 1, .readNBytes 5]) :=
  transcript_eq_cursor_iff threeBytes (by decide) _

end BufferedInputStream

end Tension.Io
