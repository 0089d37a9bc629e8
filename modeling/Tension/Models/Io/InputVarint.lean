import Tension.Models.Io.Coding
import Tension.Models.Io.InputBuffer

/-!
# Varints read from an input buffer

If enough bytes are buffered for the longest varint, `InputBuffer` decodes from the buffer;
otherwise it reads byte by byte. The two paths agree on every varint that ends. If all bytes
that may belong to the varint say that more follow, the fast path reports the end of the file
and stays where it is, and the slow path reports lost data and has consumed the bytes.
-/

namespace Tension.Io

open List

/-- `ReadVarint32` and `ReadVarint64`. -/
inductive VarintKind where
  | varint32
  | varint64
  deriving DecidableEq, Repr

namespace VarintKind

/-- `kMaxVarint32Bytes` and `kMaxVarint64Bytes`. -/
def maxBytes : VarintKind → Nat
  | varint32 => 5
  | varint64 => 10

/-- The number of bits of the result. -/
def width : VarintKind → Nat
  | varint32 => 32
  | varint64 => 64

/-- `GetVarint32Ptr` and `GetVarint64Ptr`. -/
def getVarintPtr : VarintKind → List UInt8 → Option (Nat × List UInt8)
  | varint32 => getVarint32
  | varint64 => getVarint64

/-- The message for data that is too long. -/
def tooLarge : VarintKind → String
  | varint32 => "Stored data is too large to be a varint32."
  | varint64 => "Stored data is too large to be a varint64."

end VarintKind

namespace InputBuffer

/-- The loop of `ReadVarintFallback`; `fuel` is what is left of `max_bytes` at `index`. -/
def readVarintLoop (kind : VarintKind) : Nat → Nat → UInt8 → Nat → InputBuffer →
    Option (Status × Nat × InputBuffer)
  | 0, _, _, result, b =>
    some (.dataLoss ("Stored data longer than " ++ toString kind.maxBytes ++ " bytes."), result, b)
  | fuel + 1, index, scratch, result, b =>
    (b.readNBytes 1).bind fun (status, bytes, b) =>
      if status.code ≠ .ok then some (status, result, b)
      else
        let scratch := bytes.headD scratch
        let result := result ||| ((scratch.toNat &&& 127) <<< (7 * index) % 2 ^ kind.width)
        if scratch.toNat &&& 128 = 0 then some (.ok, result, b)
        else readVarintLoop kind fuel (index + 1) scratch result b

/-- `ReadVarint32Fallback` and `ReadVarint64Fallback`. -/
def readVarintFallback (kind : VarintKind) (b : InputBuffer) :
    Option (Status × Nat × InputBuffer) :=
  (readVarintLoop kind kind.maxBytes 0 0 0 b).map fun r =>
    if r.1.code = .dataLoss then (.dataLoss kind.tooLarge, r.2) else r

/-- Enough bytes are buffered for the longest varint. -/
def FastPath (kind : VarintKind) (b : InputBuffer) : Prop := b.pos + kind.maxBytes ≤ b.limit

instance (kind : VarintKind) (b : InputBuffer) : Decidable (b.FastPath kind) :=
  inferInstanceAs (Decidable (_ ≤ _))

/-- `ReadVarint32` and `ReadVarint64`; `value` is what `*result` holds before. -/
def readVarint (kind : VarintKind) (value : Nat) (b : InputBuffer) :
    Option (Status × Nat × InputBuffer) :=
  if b.FastPath kind then
    match kind.getVarintPtr b.unread with
    | none => some (.outOfRange "Parsed past limit.", value, b)
    | some (v, rest) => some (.ok, v, { b with pos := b.limit - rest.length })
  else readVarintFallback kind b

/-- The status code, `*result` and `Tell` after a call. -/
def outcome (r : Status × Nat × InputBuffer) : Code × Nat × Int := (r.1.code, r.2.1, r.2.2.tell)

/-! ## The slow path as a function of the file -/

/-- The status code, the value and the number of bytes consumed by the slow path. -/
def scanVarint (width : Nat) : Nat → Nat → Nat → List UInt8 → Code × Nat × Nat
  | 0, _, result, _ => (.dataLoss, result, 0)
  | _ + 1, _, result, [] => (.outOfRange, result, 0)
  | fuel + 1, index, result, x :: bytes =>
    let result := result ||| ((x.toNat &&& 127) <<< (7 * index) % 2 ^ width)
    if x.toNat &&& 128 = 0 then (.ok, result, 1)
    else
      let r := scanVarint width fuel (index + 1) result bytes
      (r.1, r.2.1, r.2.2 + 1)

variable {kind : VarintKind} {b b' : InputBuffer} {file : RandomAccessFile} {p : Nat}

theorem Located.readVarintLoop (h : b.Located file p) (kind : VarintKind) (fuel index : Nat)
    (scratch : UInt8) (result : Nat) :
    ∃ s b', InputBuffer.readVarintLoop kind fuel index scratch result b =
        some (s, (scanVarint kind.width fuel index result (file.contents.drop p)).2.1, b') ∧
      s.code = (scanVarint kind.width fuel index result (file.contents.drop p)).1 ∧
      b'.Located file
        (p + (scanVarint kind.width fuel index result (file.contents.drop p)).2.2) := by
  induction fuel generalizing b p index scratch result with
  | zero => exact ⟨_, b, rfl, rfl, h⟩
  | succ fuel ih =>
    obtain ⟨s, b', hread, hcode, hb'⟩ := h.readNBytes 1
    rw [InputBuffer.readVarintLoop, ← Nat.cast_one, hread, Option.bind_some]
    dsimp only
    cases hrest : file.contents.drop p with
    | nil =>
      have hlen := drop_eq_nil_iff.mp hrest
      have hle := h.le
      rw [if_pos (by omega)] at hcode
      rw [if_pos (by simp [hcode])]
      refine ⟨s, b', rfl, hcode, ?_⟩
      rwa [min_eq_right (by omega), ← Nat.le_antisymm hle hlen] at hb'
    | cons x bytes =>
      have hlen := congrArg length hrest
      rw [length_drop, length_cons] at hlen
      have hnext : file.contents.drop (p + 1) = bytes := by
        rw [← drop_drop, hrest, drop_one, tail_cons]
      rw [if_neg (by omega)] at hcode
      rw [min_eq_left (by omega)] at hb'
      rw [if_neg (not_not.mpr hcode), take_one, head?_cons, Option.toList_some,
        headD_cons, scanVarint]
      split
      · exact ⟨.ok, b', rfl, rfl, hb'⟩
      · obtain ⟨s, b'', hloop, hs, hb''⟩ := ih hb' (index + 1) x
          (result ||| ((x.toNat &&& 127) <<< (7 * index) % 2 ^ kind.width))
        rw [hnext] at hloop hs hb''
        exact ⟨s, b'', hloop, hs, by rwa [add_assoc, add_comm 1] at hb''⟩

/-! ## The fast path -/

/-- The first `n` bytes exist and all say that another byte follows. -/
def Continued (n : Nat) (bytes : List UInt8) : Prop :=
  n ≤ bytes.length ∧ ∀ x ∈ bytes.take n, x.toNat &&& 128 ≠ 0

instance (n : Nat) (bytes : List UInt8) : Decidable (Continued n bytes) :=
  inferInstanceAs (Decidable (_ ∧ _))

theorem and_127_of_and_128 {n : Nat} (hn : n < 256) (h : n &&& 128 = 0) : n &&& 127 = n := by
  have hall : ∀ n < 256, n &&& 128 = 0 → n &&& 127 = n := by decide +kernel
  exact hall n hn h

/-- With enough bytes the loops on both paths stop at the same byte. -/
theorem scanVarint_getVarintLoop {maxShift fuel : Nat} {l : List UInt8}
    (width index result : Nat) (rest : List UInt8) (hlen : fuel ≤ l.length)
    (hshift : 7 * (index + fuel) = maxShift + 7) :
    ((∀ x ∈ l.take fuel, x.toNat &&& 128 ≠ 0) ∧
        (scanVarint width fuel index result (l ++ rest)).1 = .dataLoss ∧
        getVarintLoop maxShift width l (7 * index) result = none) ∨
      (¬∀ x ∈ l.take fuel, x.toNat &&& 128 ≠ 0) ∧
        ∃ v n, scanVarint width fuel index result (l ++ rest) = (.ok, v, n) ∧ n ≤ l.length ∧
          getVarintLoop maxShift width l (7 * index) result = some (v, l.drop n) := by
  induction fuel generalizing index result l with
  | zero =>
    refine .inl ⟨by simp, by rw [scanVarint], ?_⟩
    cases l with
    | nil => rfl
    | cons x l => rw [getVarintLoop, if_pos (by omega)]
  | succ fuel ih =>
    cases l with
    | nil => cases hlen
    | cons x l =>
      have hlow : ¬maxShift < 7 * index := by omega
      rw [cons_append, scanVarint, getVarintLoop, if_neg hlow]
      by_cases hx : x.toNat &&& 128 = 0
      · rw [if_pos hx, if_pos hx, and_127_of_and_128 x.toNat_lt hx]
        exact .inr ⟨fun h => h x mem_cons_self hx, _, 1, rfl, by simp, rfl⟩
      rw [if_neg hx, if_neg hx]
      have hnext : 7 * index + 7 = 7 * (index + 1) := by omega
      rw [hnext]
      rcases ih (index + 1) _ (Nat.le_of_succ_le_succ hlen) (by omega) with
        ⟨hall, hscan, hget⟩ | ⟨hnot, v, n, hscan, hn, hget⟩
      · exact .inl ⟨forall_mem_cons.mpr ⟨hx, hall⟩, hscan, hget⟩
      · refine .inr ⟨fun h => hnot (forall_mem_cons.mp h).2, v, n + 1, ?_, ?_, ?_⟩
        · rw [hscan]
        · exact Nat.succ_le_succ hn
        · rw [hget, drop_succ_cons]

theorem getVarintPtr_eq (kind : VarintKind) (bytes : List UInt8) : kind.getVarintPtr bytes =
      getVarintLoop (7 * kind.maxBytes - 7) kind.width bytes 0 0 := by
  cases kind with
  | varint64 => rfl
  | varint32 => exact getVarint32_eq_loop bytes

/-- The outcome of a call, by what the file holds and the path that is taken. -/
theorem Located.readVarint (h : b.Located file p) (value : Nat) :
    (InputBuffer.readVarint kind value b).map outcome =
      if b.FastPath kind ∧ Continued kind.maxBytes (file.contents.drop p) then
        some (.outOfRange, value, (p : Int))
      else
        let r := scanVarint kind.width kind.maxBytes 0 0 (file.contents.drop p)
        some (r.1, r.2.1, ((p + r.2.2 : Nat) : Int)) := by
  rw [InputBuffer.readVarint]
  by_cases hfast : b.FastPath kind
  · have hfit : kind.maxBytes ≤ b.unread.length := by
      rw [h.length_unread]
      exact Nat.le_sub_of_add_le' hfast
    have hcontinued : Continued kind.maxBytes (file.contents.drop p) ↔
        ∀ x ∈ b.unread.take kind.maxBytes, x.toNat &&& 128 ≠ 0 := by
      rw [Continued, ← h.unread_append, take_append_of_le_length hfit]
      exact and_iff_right (hfit.trans (by simp))
    have hshift : 7 * (0 + kind.maxBytes) = 7 * kind.maxBytes - 7 + 7 := by cases kind <;> rfl
    rw [if_pos hfast, getVarintPtr_eq]
    rcases scanVarint_getVarintLoop kind.width 0 0 (file.contents.drop b.filePos) hfit hshift with
      ⟨hall, -, hget⟩ | ⟨hnot, v, n, hscan, hn, hget⟩
    · rw [if_pos ⟨hfast, hcontinued.mpr hall⟩, hget, Option.map_some, outcome, h.tell_eq]
      rfl
    rw [if_neg fun hand => hnot (hcontinued.mp hand.2), hget]
    rw [h.unread_append] at hscan
    rw [h.length_unread] at hn
    have hle := h.pos_le
    have hpos : b.limit - (b.unread.drop n).length = b.pos + n := by
      rw [length_drop, h.length_unread]
      omega
    have hfit : b.pos + n ≤ b.limit := by omega
    simp only [Option.map_some, outcome, hscan, hpos, (h.advance hfit).tell_eq]
    rfl
  · rw [if_neg hfast, if_neg fun hand => hfast hand.1, readVarintFallback]
    obtain ⟨s, b', hloop, hs, hb'⟩ := h.readVarintLoop kind kind.maxBytes 0 0 0
    rw [hloop, Option.map_some]
    dsimp only
    rw [← hs, ← hb'.tell_eq]
    split
    · next hloss =>
      rw [hloss]
      rfl
    · rfl

/-! ## Buffers that cannot be filled -/

/-- The buffer is empty and stays empty: it has no room or lies behind the end of the file. -/
structure Stuck (b : InputBuffer) (file : RandomAccessFile) (p : Nat) : Prop where
  file_eq : b.file = file
  pos_eq : b.pos = b.limit
  filePos_eq : b.filePos = p
  empty : b.size = 0 ∨ file.contents.length < p

theorem Stuck.slow (h : b.Stuck file p) : ¬b.FastPath kind := by
  have hmax : 0 < kind.maxBytes := by cases kind <;> decide
  rw [FastPath, h.pos_eq]
  omega

theorem Stuck.readVarint (h : b.Stuck file p) (value : Nat) :
    (InputBuffer.readVarint kind value b).map outcome =
      some (if b.size = 0 then .ok else .outOfRange, 0, (p : Int)) := by
  have hmax : 0 < kind.maxBytes := by cases kind <;> decide
  have hdata : (b.file.contents.drop b.filePos).take b.size = [] := by
    rcases h.empty with hsize | hbehind
    · rw [hsize, take_zero]
    · rw [h.file_eq, h.filePos_eq, drop_eq_nil_of_le hbehind.le, take_nil]
  have hfill : b.fillBuffer = (if b.size = 0 then .ok else .outOfRange b.file.eofMessage,
      { b with buf := [], pos := 0, limit := 0 }) := by
    simp [fillBuffer, RandomAccessFile.read, hdata, eq_comm]
  have hread : b.readNBytes 1 = some (b.fillBuffer.1, [], b.fillBuffer.2) := by
    have hcode : b.fillBuffer.2.limit = 0 := by rw [hfill]
    simp [InputBuffer.readNBytes, readNBytesLoop, h.pos_eq, hcode]
  obtain ⟨fuel, hfuel⟩ := Nat.exists_eq_succ_of_ne_zero hmax.ne'
  rw [InputBuffer.readVarint, if_neg h.slow, readVarintFallback, hfuel, InputBuffer.readVarintLoop,
    hread, hfill]
  by_cases hsize : b.size = 0
  · simp [hsize, outcome, tell, h.filePos_eq]
  · simp [hsize, outcome, tell, h.filePos_eq]

/-- Two buffers of one size at the same position of a file give the same outcome, whatever they
have buffered, exactly if they take the same path or the varint ends in time. -/
theorem readVarint_agree_iff (kind : VarintKind) (value : Nat) (file : RandomAccessFile) (p : Nat)
    (b b' : InputBuffer) (h : b.Located file p ∨ b.Stuck file p)
    (h' : b'.Located file p ∨ b'.Stuck file p) (hsize : b.size = b'.size) :
    ∃ r r', (readVarint kind value b).map outcome = some r ∧
      (readVarint kind value b').map outcome = some r' ∧
      (r = r' ↔ (b.FastPath kind ↔ b'.FastPath kind) ∨
        ¬Continued kind.maxBytes (file.contents.drop p)) := by
  have hmixed {c c' : InputBuffer} (hl : c.Located file p) (hs : c'.Stuck file p) :
      c.size ≠ c'.size := by
    have hpos := hl.size_pos
    have hle := hl.le
    rcases hs.empty with hzero | hbehind
    · omega
    · omega
  rcases h with h | h <;> rcases h' with h' | h'
  · rw [h.readVarint value, h'.readVarint value]
    by_cases hcontinued : Continued kind.maxBytes (file.contents.drop p)
    · -- The varint does not end: the slow path loses data.
      have hscan : (scanVarint kind.width kind.maxBytes 0 0 (file.contents.drop p)).1 =
          .dataLoss := by
        have hshift : 7 * (0 + kind.maxBytes) = 7 * kind.maxBytes - 7 + 7 := by cases kind <;> rfl
        rcases scanVarint_getVarintLoop kind.width 0 0 [] hcontinued.1 hshift
          with ⟨-, hscan, -⟩ | ⟨hnot, -⟩
        · rwa [append_nil] at hscan
        · exact absurd hcontinued.2 hnot
      simp only [hcontinued]
      by_cases hfast : b.FastPath kind <;> by_cases hfast' : b'.FastPath kind <;>
        simp [hfast, hfast', hscan]
    · simp only [hcontinued, and_false, not_false_eq_true, or_true, iff_true]
      exact ⟨_, _, rfl, rfl, rfl⟩
  · exact absurd hsize (hmixed h h')
  · exact absurd hsize.symm (hmixed h' h)
  · rw [h.readVarint value, h'.readVarint value, hsize]
    exact ⟨_, _, rfl, rfl, ⟨fun _ => .inl (iff_of_false h.slow h'.slow), fun _ => rfl⟩⟩

/-- Five bytes behind the first one that all say that more follow. -/
def endless : RandomAccessFile := ⟨[0, 0xff, 0xff, 0xff, 0xff, 0xff], "", by decide⟩

/-- Once the file is buffered, the varint behind the first byte is the end of the file; with an
empty buffer it is lost data, and the bytes are gone. -/
theorem readVarint_endless : (((create endless 6).readNBytes 1).bind fun r =>
        (readVarint .varint32 7 r.2.2).map outcome) = some (.outOfRange, 7, 1) ∧
      (readVarint .varint32 7 ((create endless 6).seek 1).2).map outcome =
        some (.dataLoss, 2 ^ 32 - 1, 6) := by
  decide +kernel

/-- A varint of two bytes. -/
def twoBytes : RandomAccessFile := ⟨[0x96, 0x01, 0, 0, 0], "", by decide⟩

/-- Both paths decode it. -/
theorem readVarint_twoBytes :
    ∃ r r', (readVarint .varint32 0 (create twoBytes 8).fillBuffer.2).map outcome = some r ∧
      (readVarint .varint32 0 (create twoBytes 8)).map outcome = some r' ∧ r = r' := by
  obtain ⟨r, r', hr, hr', hiff⟩ := readVarint_agree_iff .varint32 0 twoBytes 0
    (create twoBytes 8).fillBuffer.2 (create twoBytes 8)
    (.inl (located_create twoBytes (by decide)).fillBuffer.1)
    (.inl (located_create twoBytes (by decide))) rfl
  exact ⟨r, r', hr, hr', hiff.mpr (.inr (by decide))⟩

end InputBuffer

end Tension.Io
