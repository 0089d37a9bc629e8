import Tension.Core.Endian

/-!
# Fixed-width and variable-length integers

`EncodeFixed32` and `EncodeFixed64` store the little-endian bytes. The varint
encoders emit groups of seven bits, least significant first, with the high bit of
every byte but the last set. The decoders accumulate with shifts and bitwise `or`
in the width of the result.
-/

namespace Tension.Io

open Endian

/-- `EncodeFixed32`. -/
def encodeFixed32 (v : UInt32) : List UInt8 := encodeLE 4 v.toNat

/-- `EncodeFixed64`. -/
def encodeFixed64 (v : UInt64) : List UInt8 := encodeLE 8 v.toNat

variable (bytes : List UInt8)

/-- `DecodeFixed32` of the first four bytes. -/
def decodeFixed32 : UInt32 := UInt32.ofNat (decodeLE (bytes.take 4))

/-- `DecodeFixed64` of the first eight bytes. -/
def decodeFixed64 : UInt64 := UInt64.ofNat (decodeLE (bytes.take 8))

@[simp] theorem length_encodeFixed32 (v : UInt32) : (encodeFixed32 v).length = 4 :=
  length_encodeLE 4 _

@[simp] theorem length_encodeFixed64 (v : UInt64) : (encodeFixed64 v).length = 8 :=
  length_encodeLE 8 _

theorem decodeFixed32_encodeFixed32 (v : UInt32) (rest : List UInt8) :
    decodeFixed32 (encodeFixed32 v ++ rest) = v := by
  have hv : v.toNat < 256 ^ 4 := v.toNat_lt
  rw [decodeFixed32, List.take_left' (length_encodeFixed32 v), encodeFixed32,
    decodeLE_encodeLE hv, UInt32.ofNat_toNat]

theorem decodeFixed64_encodeFixed64 (v : UInt64) (rest : List UInt8) :
    decodeFixed64 (encodeFixed64 v ++ rest) = v := by
  have hv : v.toNat < 256 ^ 8 := v.toNat_lt
  rw [decodeFixed64, List.take_left' (length_encodeFixed64 v), encodeFixed64,
    decodeLE_encodeLE hv, UInt64.ofNat_toNat]

/-! ## Varints -/

variable (v : Nat)

/-- `EncodeVarint32`, one case per length. -/
def encodeVarint32 : List UInt8 :=
  if v < 2 ^ 7 then [byte v]
  else if v < 2 ^ 14 then [byte (v ||| 128), byte (v >>> 7)]
  else if v < 2 ^ 21 then [byte (v ||| 128), byte ((v >>> 7) ||| 128), byte (v >>> 14)]
  else if v < 2 ^ 28 then
    [byte (v ||| 128), byte ((v >>> 7) ||| 128), byte ((v >>> 14) ||| 128), byte (v >>> 21)]
  else [byte (v ||| 128), byte ((v >>> 7) ||| 128), byte ((v >>> 14) ||| 128),
    byte ((v >>> 21) ||| 128), byte (v >>> 28)]

/-- The loop of `EncodeVarint64`; the buffer bounds the number of continuation bytes. -/
def encodeVarintLoop : Nat → Nat → List UInt8
  | 0, v => [byte v]
  | fuel + 1, v =>
    if 128 ≤ v then byte ((v &&& 127) ||| 128) :: encodeVarintLoop fuel (v >>> 7) else [byte v]

/-- `EncodeVarint64`. -/
def encodeVarint64 : List UInt8 := encodeVarintLoop 9 v

/-- The decoding loop: `shift` runs in steps of seven up to `maxShift`, and the
accumulator has `width` bits. -/
def getVarintLoop (maxShift width : Nat) : List UInt8 → Nat → Nat → Option (Nat × List UInt8)
  | [], _, _ => none
  | b :: rest, shift, result =>
    if maxShift < shift then none
    else if b.toNat &&& 128 = 0 then
      some (result ||| (b.toNat <<< shift % 2 ^ width), rest)
    else
      getVarintLoop maxShift width rest (shift + 7)
        (result ||| ((b.toNat &&& 127) <<< shift % 2 ^ width))

/-- `GetVarint32Ptr`: one-byte values are decoded without the loop. -/
def getVarint32 : Option (Nat × List UInt8) :=
  match bytes with
  | b :: rest =>
    if b.toNat &&& 128 = 0 then some (b.toNat, rest) else getVarintLoop 28 32 bytes 0 0
  | [] => getVarintLoop 28 32 bytes 0 0

/-- `GetVarint64`. -/
def getVarint64 : Option (Nat × List UInt8) := getVarintLoop 63 64 bytes 0 0

/-- One-byte values are what the loop finds as well. -/
theorem getVarint32_eq_loop :
    getVarint32 bytes = getVarintLoop 28 32 bytes 0 0 := by
  unfold getVarint32
  split
  · next b rest =>
    have hb : b.toNat % 2 ^ 32 = b.toNat := Nat.mod_eq_of_lt (b.toNat_lt.trans (by norm_num))
    split
    · next hz => rw [getVarintLoop, if_neg (by omega), if_pos hz,
        Nat.zero_or, Nat.shiftLeft_zero, hb]
    · rfl
  · rfl

/-- The low seven bits with the continuation bit. -/
theorem byte_or_128 : (byte (v ||| 128)).toNat = v % 128 + 128 := by
  have hmod : (v ||| 128) % 2 ^ 7 = v % 2 ^ 7 := by
    rw [Nat.or_mod_two_pow]
    exact Nat.or_zero _
  have hdiv : (v ||| 128) / 2 ^ 7 % 2 = 1 := by
    rw [Nat.or_div_two_pow]
    exact Nat.or_mod_two_eq_one.mpr (.inr rfl)
  rw [byte_toNat]
  omega

theorem byte_and_or_128 : byte ((v &&& 127) ||| 128) = byte (v ||| 128) := by
  apply UInt8.toNat_inj.mp
  rw [byte_or_128, byte_or_128, show 127 = 2 ^ 7 - 1 by rfl, Nat.and_two_pow_sub_one_eq_mod]
  omega

/-- Every case of the 32-bit encoder is the 64-bit loop. -/
theorem encodeVarint32_eq_loop {v : Nat} (hv : v < 2 ^ 32) :
    encodeVarint32 v = encodeVarintLoop 4 v := by
  simp only [encodeVarint32, encodeVarintLoop, byte_and_or_128]
  split_ifs <;> first | rfl | omega

/-- Bits that enter above the accumulator are added to it. -/
theorem or_shiftLeft_mod {result shift x width : Nat} (hr : result < 2 ^ shift)
    (hw : x * 2 ^ shift < 2 ^ width) :
    result ||| (x <<< shift % 2 ^ width) = result + x * 2 ^ shift := by
  rw [Nat.mod_eq_of_lt (by rwa [Nat.shiftLeft_eq]), Nat.or_comm,
    ← Nat.shiftLeft_add_eq_or_of_lt hr, Nat.shiftLeft_eq, add_comm]

section

variable {maxShift width fuel v shift result : Nat} (suffix : List UInt8)

/-- A byte without the continuation bit is the last one. -/
theorem getVarintLoop_byte (hv : v < 128) (hs : shift ≤ maxShift) (hr : result < 2 ^ shift)
    (hw : v * 2 ^ shift < 2 ^ width) :
    getVarintLoop maxShift width (byte v :: suffix) shift result =
      some (result + v * 2 ^ shift, suffix) := by
  have hb : (byte v).toNat = v := by
    rw [byte_toNat]
    omega
  have hz : v &&& 128 = 0 := (and_128_eq_zero_iff (by omega)).mpr hv
  rw [getVarintLoop, if_neg (by omega), hb, if_pos hz, or_shiftLeft_mod hr hw]

/-- Decoding undoes the encoding loop at any shift and accumulator. -/
theorem getVarintLoop_encode (hv : v < 2 ^ (7 * (fuel + 1))) (hs : shift + 7 * fuel ≤ maxShift)
    (hr : result < 2 ^ shift) (hw : v * 2 ^ shift < 2 ^ width) :
    getVarintLoop maxShift width (encodeVarintLoop fuel v ++ suffix) shift result =
      some (result + v * 2 ^ shift, suffix) := by
  induction fuel generalizing v shift result with
  | zero => exact getVarintLoop_byte suffix (by simpa using hv) hs hr hw
  | succ fuel ih =>
    rw [encodeVarintLoop]
    split
    · have hb : (byte ((v &&& 127) ||| 128)).toNat = v % 128 + 128 := by
        rw [byte_and_or_128, byte_or_128]
      have hand : (v % 128 + 128) &&& 127 = v % 128 := by
        rw [show 127 = 2 ^ 7 - 1 by rfl, Nat.and_two_pow_sub_one_eq_mod]
        omega
      have hnz : ¬ (v % 128 + 128) &&& 128 = 0 := by
        rw [and_128_eq_zero_iff (by omega)]
        omega
      have hq : v >>> 7 = v / 128 := Nat.shiftRight_eq_div_pow v 7
      have hsplit : v % 128 * 2 ^ shift + v / 128 * 2 ^ (shift + 7) = v * 2 ^ shift := by
        rw [pow_add]
        calc v % 128 * 2 ^ shift + v / 128 * (2 ^ shift * 2 ^ 7)
            = (v % 128 + 128 * (v / 128)) * 2 ^ shift := by ring
          _ = v * 2 ^ shift := by rw [Nat.mod_add_div]
      have hacc : result + v % 128 * 2 ^ shift < 2 ^ (shift + 7) := by
        have hm : v % 128 < 128 := Nat.mod_lt _ (by norm_num)
        rw [pow_add]
        nlinarith
      have hrec := ih (Nat.div_lt_of_lt_mul (hv.trans_eq (by rw [Nat.mul_succ]; ring)))
        (by omega) hacc (by omega : v / 128 * 2 ^ (shift + 7) < 2 ^ width)
      rw [List.cons_append, getVarintLoop, if_neg (by omega), hb, if_neg hnz, hand,
        or_shiftLeft_mod hr (by omega), hq, hrec, add_assoc, hsplit]
    · exact getVarintLoop_byte suffix (by omega) (by omega) hr hw

end

/-- A 64-bit varint followed by anything decodes to its value and the rest. -/
theorem getVarint64_encodeVarint64 {v : Nat} (hv : v < 2 ^ 64) (suffix : List UInt8) :
    getVarint64 (encodeVarint64 v ++ suffix) = some (v, suffix) := by
  have h : getVarintLoop 63 64 (encodeVarintLoop 9 v ++ suffix) 0 0 =
      some (0 + v * 2 ^ 0, suffix) :=
    getVarintLoop_encode suffix (by omega) (by omega) (by norm_num) (by omega)
  rw [zero_add, pow_zero, mul_one] at h
  exact h

/-- A 32-bit varint followed by anything decodes to its value and the rest. -/
theorem getVarint32_encodeVarint32 {v : Nat} (hv : v < 2 ^ 32) (suffix : List UInt8) :
    getVarint32 (encodeVarint32 v ++ suffix) = some (v, suffix) := by
  have h : getVarintLoop 28 32 (encodeVarintLoop 4 v ++ suffix) 0 0 =
      some (0 + v * 2 ^ 0, suffix) :=
    getVarintLoop_encode suffix (by omega) (by omega) (by norm_num) (by omega)
  rw [← encodeVarint32_eq_loop hv, zero_add, pow_zero, mul_one] at h
  rw [getVarint32_eq_loop, h]

/-- A decoded varint fits the accumulator and takes at least one byte. -/
theorem getVarintLoop_bounds {maxShift width : Nat} {bytes rest : List UInt8}
    {shift result v : Nat} (h : getVarintLoop maxShift width bytes shift result = some (v, rest))
    (hresult : result < 2 ^ width) : v < 2 ^ width ∧ rest.length < bytes.length := by
  induction bytes generalizing shift result with
  | nil => cases h
  | cons b tail ih =>
    have hor (x : Nat) : result ||| x % 2 ^ width < 2 ^ width :=
      Nat.or_lt_two_pow hresult (Nat.mod_lt _ (by positivity))
    rw [getVarintLoop] at h
    split at h
    · cases h
    · split at h
      · obtain ⟨rfl, rfl⟩ := Prod.mk.inj (Option.some.inj h)
        exact ⟨hor _, by simp⟩
      · obtain ⟨hv, hlt⟩ := ih h (hor _)
        exact ⟨hv, hlt.trans (by simp)⟩

theorem getVarint32_bounds {bytes rest : List UInt8} {v : Nat}
    (h : getVarint32 bytes = some (v, rest)) : v < 2 ^ 32 ∧ rest.length < bytes.length := by
  rw [getVarint32_eq_loop] at h
  exact getVarintLoop_bounds h (by norm_num)

theorem length_encodeVarintLoop_le (fuel v : Nat) :
    (encodeVarintLoop fuel v).length ≤ fuel + 1 := by
  induction fuel generalizing v with
  | zero => rfl
  | succ fuel ih =>
    rw [encodeVarintLoop]
    split
    · exact Nat.succ_le_succ (ih _)
    · simp

theorem length_encodeVarint64_le : (encodeVarint64 v).length ≤ 10 :=
  length_encodeVarintLoop_le 9 v

/-- `VarintLength`. -/
def varintLength (v : Nat) : Nat :=
  if 128 ≤ v then varintLength (v >>> 7) + 1 else 1
termination_by v
decreasing_by
  rw [Nat.shiftRight_eq_div_pow]
  omega

/-- `VarintLength` counts the bytes the encoder writes. -/
theorem length_encodeVarintLoop {fuel v : Nat} (hv : v < 2 ^ (7 * (fuel + 1))) :
    (encodeVarintLoop fuel v).length = varintLength v := by
  induction fuel generalizing v with
  | zero => rw [varintLength, if_neg (by omega), encodeVarintLoop, List.length_singleton]
  | succ fuel ih =>
    rw [varintLength, encodeVarintLoop]
    split
    · rw [List.length_cons, ih]
      rw [Nat.shiftRight_eq_div_pow]
      exact Nat.div_lt_of_lt_mul (hv.trans_eq (by rw [Nat.mul_succ]; ring))
    · rfl

/-- A decoder that looks at the first `n` bytes fails if all of them continue, and consumes
the bytes up to the first one that does not. -/
structure Scans (n : Nat) (bytes : List UInt8) (decoded : Option (Nat × List UInt8)) : Prop where
  fails : decoded = none ↔ ∀ b ∈ bytes.take n, 128 ≤ b.toNat
  consumes : ∀ v rest, decoded = some (v, rest) → ∃ front last, bytes = front ++ last :: rest ∧
    (∀ b ∈ front, 128 ≤ b.toNat) ∧ last.toNat < 128

/-- The loop has as many rounds as the shift has steps left. -/
theorem getVarintLoop_scans {maxShift width n : Nat} {shift result : Nat}
    (h : shift + 7 * n = maxShift + 7) :
    Scans n bytes (getVarintLoop maxShift width bytes shift result) := by
  induction bytes generalizing n shift result with
  | nil => exact ⟨by simp [getVarintLoop], by simp [getVarintLoop]⟩
  | cons b tail ih =>
    have hand := and_128_eq_zero_iff b.toNat_lt
    rw [getVarintLoop]
    split
    · obtain rfl : n = 0 := by omega
      exact ⟨by simp, by simp⟩
    · obtain ⟨m, rfl⟩ : ∃ m, n = m + 1 := ⟨n - 1, by omega⟩
      split
      · next hz =>
        have hb := hand.mp hz
        refine ⟨by simp; omega, fun v rest he => ⟨[], b, ?_, by simp, hb⟩⟩
        rw [(Prod.mk.inj (Option.some.inj he)).2]
        rfl
      · next hz =>
        have hb : 128 ≤ b.toNat := not_lt.mp (mt hand.mpr hz)
        obtain ⟨hfails, hconsumes⟩ := ih (by omega : shift + 7 + 7 * m = maxShift + 7)
        refine ⟨by simpa [hb] using hfails, fun v rest he => ?_⟩
        obtain ⟨front, last, rfl, hfront, hlast⟩ := hconsumes v rest he
        exact ⟨b :: front, last, rfl, by simpa [hb] using hfront, hlast⟩

/-- Varints survive encoding and decoding before any suffix, the 64-bit encoding has the
announced length, and the decoders stop at the first byte without the continuation bit. -/
theorem varint_coding :
    (∀ (v : UInt32) (suffix : List UInt8),
      getVarint32 (encodeVarint32 v.toNat ++ suffix) = some (v.toNat, suffix)) ∧
    (∀ (v : UInt64) (suffix : List UInt8),
      getVarint64 (encodeVarint64 v.toNat ++ suffix) = some (v.toNat, suffix)) ∧
    (∀ v : UInt64, (encodeVarint64 v.toNat).length = varintLength v.toNat ∧
      varintLength v.toNat ≤ 10) ∧
    ∀ bytes, Scans 5 bytes (getVarint32 bytes) ∧ Scans 10 bytes (getVarint64 bytes) := by
  refine ⟨fun v => getVarint32_encodeVarint32 v.toNat_lt,
    fun v => getVarint64_encodeVarint64 v.toNat_lt, fun v => ?_, fun bytes => ⟨?_, ?_⟩⟩
  · have hlen : (encodeVarint64 v.toNat).length = _ :=
      length_encodeVarintLoop (v.toNat_lt.trans (by norm_num))
    exact ⟨hlen, hlen ▸ length_encodeVarint64_le _⟩
  · rw [getVarint32_eq_loop]
    exact getVarintLoop_scans bytes (by omega)
  · exact getVarintLoop_scans bytes (by omega)

end Tension.Io
