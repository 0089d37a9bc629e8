import Tension.Models.Strings.Increasing

/-!
# Codes of signed numbers

A non-negative number `x` of code length `len` is written as the big-endian digits of
`x` with the top `len` bits set. Longer codes therefore start with more one bits, and
the codes of one length compare as the numbers. A negative number is written as the
complement of the code of its complement, which reverses the order.
-/

namespace Tension.Strings

open Endian OrderedCode List

/-! ## Code lengths -/

/-- The bounds that determine the length of the code of a non-negative number. -/
structure SignedLength (x len : Nat) : Prop where
  pos : 0 < len
  le_ten : len ≤ 10
  lt_two_pow : x < 2 ^ (7 * len - 1)
  two_pow_le : 2 ≤ len → 2 ^ (7 * (len - 1) - 1) ≤ x

/-- The table of lengths by the number of bits. -/
theorem kBitsToLength_eq {bits : Nat} (h : bits ≤ 63) :
    kBitsToLength.getD bits 0 = bits / 7 + 1 := by
  decide +revert

variable {x m len : Nat} {val : Int64}

theorem signedEncodingLength_spec (hx : x < 2 ^ 63) : SignedLength x (signedEncodingLength x) := by
  rw [signedEncodingLength, log2Floor64]
  by_cases h0 : x = 0
  · subst h0
    exact ⟨by decide, by decide, by decide, by decide⟩
  have hlog : x.log2 < 63 := (Nat.log2_lt h0).mpr hx
  have hlow : 2 ^ x.log2 ≤ x := Nat.log2_self_le h0
  have hhigh : x < 2 ^ (x.log2 + 1) := Nat.lt_log2_self
  rw [kBitsToLength_eq (by omega)]
  refine ⟨by omega, by omega, hhigh.trans_le ?_, fun h2 => le_trans ?_ hlow⟩
  · exact Nat.pow_le_pow_right (by norm_num) (by omega)
  · exact Nat.pow_le_pow_right (by norm_num) (by omega)

/-- Smaller numbers do not have longer codes. -/
theorem SignedLength.le {y n : Nat} (hx : SignedLength x m) (hy : SignedLength y n)
    (h : x < y) : m ≤ n := by
  by_contra hgt
  have hpos := hy.pos
  have hpow : 2 ^ (7 * n - 1) ≤ 2 ^ (7 * (m - 1) - 1) :=
    Nat.pow_le_pow_right (by norm_num) (by omega)
  have hlow := hx.two_pow_le (by omega)
  have hhigh := hy.lt_two_pow
  omega

/-! ## Words -/

/-- The number whose top `len` of `8 * len` bits are set. -/
def header (len : Nat) : Nat := (2 ^ len - 1) * 2 ^ (7 * len)

theorem header_add (len : Nat) : header len + 2 ^ (7 * len) = 2 ^ (8 * len) := by
  have hpos : 0 < 2 ^ len := by positivity
  rw [header, ← Nat.succ_mul, Nat.succ_eq_add_one, Nat.sub_add_cancel hpos, ← pow_add]
  congr 1
  omega

/-- The digits of a non-negative number together with its header bits. -/
def signedWord (x len : Nat) : List UInt8 := encodeBE len (header len ^^^ x)

/-- Header bits and number bits are disjoint. -/
theorem SignedLength.header_xor (h : SignedLength x len) : header len ^^^ x = header len + x := by
  have hlt : x < 2 ^ (7 * len) :=
    h.lt_two_pow.trans_le (Nat.pow_le_pow_right (by norm_num) (by omega))
  exact mul_two_pow_xor hlt

/-- The delimiter bit after the header bits is zero. -/
theorem SignedLength.header_add_lt (h : SignedLength x len) :
    header len + x + 2 ^ (7 * len - 1) < 2 ^ (8 * len) := by
  have hpos := h.pos
  have hadd := header_add len
  have hlt := h.lt_two_pow
  have hhalf : 2 ^ (7 * len) = 2 ^ (7 * len - 1) * 2 := by
    rw [← pow_succ]
    congr 1
    omega
  omega

theorem pow_256 (n : Nat) : 256 ^ n = 2 ^ (8 * n) := by
  rw [pow_mul]
  norm_num

/-- Smaller non-negative numbers have diverging words. -/
theorem diverges_signedWord {y n : Nat} (hx : SignedLength x m) (hy : SignedLength y n)
    (h : x < y) : Diverges (signedWord x m) (signedWord y n) := by
  have hfit : header n + y < 2 ^ (8 * n) := (Nat.le_add_right _ _).trans_lt hy.header_add_lt
  rw [signedWord, signedWord, hx.header_xor, hy.header_xor]
  rcases Nat.lt_or_eq_of_le (hx.le hy h) with hlt | rfl
  · have hshift : header m + x < (header n + y) / 256 ^ (n - m) := by
      have hmfit := hx.header_add_lt
      have hnadd := header_add n
      have hexp : 2 ^ (8 * m) * 2 ^ (8 * (n - m)) = 2 ^ (8 * n) := by
        rw [← pow_add]
        congr 1
        omega
      have hhead : 2 ^ (7 * n) ≤ 2 ^ (7 * m - 1) * 2 ^ (8 * (n - m)) := by
        rw [← pow_add]
        exact Nat.pow_le_pow_right (by norm_num) (by omega)
      have hmul : (header m + x + 1) * 2 ^ (8 * (n - m)) + 2 ^ (7 * m - 1) * 2 ^ (8 * (n - m)) ≤
          2 ^ (8 * m) * 2 ^ (8 * (n - m)) := by
        rw [← Nat.add_mul]
        exact Nat.mul_le_mul_right _ (by omega)
      rw [pow_256, Nat.lt_iff_add_one_le, Nat.le_div_iff_mul_le (by positivity)]
      omega
    have hbound : (header n + y) / 256 ^ (n - m) < 256 ^ m := by
      rw [Nat.div_lt_iff_lt_mul (by positivity), pow_256, pow_256, ← pow_add,
        show 8 * m + 8 * (n - m) = 8 * n by omega]
      exact hfit
    have hsplit := encodeBE_add m (n - m) (header n + y)
    rw [Nat.add_sub_cancel' hlt.le] at hsplit
    rw [hsplit, ← append_nil (encodeBE m (header m + x))]
    exact (diverges_encodeBE hshift hbound).append _ _
  · exact diverges_encodeBE (by omega) (by rwa [pow_256])

/-! ## Two's complement -/

/-- The number itself, or its complement if it is negative. -/
def magnitude (val : Int64) : Nat :=
  if val < 0 then (~~~ val).toUInt64.toNat else val.toUInt64.toNat

/-- All ones for a negative number. -/
def signMask (val : Int64) : Nat := if val < 0 then 2 ^ 64 - 1 else 0

section

variable (val : Int64)

/-- The signed value of a 64-bit pattern. -/
theorem toInt_eq_bits : val.toInt = if val.toUInt64.toNat < 2 ^ 63 then (val.toUInt64.toNat : Int)
    else (val.toUInt64.toNat : Int) - 2 ^ 64 := by
  have h : val.toInt = if 2 * val.toUInt64.toNat < 2 ^ 64 then (val.toUInt64.toNat : Int)
      else (val.toUInt64.toNat : Int) - (2 ^ 64 : Nat) := BitVec.toInt_eq_toNat_cond val.toBitVec
  rw [h]
  split <;> split <;> first | rfl | omega

theorem lt_zero_iff : val < 0 ↔ 2 ^ 63 ≤ val.toUInt64.toNat := by
  have hbits := toInt_eq_bits val
  have hlt := val.toUInt64.toNat_lt
  have hzero : (0 : Int64).toInt = 0 := rfl
  rw [Int64.lt_iff_toInt_lt, hbits]
  split <;> omega

theorem toNat_not : (~~~ val).toUInt64.toNat = 2 ^ 64 - 1 - val.toUInt64.toNat :=
  BitVec.toNat_not

theorem magnitude_lt : magnitude val < 2 ^ 63 := by
  have hneg := lt_zero_iff val
  rw [magnitude]
  split
  · next h =>
    rw [toNat_not]
    have hge := hneg.mp h
    omega
  · next h => exact Nat.not_le.mp (mt hneg.mpr h)

/-- The bits of a number are its magnitude under the sign mask. -/
theorem bits_eq : val.toUInt64.toNat = signMask val ^^^ magnitude val := by
  have hlt := val.toUInt64.toNat_lt
  rw [signMask, magnitude]
  split
  · rw [toNat_not, two_pow_sub_one_xor (by omega)]
    omega
  · rw [Nat.zero_xor]

end

/-- The order of signed numbers in terms of sign and magnitude. -/
theorem lt_cases {a b : Int64} (h : a < b) : (¬ a < 0 ∧ ¬ b < 0 ∧ magnitude a < magnitude b) ∨
      (a < 0 ∧ b < 0 ∧ magnitude b < magnitude a) ∨ (a < 0 ∧ ¬ b < 0) := by
  have ha := toInt_eq_bits a
  have hb := toInt_eq_bits b
  have hlb := b.toUInt64.toNat_lt
  rw [Int64.lt_iff_toInt_lt] at h
  simp only [magnitude, lt_zero_iff, toNat_not]
  split_ifs at h ⊢ <;> omega

/-! ## Writing -/

theorem storeBigEndian64_eq (v : Nat) : storeBigEndian64 v = encodeBE 8 v := by
  have hbyte : ∀ k, byte ((v >>> (8 * k)) &&& 0xff) = byte (v / 256 ^ k) := by
    intro k
    apply UInt8.toNat_inj.mp
    rw [Nat.shiftRight_eq_div_pow, pow_256]
    exact (congrArg (· % 256) (Nat.and_two_pow_sub_one_eq_mod _ 8)).trans (Nat.mod_mod _ _)
  exact congrArg₂ cons (hbyte 7) (congrArg₂ cons (hbyte 6)
    (congrArg₂ cons (hbyte 5) (congrArg₂ cons (hbyte 4)
      (congrArg₂ cons (hbyte 3) (congrArg₂ cons (hbyte 2)
        (congrArg₂ cons (hbyte 1) (congrArg₂ cons (hbyte 0) rfl)))))))

/-- Flipping by a sign mask leaves bytes alone or inverts them. -/
theorem flipByte_signMask (val : Int64) (c : UInt8) :
    flipByte (signMask val) c = if val < 0 then c ^^^ 0xff else c := by
  rw [signMask]
  split
  · rfl
  · exact UInt8.xor_zero

/-- Digits under the sign mask are the flipped digits. -/
theorem encodeBE_signMask {count : Nat} (h : count ≤ 8) (val : Int64) (x : Nat) :
    encodeBE count (signMask val ^^^ x) = (encodeBE count x).map (flipByte (signMask val)) := by
  rw [funext (flipByte_signMask val), signMask]
  split
  · exact encodeBE_flip (by omega) x
  · rw [Nat.zero_xor]
    exact (map_id _).symm

/-- The word of the magnitude in `len` bytes under the sign mask. -/
def flippedWord (val : Int64) (len : Nat) : List UInt8 :=
  (signedWord (magnitude val) len).map (flipByte (signMask val))

theorem length_flippedWord (val : Int64) (len : Nat) : (flippedWord val len).length = len := by
  rw [flippedWord, length_map, signedWord, length_encodeBE]

/-- The code of a signed number. -/
def signedCode (val : Int64) : List UInt8 := flippedWord val (signedEncodingLength (magnitude val))

/-- The header table holds the two leading digits of the header. -/
theorem kLengthToHeaderBits_eq (h : m ≤ 8) : kLengthToHeaderBits.getD (m + 2) (0, 0) =
    (byte (header (m + 2) / 256 ^ (m + 1)), byte (header (m + 2) / 256 ^ m)) := by
  decide +revert

/-- All digits but the first two are those of the number. -/
theorem encodeBE_header_xor (hm : m ≤ 8) (h : SignedLength x (m + 2)) :
    encodeBE m (header (m + 2) ^^^ x) = encodeBE m x := by
  have hheader : header (m + 2) = (2 ^ (m + 2) - 1) * 2 ^ (14 - m) * 256 ^ m := by
    rw [header, pow_256, mul_assoc, ← pow_add]
    congr 2
    omega
  rw [h.header_xor, hheader, encodeBE_mul_add]

/-- Writing a signed number appends its code. -/
theorem writeSignedNumIncreasing_eq (dest : List UInt8) (val : Int64) :
    writeSignedNumIncreasing dest val = dest ++ signedCode val := by
  have hx := magnitude_lt val
  have hlen := signedEncodingLength_spec hx
  have hbits := bits_eq val
  have hflip : ∀ c d : UInt8, flipByte (signMask val) c ^^^ d =
      flipByte (signMask val) (d ^^^ c) := by
    intro c d
    rw [flipByte, flipByte, UInt8.xor_comm d c, UInt8.xor_assoc, UInt8.xor_comm _ d,
      UInt8.xor_assoc]
  have hmag : (if val < 0 then (~~~ val).toUInt64.toNat else val.toUInt64.toNat) = magnitude val :=
    rfl
  rw [writeSignedNumIncreasing, signedCode, flippedWord]
  dsimp only
  rw [hmag, hbits, storeBigEndian64_eq]
  generalize magnitude val = x at hx hlen ⊢
  generalize signedEncodingLength x = len at hlen ⊢
  split
  · have hone : len = 1 := by
      by_contra hne
      have hpos := hlen.pos
      have hlow := hlen.two_pow_le (by omega)
      have hpow : 2 ^ 6 ≤ 2 ^ (7 * (len - 1) - 1) := Nat.pow_le_pow_right (by norm_num) (by omega)
      omega
    have hword : signedWord x 1 = [0x80 ^^^ byte x] := by
      have hdigit := byte_xor_div (header 1) x 0
      rw [pow_zero, Nat.div_one x] at hdigit
      exact congrArg (· :: []) hdigit
    have hbyte : byte (signMask val ^^^ x) = flipByte (signMask val) (byte x) := by
      have hdigit := encodeBE_signMask (by norm_num : 1 ≤ 8) val x
      simp only [encodeBE, pow_zero, Nat.div_one] at hdigit
      exact head_eq_of_cons_eq hdigit
    rw [hone, hword, hbyte, map_singleton, ← hflip, UInt8.xor_comm]
    rfl
  · obtain ⟨m, rfl⟩ : ∃ m, len = m + 2 := by
      refine ⟨len - 2, ?_⟩
      have hpos := hlen.pos
      by_contra hne
      have hone : len = 1 := by omega
      have hhigh := hlen.lt_two_pow
      rw [hone] at hhigh
      omega
    have hm : m ≤ 8 := by
      have hten := hlen.le_ten
      omega
    have hbuf : [if val < 0 then 0xff else 0, if val < 0 then 0xff else 0] ++
        encodeBE 8 (signMask val ^^^ x) = (encodeBE 10 x).map (flipByte (signMask val)) := by
      have hzero : x / 256 ^ 8 = 0 := Nat.div_eq_of_lt (by omega)
      have hsplit : encodeBE 10 x = [0, 0] ++ encodeBE 8 x := by
        rw [encodeBE_add 2 8 x, hzero]
        rfl
      rw [hsplit, map_append, encodeBE_signMask le_rfl]
      simp only [map_cons, flipByte_signMask]
      rfl
    have hdrop : (encodeBE 10 x).drop (10 - (m + 2)) = encodeBE (m + 2) x := by
      have hsplit := encodeBE_add (10 - (m + 2)) (m + 2) x
      rw [Nat.sub_add_cancel (by omega)] at hsplit
      rw [hsplit, drop_left' (length_encodeBE _ _)]
    rw [hbuf, ← map_drop, hdrop, kLengthToHeaderBits_eq hm]
    simp [signedWord, encodeBE, hflip, byte_xor_div, encodeBE_header_xor hm hlen]

/-! ## Reading -/

/-- The header mask removes exactly the header bits of a word. -/
theorem kLengthToMask_eq (h : len ≤ 10) (hpos : 0 < len) :
    kLengthToMask.getD len 0 = header len % 2 ^ 64 := by
  decide +revert

theorem flipByte_flipByte (val : Int64) (c : UInt8) :
    flipByte (signMask val) (flipByte (signMask val) c) = c := by
  rw [flipByte, flipByte, UInt8.xor_assoc, UInt8.xor_self, UInt8.xor_zero]

/-- The low 64 bits of a word under the sign mask, without the header bits, are the bits
of the number. -/
theorem finishSigned_eq (h : SignedLength (magnitude val) len) (src : List UInt8) :
    finishSigned src len (signMask val ^^^ (header len ^^^ magnitude val) % 2 ^ 64) =
      some (val, src.drop len) := by
  have hx : magnitude val % 2 ^ 64 = magnitude val :=
    Nat.mod_eq_of_lt ((magnitude_lt val).trans (by norm_num))
  have hmask : signMask val ^^^ (header len ^^^ magnitude val) % 2 ^ 64 ^^^
      kLengthToMask.getD len 0 = val.toUInt64.toNat := by
    rw [kLengthToMask_eq h.le_ten h.pos, Nat.xor_mod_two_pow, hx, bits_eq, Nat.xor_assoc,
      Nat.xor_comm (header len % 2 ^ 64), Nat.xor_assoc, Nat.xor_self, Nat.xor_zero]
  rw [finishSigned, hmask, UInt64.ofNat_toNat, Int64.toInt64_toUInt64]

theorem toNat_xor_ff (c : UInt8) : (c ^^^ 0xff).toNat = 255 - c.toNat := by
  rw [UInt8.toNat_xor, Nat.xor_comm]
  exact two_pow_sub_one_xor c.toNat_lt

/-- The top bit of the first byte tells the sign. -/
theorem signMask_of_first (val : Int64) {c : UInt8} (hc : 128 ≤ c.toNat) :
    (if flipByte (signMask val) c &&& 0x80 = 0 then 2 ^ 64 - 1 else 0) = signMask val := by
  have hbit : ∀ d : UInt8, d &&& 0x80 = 0 ↔ d.toNat < 128 := by
    intro d
    rw [← UInt8.toNat_inj]
    exact and_128_eq_zero_iff d.toNat_lt
  rw [flipByte_signMask, signMask]
  simp only [hbit]
  split
  · rw [if_pos (by rw [toNat_xor_ff]; omega)]
  · rw [if_neg (by omega)]

/-- Shifting in flipped bytes gives the flipped number. -/
theorem foldl_shiftIn_flip (val : Int64) (bytes : List UInt8) {t : Nat} (ht : t < 2 ^ 64) :
    (bytes.map (flipByte (signMask val))).foldl shiftIn (signMask val ^^^ t) =
      signMask val ^^^ bytes.foldl shiftIn t := by
  induction bytes generalizing t with
  | nil => rfl
  | cons c bytes ih =>
    have hlt := c.toNat_lt
    have hstep : shiftIn (signMask val ^^^ t) (flipByte (signMask val) c) =
        signMask val ^^^ shiftIn t c := by
      rw [flipByte_signMask, shiftIn_eq, shiftIn_eq, signMask]
      split
      · rw [toNat_xor_ff, two_pow_sub_one_xor ht, two_pow_sub_one_xor (Nat.mod_lt _ (by norm_num))]
        omega
      · rw [Nat.zero_xor, Nat.zero_xor]
    rw [map_cons, foldl_cons, foldl_cons, hstep, ih]
    rw [shiftIn_eq]
    exact Nat.mod_lt _ (by norm_num)

/-- Loading a big-endian word. -/
theorem loadBigEndian64_encodeBE (v : Nat) (rest : List UInt8) :
    loadBigEndian64 (encodeBE 8 v ++ rest) = v % 2 ^ 64 := by
  have hloop : ∀ k ≤ 8, (range k).foldl (fun result i =>
      result ||| ((encodeBE 8 v ++ rest).getD i 0).toNat <<< (56 - 8 * i)) 0 =
        (v / 256 ^ (8 - k) % 256 ^ k) <<< (64 - 8 * k) := by
    intro k
    induction k with
    | zero => simp [Nat.mod_one]
    | succ k ih =>
      intro hk
      have hb : v / 256 ^ (7 - k) % 256 < 2 ^ 8 := Nat.mod_lt _ (by norm_num)
      have hdiv : v / 256 ^ (8 - k) = v / 256 ^ (7 - k) / 256 := by
        rw [Nat.div_div_eq_div_mul, ← pow_succ]
        congr 2
        omega
      have hmod : v / 256 ^ (7 - k) % 256 ^ (k + 1) =
          (v / 256 ^ (8 - k) % 256 ^ k) <<< 8 + v / 256 ^ (7 - k) % 256 := by
        rw [hdiv, pow_succ, mul_comm, Nat.mod_mul]
        omega
      have hshift : 64 - 8 * k = 8 + (56 - 8 * k) := by omega
      rw [range_succ, foldl_append, ih (by omega), foldl_cons, foldl_nil,
        getD_encodeBE_append (by omega), byte_toNat, hshift, Nat.shiftLeft_add,
        ← Nat.shiftLeft_or_distrib, ← Nat.shiftLeft_add_eq_or_of_lt hb, ← hmod,
        show 8 - (k + 1) = 7 - k by omega]
      congr 1
      omega
  rw [loadBigEndian64, hloop 8 le_rfl]
  simp

/-- The reader in terms of the first byte of its input. -/
theorem readSignedNumIncreasing_of_head {src tail : List UInt8} {first : UInt8}
    (h : src = first :: tail)
    (hsign : (if first &&& 0x80 = 0 then 2 ^ 64 - 1 else 0) = signMask val) :
    readSignedNumIncreasing src =
      if flipByte (signMask val) first ≠ 0xff then
        let len := (7 - log2Floor64 (flipByte (signMask val) first ^^^ 0xff).toNat).toNat
        if src.length < len then none
        else finishSigned src len ((src.take len).foldl shiftIn (signMask val))
      else readLongSigned src (signMask val) := by
  subst h
  rw [readSignedNumIncreasing, hsign]

/-- The leading digit of a word, for code lengths up to eight. -/
theorem SignedLength.first_digit (h : SignedLength x len) (hlen : len ≤ 7) :
    256 ≤ (header len + x) / 256 ^ (len - 1) + 2 ^ (8 - len) ∧
      (header len + x) / 256 ^ (len - 1) + 2 ^ (7 - len) < 256 := by
  have hlt := h.lt_two_pow
  interval_cases len
  all_goals
    norm_num [header] at hlt ⊢
    omega

/-- A word followed by anything is read back, for code lengths up to seven. -/
theorem readSigned_short (h : SignedLength (magnitude val) len)
    (hlen : len ≤ 7) (suffix : List UInt8) :
    readSignedNumIncreasing (flippedWord val len ++ suffix) = some (val, suffix) := by
  have hpos := h.pos
  obtain ⟨hlow, hhigh⟩ := h.first_digit hlen
  have hxor := h.header_xor
  obtain ⟨n, rfl⟩ : ∃ n, len = n + 1 := ⟨len - 1, by omega⟩
  rw [Nat.add_sub_cancel] at hlow hhigh
  have hfits : header (n + 1) ^^^ magnitude val < 256 ^ (n + 1) := by
    rw [hxor, pow_256]
    exact (Nat.le_add_right _ _).trans_lt h.header_add_lt
  have hpow : 2 ^ (8 - (n + 1)) ≤ 2 ^ 7 := Nat.pow_le_pow_right (by norm_num) (by omega)
  have hdouble : 2 ^ (8 - (n + 1)) = 2 ^ (7 - (n + 1) + 1) := by
    congr 1
    omega
  have hword : signedWord (magnitude val) (n + 1) =
      byte ((header (n + 1) + magnitude val) / 256 ^ n) ::
        encodeBE n (header (n + 1) + magnitude val) := by
    rw [signedWord, hxor, encodeBE]
  generalize (header (n + 1) + magnitude val) / 256 ^ n = q at hlow hhigh hword
  have hbyte : (byte q).toNat = q := by
    rw [byte_toNat]
    omega
  have hsrc : flippedWord val (n + 1) ++ suffix = flipByte (signMask val) (byte q) ::
      ((encodeBE n (header (n + 1) + magnitude val)).map (flipByte (signMask val)) ++ suffix) := by
    rw [flippedWord, hword, map_cons, cons_append]
  have hsign := signMask_of_first val (c := byte q) (by omega)
  have hne : byte q ≠ 0xff := by
    intro he
    have hff := congrArg UInt8.toNat he
    rw [hbyte] at hff
    change q = 255 at hff
    omega
  have hlog : (7 - log2Floor64 (byte q ^^^ 0xff).toNat).toNat = n + 1 := by
    have hlog2 : (255 - q).log2 = 7 - (n + 1) :=
      (Nat.log2_eq_iff (by omega)).mpr ⟨by omega, by omega⟩
    rw [toNat_xor_ff, hbyte, log2Floor64]
    omega
  have hlength := length_flippedWord val (n + 1)
  have hfold : (flippedWord val (n + 1)).foldl shiftIn (signMask val) =
      signMask val ^^^ (header (n + 1) ^^^ magnitude val) % 2 ^ 64 := by
    have hflip := foldl_shiftIn_flip val (signedWord (magnitude val) (n + 1))
      (by norm_num : 0 < 2 ^ 64)
    rw [Nat.xor_zero] at hflip
    rw [flippedWord, hflip, signedWord, foldl_shiftIn_encodeBE, Nat.mod_eq_of_lt hfits]
  rw [readSignedNumIncreasing_of_head hsrc hsign, flipByte_flipByte, if_pos hne]
  rw [hlog, if_neg (by rw [length_append]; omega), take_left' hlength, hfold,
    finishSigned_eq h, drop_left' hlength]

/-- The last eight bytes of a word of at least eight. -/
theorem loadBigEndian64_flippedWord (val : Int64) (k : Nat) (suffix : List UInt8) :
    loadBigEndian64 ((flippedWord val (k + 8) ++ suffix).drop k) =
      signMask val ^^^ (header (k + 8) ^^^ magnitude val) % 2 ^ 64 := by
  have hmask : signMask val % 2 ^ 64 = signMask val := by
    rw [signMask]
    split <;> rfl
  have hlength : ((encodeBE k ((header (k + 8) ^^^ magnitude val) / 256 ^ 8)).map
      (flipByte (signMask val))).length = k := by
    rw [length_map, length_encodeBE]
  rw [flippedWord, signedWord, encodeBE_add, map_append, append_assoc, drop_left' hlength,
    ← encodeBE_signMask le_rfl, loadBigEndian64_encodeBE, Nat.xor_mod_two_pow, hmask]

/-- The leading digits of a word of at least eight bytes: all ones, then the rest of the
header, which tells the length. -/
theorem SignedLength.long_digits {k : Nat} (h : SignedLength x (k + 8)) (hx : x < 2 ^ 63)
    (hk : k ≤ 2) : (header (k + 8) + x) / 256 ^ (k + 7) % 256 = 255 ∧
      (k = 0 → (header (k + 8) + x) / 256 ^ (k + 6) % 256 < 128) ∧
      (k = 1 → 128 ≤ (header (k + 8) + x) / 256 ^ (k + 6) % 256 ∧
        (header (k + 8) + x) / 256 ^ (k + 6) % 256 < 192) ∧
      (k = 2 → (header (k + 8) + x) / 256 ^ (k + 6) % 256 = 192 ∧
        (header (k + 8) + x) / 256 ^ (k + 5) % 256 < 128) := by
  have hlt := h.lt_two_pow
  interval_cases k
  all_goals
    norm_num [header] at hlt ⊢
    omega

/-- A word followed by anything is read back, for code lengths from eight on. -/
theorem readSigned_long (h : SignedLength (magnitude val) len)
    (hlen : 8 ≤ len) (suffix : List UInt8) :
    readSignedNumIncreasing (flippedWord val len ++ suffix) = some (val, suffix) := by
  have hx := magnitude_lt val
  have hxor := h.header_xor
  obtain ⟨k, rfl⟩ : ∃ k, len = k + 8 := ⟨len - 8, by omega⟩
  have hk : k ≤ 2 := by
    have hten := h.le_ten
    omega
  have hlength := length_flippedWord val (k + 8)
  have hload := loadBigEndian64_flippedWord val k suffix
  have hfinish := finishSigned_eq h (flippedWord val (k + 8) ++ suffix)
  rw [← hload, drop_left' hlength] at hfinish
  have hsrc : flippedWord val (k + 8) ++ suffix =
      flipByte (signMask val) (byte ((header (k + 8) + magnitude val) / 256 ^ (k + 7))) ::
      flipByte (signMask val) (byte ((header (k + 8) + magnitude val) / 256 ^ (k + 6))) ::
      flipByte (signMask val) (byte ((header (k + 8) + magnitude val) / 256 ^ (k + 5))) ::
      ((encodeBE (k + 5) (header (k + 8) + magnitude val)).map (flipByte (signMask val)) ++
        suffix) := by
    rw [flippedWord, signedWord, hxor]
    rfl
  obtain ⟨hfirst, h8, h9, h10⟩ := h.long_digits hx hk
  generalize (header (k + 8) + magnitude val) / 256 ^ (k + 7) = q₀ at hfirst hsrc
  generalize (header (k + 8) + magnitude val) / 256 ^ (k + 6) = q₁ at h8 h9 h10 hsrc
  generalize (header (k + 8) + magnitude val) / 256 ^ (k + 5) = q₂ at h10 hsrc
  have hff : byte q₀ = 0xff := by
    apply UInt8.toNat_inj.mp
    rw [byte_toNat, hfirst]
    rfl
  have hsign := signMask_of_first val (c := byte q₀) (by rw [byte_toNat]; omega)
  have hlong : ¬ flipByte (signMask val) (flipByte (signMask val) (byte q₀)) ≠ 0xff := by
    rw [flipByte_flipByte, not_not]
    exact hff
  have hsize : k + 8 ≤ (flippedWord val (k + 8) ++ suffix).length := by
    rw [length_append]
    omega
  generalize flippedWord val (k + 8) ++ suffix = src at hsrc hfinish hsize ⊢
  have hsecond : flipByte (signMask val) (src.getD 1 0) = byte q₁ := by
    rw [hsrc]
    exact flipByte_flipByte val _
  have hthird : flipByte (signMask val) (src.getD 2 0) = byte q₂ := by
    rw [hsrc]
    exact flipByte_flipByte val _
  have hltc : ∀ (q : Nat) (c : UInt8), byte q < c ↔ q % 256 < c.toNat := by
    intro q c
    rw [UInt8.lt_iff_toNat_lt, byte_toNat]
  have h80 : (0x80 : UInt8).toNat = 128 := rfl
  have hc0 : (0xc0 : UInt8).toNat = 192 := rfl
  rw [readSignedNumIncreasing_of_head hsrc hsign, if_neg hlong, readLongSigned, hsecond, hthird]
  simp only [hltc, h80, hc0]
  rw [if_neg (by omega)]
  rcases (by omega : k = 0 ∨ k = 1 ∨ k = 2) with rfl | rfl | rfl
  · rw [if_pos (h8 rfl)]
    exact hfinish
  · obtain ⟨hge, hlt'⟩ := h9 rfl
    rw [if_neg (by omega), if_pos hlt', if_neg (by omega)]
    exact hfinish
  · obtain ⟨heq, hlt'⟩ := h10 rfl
    have hbyte : byte q₁ = 0xc0 := by
      apply UInt8.toNat_inj.mp
      rw [byte_toNat, heq]
      rfl
    rw [if_neg (by omega), if_neg (by omega), if_pos ⟨hbyte, hlt'⟩, if_neg (by omega)]
    exact hfinish

/-- A signed number followed by anything is read back. -/
theorem readSignedNumIncreasing_signedCode (val : Int64) (suffix : List UInt8) :
    readSignedNumIncreasing (signedCode val ++ suffix) = some (val, suffix) := by
  have h := signedEncodingLength_spec (magnitude_lt val)
  rcases lt_or_ge (signedEncodingLength (magnitude val)) 8 with hlt | hge
  · exact readSigned_short h (by omega) suffix
  · exact readSigned_long h hge suffix

/-! ## Order -/

theorem signedCode_of_nonneg (h : ¬ val < 0) : signedCode val =
    signedWord (magnitude val) (signedEncodingLength (magnitude val)) := by
  rw [signedCode, flippedWord, funext (flipByte_signMask val)]
  simp only [if_neg h]
  exact map_id _

theorem signedCode_of_neg (h : val < 0) : signedCode val =
    (signedWord (magnitude val) (signedEncodingLength (magnitude val))).map (· ^^^ 0xff) := by
  rw [signedCode, flippedWord, funext (flipByte_signMask val)]
  simp [if_pos h]

/-- Inverting bytes reverses their order. -/
theorem xor_ff_lt (c d : UInt8) (h : c < d) : d ^^^ 0xff < c ^^^ 0xff := by
  have hd := d.toNat_lt
  rw [UInt8.lt_iff_toNat_lt] at h ⊢
  rw [toNat_xor_ff, toNat_xor_ff]
  omega

/-- A word starts with a byte whose top bit is set. -/
theorem SignedLength.exists_head (h : SignedLength x len) (hx : x < 2 ^ 63) :
    ∃ c rest, signedWord x len = c :: rest ∧ 128 ≤ c.toNat := by
  have hlt := h.lt_two_pow
  obtain ⟨n, rfl⟩ := Nat.exists_eq_add_one_of_ne_zero h.pos.ne'
  have hn : n ≤ 9 := Nat.le_of_lt_succ h.le_ten
  refine ⟨_, _, rfl, ?_⟩
  rw [h.header_xor]
  interval_cases n
  all_goals
    norm_num [header] at hlt ⊢
    omega

/-- Smaller signed numbers have diverging codes. -/
theorem diverges_signedCode {a b : Int64} (h : a < b) : Diverges (signedCode a) (signedCode b) := by
  have ha := signedEncodingLength_spec (magnitude_lt a)
  have hb := signedEncodingLength_spec (magnitude_lt b)
  rcases lt_cases h with ⟨hna, hnb, hlt⟩ | ⟨hna, hnb, hlt⟩ | ⟨hna, hnb⟩
  · rw [signedCode_of_nonneg hna, signedCode_of_nonneg hnb]
    exact diverges_signedWord ha hb hlt
  · rw [signedCode_of_neg hna, signedCode_of_neg hnb]
    exact (diverges_signedWord hb ha hlt).map_antitone xor_ff_lt
  · obtain ⟨c, s, hc, hcbit⟩ := ha.exists_head (magnitude_lt a)
    obtain ⟨d, t, hd, hdbit⟩ := hb.exists_head (magnitude_lt b)
    rw [signedCode_of_neg hna, signedCode_of_nonneg hnb, hc, hd]
    refine .here ?_ _ _
    rw [UInt8.lt_iff_toNat_lt, toNat_xor_ff]
    omega

end Tension.Strings
