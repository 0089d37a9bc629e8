import Tension.Core.OrderedCode

/-!
# Base-256 digits of fixed length

A natural number is written with a prescribed number of bytes, least or most
significant byte first. Reading the bytes back is exact below the corresponding power
of 256. Words of equal length with the most significant byte first compare as the
numbers do.
-/

namespace Tension.Endian

/-- The byte holding a natural number modulo 256. -/
def byte (n : Nat) : UInt8 := UInt8.ofNat n

@[simp] theorem byte_toNat (n : Nat) : (byte n).toNat = n % 256 := by
  simp [byte]

/-- `count` bytes of `v`, least significant first. -/
def encodeLE (count v : Nat) : List UInt8 :=
  match count with
  | 0 => []
  | count + 1 => byte v :: encodeLE count (v / 256)

/-- The number whose bytes are given, least significant first. -/
def decodeLE : List UInt8 → Nat
  | [] => 0
  | b :: rest => b.toNat + 256 * decodeLE rest

@[simp] theorem length_encodeLE (count v : Nat) : (encodeLE count v).length = count := by
  induction count generalizing v with
  | zero => rfl
  | succ count ih => rw [encodeLE, List.length_cons, ih]

theorem decodeLE_encodeLE {count v : Nat} (h : v < 256 ^ count) :
    decodeLE (encodeLE count v) = v := by
  induction count generalizing v with
  | zero =>
    simp only [encodeLE, decodeLE]
    omega
  | succ count ih =>
    rw [encodeLE, decodeLE, byte_toNat, ih (by omega)]
    omega

theorem encodeLE_decodeLE (bytes : List UInt8) :
    encodeLE bytes.length (decodeLE bytes) = bytes := by
  induction bytes with
  | nil => rfl
  | cons b rest ih =>
    have hb := b.toNat_lt
    have hbyte : byte (b.toNat + 256 * decodeLE rest) = b := by
      apply UInt8.toNat_inj.mp
      rw [byte_toNat]
      omega
    have hrest : (b.toNat + 256 * decodeLE rest) / 256 = decodeLE rest := by omega
    rw [List.length_cons, decodeLE, encodeLE, hbyte, hrest, ih]

theorem decodeLE_lt (bytes : List UInt8) : decodeLE bytes < 256 ^ bytes.length := by
  induction bytes with
  | nil => simp [decodeLE]
  | cons b rest ih =>
    have hb := b.toNat_lt
    rw [decodeLE, List.length_cons]
    omega

/-- The top bit of a byte. -/
theorem and_128_eq_zero_iff {n : Nat} (hn : n < 256) : n &&& 128 = 0 ↔ n < 128 := by
  decide +revert +kernel

/-! ## Most significant byte first -/

/-- `count` bytes of `v`, most significant first. -/
def encodeBE : Nat → Nat → List UInt8
  | 0, _ => []
  | count + 1, v => byte (v / 256 ^ count) :: encodeBE count v

@[simp] theorem length_encodeBE (count v : Nat) : (encodeBE count v).length = count := by
  induction count with
  | zero => rfl
  | succ count ih => rw [encodeBE, List.length_cons, ih]

/-- A long word is the word of the high part followed by that of the low part. -/
theorem encodeBE_add (a b v : Nat) :
    encodeBE (a + b) v = encodeBE a (v / 256 ^ b) ++ encodeBE b v := by
  induction a with
  | zero => rw [zero_add, encodeBE, List.nil_append]
  | succ a ih =>
    rw [add_right_comm, encodeBE, encodeBE, List.cons_append, ih, Nat.div_div_eq_div_mul,
      ← pow_add, add_comm b a]

/-- Only the residue modulo the power of 256 is written. -/
theorem encodeBE_mul_add (count k v : Nat) :
    encodeBE count (k * 256 ^ count + v) = encodeBE count v := by
  induction count generalizing k with
  | zero => rfl
  | succ count ih =>
    have hpos : 0 < 256 ^ count := by positivity
    have hk : k * 256 ^ (count + 1) = k * 256 * 256 ^ count := by rw [pow_succ]; ring
    have hbyte : byte (k * 256 + v / 256 ^ count) = byte (v / 256 ^ count) := by
      apply UInt8.toNat_inj.mp
      rw [byte_toNat, byte_toNat, add_comm, Nat.add_mul_mod_self_right]
    rw [encodeBE, encodeBE, hk, ih, add_comm, Nat.add_mul_div_right _ _ hpos, add_comm,
      hbyte]

theorem encodeBE_mod (count v : Nat) : encodeBE count (v % 256 ^ count) = encodeBE count v := by
  have h := encodeBE_mul_add count (v / 256 ^ count) (v % 256 ^ count)
  rwa [mul_comm, Nat.div_add_mod, eq_comm] at h

/-- The digit at a position of a word. -/
theorem getD_encodeBE_append {count i : Nat} (hi : i < count) (v : Nat) (rest : List UInt8)
    (d : UInt8) : (encodeBE count v ++ rest).getD i d = byte (v / 256 ^ (count - 1 - i)) := by
  induction count generalizing i with
  | zero => omega
  | succ count ih =>
    rw [encodeBE, List.cons_append]
    cases i with
    | zero => rfl
    | succ i =>
      rw [List.getD_cons_succ, ih (by omega)]
      congr 3
      omega

/-! ## Bitwise exclusive or -/

/-- Disjoint bits are added. -/
theorem mul_two_pow_xor {a k x : Nat} (hx : x < 2 ^ k) : a * 2 ^ k ^^^ x = a * 2 ^ k + x := by
  apply Nat.eq_of_testBit_eq
  intro i
  rw [Nat.testBit_xor, mul_comm, Nat.testBit_two_pow_mul, Nat.testBit_two_pow_mul_add a hx]
  split
  · next h => simp [Nat.not_le.mpr h]
  · next h =>
    have hhigh : x.testBit i = false :=
      Nat.testBit_lt_two_pow (hx.trans_le (Nat.pow_le_pow_right (by norm_num) (by omega)))
    simp [hhigh, Nat.not_lt.mp h]

/-- Flipping all bits of a word is subtraction from the largest one. -/
theorem two_pow_sub_one_xor {k x : Nat} (hx : x < 2 ^ k) : (2 ^ k - 1) ^^^ x = 2 ^ k - 1 - x := by
  apply Nat.eq_of_testBit_eq
  intro i
  rw [Nat.sub_sub, add_comm 1 x, Nat.testBit_two_pow_sub_succ hx]
  by_cases h : i < k
  · simp [h]
  · have hhigh : x.testBit i = false :=
      Nat.testBit_lt_two_pow (hx.trans_le (Nat.pow_le_pow_right (by norm_num) (by omega)))
    simp [hhigh]

theorem byte_xor (a b : Nat) : byte (a ^^^ b) = byte a ^^^ byte b := by
  apply UInt8.toNat_inj.mp
  exact Nat.xor_mod_two_pow

/-- Each digit of an exclusive or is the exclusive or of the digits. -/
theorem byte_xor_div (a b j : Nat) :
    byte ((a ^^^ b) / 256 ^ j) = byte (a / 256 ^ j) ^^^ byte (b / 256 ^ j) := by
  have hpow : 256 ^ j = 2 ^ (8 * j) := by rw [pow_mul]; norm_num
  rw [hpow, ← Nat.shiftRight_eq_div_pow, Nat.shiftRight_xor_distrib, byte_xor,
    Nat.shiftRight_eq_div_pow, Nat.shiftRight_eq_div_pow]

/-- Flipping all bits of a number flips all bits of its digits. -/
theorem encodeBE_flip {count m : Nat} (hm : 8 * count ≤ m) (x : Nat) :
    encodeBE count ((2 ^ m - 1) ^^^ x) = (encodeBE count x).map (· ^^^ 0xff) := by
  induction count with
  | zero => rfl
  | succ count ih =>
    have hones : byte ((2 ^ m - 1) / 256 ^ count) = 0xff := by
      have hpow : 2 ^ m = 2 ^ (m - 8 * count - 8) * 256 * 256 ^ count := by
        rw [show (256 : Nat) = 2 ^ 8 by norm_num, ← pow_mul, ← pow_add, ← pow_add]
        congr 1
        omega
      have hlead : 0 < 2 ^ (m - 8 * count - 8) := by positivity
      have hdiv : (2 ^ m - 1) / 256 ^ count = 2 ^ (m - 8 * count - 8) * 256 - 1 := by
        have hsub := Nat.mul_sub_div 0 (256 ^ count) (2 ^ (m - 8 * count - 8) * 256) (by positivity)
        rwa [Nat.zero_div, mul_comm, ← hpow] at hsub
      apply UInt8.toNat_inj.mp
      rw [hdiv]
      change (2 ^ (m - 8 * count - 8) * 256 - 1) % 256 = 255
      omega
    rw [encodeBE, encodeBE, byte_xor_div, ih (by omega), List.map_cons, hones, UInt8.xor_comm]

/-- Accumulating the bytes of a word. -/
theorem foldl_encodeBE (count v t : Nat) :
    (encodeBE count v).foldl (fun t b => t * 256 + b.toNat) t =
      t * 256 ^ count + v % 256 ^ count := by
  induction count generalizing t with
  | zero => simp [encodeBE, Nat.mod_one]
  | succ count ih =>
    have hmod : v % 256 ^ (count + 1) =
        v % 256 ^ count + 256 ^ count * (v / 256 ^ count % 256) := by
      rw [pow_succ, Nat.mod_mul]
    rw [encodeBE, List.foldl_cons, ih, byte_toNat, hmod]
    ring

/-- Words of the same length diverge in the order of their numbers. -/
theorem diverges_encodeBE {count v w : Nat} (hvw : v < w) (hw : w < 256 ^ count) :
    OrderedCode.Diverges (encodeBE count v) (encodeBE count w) := by
  induction count generalizing v w with
  | zero => exact absurd hw (by simp; omega)
  | succ count ih =>
    have hpos : 0 < 256 ^ count := by positivity
    have hdw : w / 256 ^ count < 256 := by
      rw [Nat.div_lt_iff_lt_mul hpos, mul_comm]
      exact hw
    have hle : v / 256 ^ count ≤ w / 256 ^ count := Nat.div_le_div_right hvw.le
    rw [encodeBE, encodeBE]
    rcases Nat.lt_or_eq_of_le hle with hlt | heq
    · refine .here ?_ _ _
      rw [UInt8.lt_iff_toNat_lt, byte_toNat, byte_toNat, Nat.mod_eq_of_lt hdw,
        Nat.mod_eq_of_lt (hlt.trans hdw)]
      exact hlt
    · rw [heq, ← encodeBE_mod count v, ← encodeBE_mod count w]
      refine .cons _ (ih ?_ (Nat.mod_lt _ hpos))
      have hv' := Nat.div_add_mod v (256 ^ count)
      have hw' := Nat.div_add_mod w (256 ^ count)
      rw [heq] at hv'
      omega

end Tension.Endian
