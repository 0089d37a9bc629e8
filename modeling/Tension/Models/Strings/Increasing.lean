import Tension.Models.Strings.OrderedCode

/-!
# Codes of strings and unsigned numbers

The escaped form of a byte starts with the byte itself, so two strings diverge where
their first different bytes do; the terminator is smaller than every escaped byte. The
length byte of a number decides between numbers of different sizes.
-/

namespace Tension.Strings

open Endian OrderedCode List

/-! ## Strings -/

variable (c : UInt8)

/-- The escaped form of one byte. -/
def escape : List UInt8 :=
  if c = kEscape1 then [kEscape1, kNullCharacter]
  else if c = kEscape2 then [kEscape2, kFFCharacter] else [c]

/-- The special bytes are the two escape characters. -/
theorem isSpecialByte_iff : isSpecialByte c = true ↔ c = kEscape1 ∨ c = kEscape2 := by
  have hc := c.toNat_lt
  rw [isSpecialByte, decide_eq_true_iff, ← UInt8.toNat_inj, ← UInt8.toNat_inj]
  change (c.toNat + 1) % 2 ^ 8 < 2 ↔ c.toNat = 0 ∨ c.toNat = 255
  omega

/-- The encoding loop appends the escaped bytes. -/
theorem encodeStringLoop_eq (dest pending s : List UInt8) :
    encodeStringLoop dest pending s = dest ++ pending ++ s.flatMap escape := by
  induction s generalizing dest pending with
  | nil => rw [encodeStringLoop, flatMap_nil, append_nil]
  | cons c s ih =>
    have hspecial := isSpecialByte_iff c
    rw [encodeStringLoop, flatMap_cons, escape]
    by_cases h1 : c = kEscape1
    · rw [if_pos (hspecial.mpr (.inl h1)), if_pos h1, if_pos h1, ih]
      simp
    · by_cases h2 : c = kEscape2
      · rw [if_pos (hspecial.mpr (.inr h2)), if_neg h1, if_neg h1, if_pos h2, ih]
        simp
      · have hplain : ¬ isSpecialByte c = true := fun h => (hspecial.mp h).elim h1 h2
        rw [if_neg hplain, if_neg h1, if_neg h2, ih]
        simp

/-- The code of a string. -/
def stringWord (s : List UInt8) : List UInt8 := s.flatMap escape ++ [kEscape1, kSeparator]

theorem writeString_eq (dest s : List UInt8) : writeString dest s = dest ++ stringWord s := by
  rw [writeString, encodeStringLoop_eq, stringWord, append_nil, append_assoc]

/-- The reading loop undoes the escapes and stops at the terminator. -/
theorem readStringLoop_stringWord (result pending s suffix : List UInt8) :
    readStringLoop result pending (stringWord s ++ suffix) =
      some (result ++ pending ++ s, suffix) := by
  induction s generalizing result pending with
  | nil => simp [stringWord, readStringLoop, isSpecialByte, kEscape1]
  | cons c s ih =>
    have hspecial := isSpecialByte_iff c
    have hword : stringWord (c :: s) ++ suffix = escape c ++ (stringWord s ++ suffix) := by
      simp [stringWord]
    rw [hword, escape]
    by_cases h1 : c = kEscape1
    · subst h1
      have hnext : ¬ kNullCharacter = kSeparator := by decide
      rw [if_pos rfl, cons_append, cons_append, nil_append, readStringLoop,
        if_pos (hspecial.mpr (.inl rfl)), if_neg hnext, ih]
      simp [kEscape1]
    · by_cases h2 : c = kEscape2
      · subst h2
        rw [if_neg h1, if_pos rfl, cons_append, cons_append, nil_append, readStringLoop,
          if_pos (hspecial.mpr (.inr rfl)), if_neg h1, ih]
        simp [kEscape2]
      · have hplain : ¬ isSpecialByte c = true := fun h => (hspecial.mp h).elim h1 h2
        have hne : stringWord s ++ suffix ≠ [] := by simp [stringWord]
        obtain ⟨next, rest, htail⟩ := exists_cons_of_ne_nil hne
        have hrec := ih result (pending ++ [c])
        rw [htail] at hrec
        rw [if_neg h1, if_neg h2, singleton_append, htail, readStringLoop, if_neg hplain, hrec]
        simp

/-- The escaped form of a byte starts with the byte. -/
theorem escape_eq_cons : ∃ rest, escape c = c :: rest := by
  rw [escape]
  split
  · next h => exact ⟨_, by rw [h]⟩
  · split
    · next h => exact ⟨_, by rw [h]⟩
    · exact ⟨[], rfl⟩

/-- The terminator diverges from every escaped byte. -/
theorem diverges_terminator (s : List UInt8) :
    Diverges [kEscape1, kSeparator] (escape c ++ s) := by
  rw [escape]
  by_cases h1 : c = kEscape1
  · rw [if_pos h1]
    exact .cons _ (.here (by decide) _ _)
  have hpos : ∀ d : UInt8, d ≠ kEscape1 → kEscape1 < d := by
    intro d hd
    have hne : d.toNat ≠ 0 := fun h => hd (UInt8.toNat_inj.mp h)
    change 0 < d.toNat
    omega
  rw [if_neg h1]
  split
  · exact .here (by decide) _ _
  · exact .here (hpos c h1) _ _

/-- Smaller strings have diverging codes. -/
theorem diverges_stringWord {s t : List UInt8} (h : s < t) :
    Diverges (stringWord s) (stringWord t) := by
  induction h with
  | @nil c t =>
    rw [stringWord, stringWord, flatMap_cons, append_assoc]
    exact diverges_terminator c _
  | @rel c s d t hlt =>
    obtain ⟨u, hu⟩ := escape_eq_cons c
    obtain ⟨v, hv⟩ := escape_eq_cons d
    rw [stringWord, stringWord, flatMap_cons, flatMap_cons, hu, hv]
    exact .here hlt _ _
  | @cons c s t _ ih =>
    rw [stringWord, stringWord, flatMap_cons, flatMap_cons, append_assoc, append_assoc]
    exact ih.append_left _

/-! ## Unsigned numbers -/

/-- The shortest number of digits that holds `v`. -/
structure DigitCount (v n : Nat) : Prop where
  lt_pow : v < 256 ^ n
  pow_le : 0 < n → 256 ^ (n - 1) ≤ v

/-- Smaller numbers do not need more digits. -/
theorem DigitCount.le {v w m n : Nat} (hv : DigitCount v m) (hw : DigitCount w n) (h : v < w) :
    m ≤ n := by
  by_contra hgt
  have hpow : 256 ^ n ≤ 256 ^ (m - 1) := Nat.pow_le_pow_right (by norm_num) (by omega)
  have hlow := hv.pow_le (by omega)
  have hhigh := hw.lt_pow
  omega

/-- The digit loop stores the digits without leading zeros. -/
theorem numBytesLoop_eq {fuel v : Nat} (hv : v < 256 ^ fuel) (buf : List UInt8) :
    ∃ n ≤ fuel, DigitCount v n ∧ numBytesLoop fuel v buf = encodeBE n v ++ buf := by
  induction fuel generalizing v buf with
  | zero =>
    rw [pow_zero, Nat.lt_one_iff] at hv
    exact ⟨0, le_rfl, ⟨by rw [hv]; norm_num, fun h => absurd h (lt_irrefl 0)⟩, rfl⟩
  | succ fuel ih =>
    rw [numBytesLoop]
    by_cases hpos : 0 < v
    · have hshift : v >>> 8 = v / 256 := Nat.shiftRight_eq_div_pow v 8
      have hmask : v &&& 0xff = v % 256 := Nat.and_two_pow_sub_one_eq_mod v 8
      have hbyte : byte (v % 256) = byte v := by
        apply UInt8.toNat_inj.mp
        rw [byte_toNat, byte_toNat, Nat.mod_mod]
      obtain ⟨n, hn, hcount, hloop⟩ := ih (v := v / 256) (by omega) (byte v :: buf)
      refine ⟨n + 1, by omega, ⟨?_, fun _ => ?_⟩, ?_⟩
      · have hlt := hcount.lt_pow
        omega
      · rw [Nat.add_sub_cancel]
        rcases Nat.eq_zero_or_pos n with rfl | hn0
        · exact hpos
        · have hlow := hcount.pow_le hn0
          have hsplit : 256 ^ n = 256 ^ (n - 1) * 256 := by
            rw [← pow_succ, Nat.sub_add_cancel hn0]
          omega
      · rw [if_pos hpos, hshift, hmask, hbyte, hloop, encodeBE_add n 1 v]
        simp [encodeBE]
    · have hzero : v = 0 := by omega
      rw [if_neg hpos]
      exact ⟨0, Nat.zero_le _, ⟨by rw [hzero]; norm_num, fun h => absurd h (Nat.lt_irrefl 0)⟩, rfl⟩

/-- The code of a number. -/
def numWord (val : UInt64) : List UInt8 :=
  byte (numBytesLoop 8 val.toNat []).length :: numBytesLoop 8 val.toNat []

/-- The code is a length byte and that many digits. -/
theorem numWord_eq (val : UInt64) : ∃ n ≤ 8, DigitCount val.toNat n ∧
    numWord val = byte n :: encodeBE n val.toNat := by
  have hlt : val.toNat < 256 ^ 8 := val.toNat_lt
  obtain ⟨n, hn, hcount, hloop⟩ := numBytesLoop_eq hlt []
  rw [append_nil] at hloop
  exact ⟨n, hn, hcount, by rw [numWord, hloop, length_encodeBE]⟩

/-- Shifting in a byte is multiplication and addition modulo the word size. -/
theorem shiftIn_eq (x : Nat) (c : UInt8) : shiftIn x c = (x * 256 + c.toNat) % 2 ^ 64 := by
  have hc : c.toNat < 2 ^ 8 := c.toNat_lt
  have hmod : x <<< 8 % 2 ^ 64 = (x % 2 ^ 56) <<< 8 := by
    omega
  rw [shiftIn, hmod, ← Nat.shiftLeft_add_eq_or_of_lt hc]
  omega

theorem foldl_shiftIn_lt (bytes : List UInt8) {x : Nat} (hx : x < 2 ^ 64) :
    bytes.foldl shiftIn x < 2 ^ 64 := by
  induction bytes generalizing x with
  | nil => exact hx
  | cons b bytes ih =>
    refine ih ?_
    rw [shiftIn_eq]
    exact Nat.mod_lt _ (by norm_num)

/-- Shifting in bytes computes modulo the word size. -/
theorem foldl_shiftIn_mod (bytes : List UInt8) {x y : Nat} (h : x % 2 ^ 64 = y % 2 ^ 64) :
    bytes.foldl shiftIn x % 2 ^ 64 =
      bytes.foldl (fun t b => t * 256 + b.toNat) y % 2 ^ 64 := by
  induction bytes generalizing x y with
  | nil => exact h
  | cons b bytes ih =>
    have hstep : shiftIn x b % 2 ^ 64 = (y * 256 + b.toNat) % 2 ^ 64 := by
      rw [shiftIn_eq]
      omega
    exact ih hstep

/-- Shifting in the digits of a number. -/
theorem foldl_shiftIn_encodeBE (count v : Nat) :
    (encodeBE count v).foldl shiftIn 0 = v % 256 ^ count % 2 ^ 64 := by
  have hlt : (encodeBE count v).foldl shiftIn 0 < 2 ^ 64 := foldl_shiftIn_lt _ (by norm_num)
  rw [← Nat.mod_eq_of_lt hlt, foldl_shiftIn_mod (encodeBE count v) (rfl : 0 % 2 ^ 64 = 0 % 2 ^ 64),
    foldl_encodeBE, zero_mul, zero_add]

/-- A number followed by anything is read back. -/
theorem readNumIncreasing_numWord (val : UInt64) (suffix : List UInt8) :
    readNumIncreasing (numWord val ++ suffix) = some (val, suffix) := by
  obtain ⟨n, hn, hcount, hword⟩ := numWord_eq val
  have hlen : (byte n).toNat = n := by
    rw [byte_toNat]
    omega
  have hfit : ¬ ((byte n :: (encodeBE n val.toNat ++ suffix)).length < n + 1 ∨ 8 < n) := by
    rw [length_cons, length_append, length_encodeBE]
    omega
  have hval : UInt64.ofNat (val.toNat % 256 ^ n % 2 ^ 64) = val := by
    rw [Nat.mod_eq_of_lt hcount.lt_pow, Nat.mod_eq_of_lt val.toNat_lt, UInt64.ofNat_toNat]
  rw [hword, cons_append, readNumIncreasing, hlen, if_neg hfit, take_left' (length_encodeBE n _),
    drop_left' (length_encodeBE n _), foldl_shiftIn_encodeBE, hval]

/-- Smaller numbers have diverging codes. -/
theorem diverges_numWord {v w : UInt64} (h : v < w) : Diverges (numWord v) (numWord w) := by
  obtain ⟨m, hm, hv, hvw⟩ := numWord_eq v
  obtain ⟨n, hn, hw, hww⟩ := numWord_eq w
  rw [hvw, hww]
  rcases Nat.lt_or_eq_of_le (hv.le hw h) with hlt | rfl
  · refine .here ?_ _ _
    rw [UInt8.lt_iff_toNat_lt, byte_toNat, byte_toNat]
    omega
  · exact .cons _ (diverges_encodeBE h hw.lt_pow)

end Tension.Strings
