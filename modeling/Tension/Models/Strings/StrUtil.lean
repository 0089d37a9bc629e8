import Mathlib

/-!
# Leading decimal digits

`ConsumeLeadingDigits` accumulates a `uint64` modulo `2 ^ 64` and recognises an
overflow by the test `new_v / 8 < v`. The test is exact: without overflow the new
value is at least `10 * v`, and each wrap takes off more than the `2 * v` that the
test leaves free.
-/

namespace Tension.Strings

open List

/-- The bytes from `'0'` to `'9'`. Bytes above 127 are negative characters in the source,
which are not digits either. -/
def isDigit (c : UInt8) : Bool := 48 ≤ c.toNat && c.toNat ≤ 57

/-- The loop of `ConsumeLeadingDigits`: the value and the bytes from `p` on, or `none` after
an overflow. -/
def consumeDigitsLoop : UInt64 → List UInt8 → Option (UInt64 × List UInt8)
  | v, [] => some (v, [])
  | v, c :: rest =>
    if isDigit c then
      let newV := v * 10 + UInt64.ofNat (c.toNat - 48)
      if newV / 8 < v then none else consumeDigitsLoop newV rest
    else some (v, c :: rest)

/-- `ConsumeLeadingDigits`: the result with the string and the value behind the call. -/
def consumeLeadingDigits (s : List UInt8) (val : UInt64) : Bool × List UInt8 × UInt64 :=
  match consumeDigitsLoop 0 s with
  | none => (false, s, val)
  | some (v, rest) => if rest.length < s.length then (true, rest, v) else (false, s, val)

/-- The number that digits denote behind a number already read. -/
def digitsValue (n : Nat) (run : List UInt8) : Nat :=
  run.foldl (fun n c => 10 * n + (c.toNat - 48)) n

theorem le_digitsValue (n : Nat) (run : List UInt8) : n ≤ digitsValue n run := by
  induction run generalizing n with
  | nil => exact le_rfl
  | cons c run ih => exact le_trans (by omega) (ih (10 * n + (c.toNat - 48)))

/-- The test for an overflow is exact. -/
theorem div_eight_lt_iff (v : UInt64) {d : Nat} (hd : d ≤ 9) :
    (v * 10 + UInt64.ofNat d) / 8 < v ↔ 2 ^ 64 ≤ 10 * v.toNat + d := by
  have hv := v.toNat_lt
  simp only [UInt64.lt_iff_toNat_lt, UInt64.toNat_div, UInt64.toNat_add, UInt64.toNat_mul,
    UInt64.toNat_ofNat', UInt64.reduceToNat]
  omega

/-- The loop stops behind the run of digits, unless their number overflows. -/
theorem consumeDigitsLoop_eq (v : UInt64) (s : List UInt8) : consumeDigitsLoop v s =
    if digitsValue v.toNat (s.takeWhile isDigit) < 2 ^ 64 then
      some (UInt64.ofNat (digitsValue v.toNat (s.takeWhile isDigit)), s.dropWhile isDigit)
    else none := by
  induction s generalizing v with
  | nil => simp [consumeDigitsLoop, digitsValue, v.toNat_lt]
  | cons c rest ih =>
    rw [consumeDigitsLoop]
    by_cases hc : isDigit c
    · have hd : c.toNat - 48 ≤ 9 := by
        simp only [isDigit, Bool.and_eq_true, decide_eq_true_eq] at hc
        omega
      simp only [if_pos hc, takeWhile_cons_of_pos hc, dropWhile_cons_of_pos hc]
      have hle := le_digitsValue (10 * v.toNat + (c.toNat - 48)) (rest.takeWhile isDigit)
      change _ = if digitsValue (10 * v.toNat + (c.toNat - 48)) _ < 2 ^ 64 then _ else _
      by_cases hover : 2 ^ 64 ≤ 10 * v.toNat + (c.toNat - 48)
      · rw [if_pos ((div_eight_lt_iff v hd).mpr hover), if_neg (by omega)]
      · have hnew : (v * 10 + UInt64.ofNat (c.toNat - 48)).toNat =
            10 * v.toNat + (c.toNat - 48) := by
          simp only [UInt64.toNat_add, UInt64.toNat_mul, UInt64.toNat_ofNat', UInt64.reduceToNat]
          omega
        rw [if_neg (mt (div_eight_lt_iff v hd).mp hover), ih, hnew]
        rfl
    · simp [if_neg hc, takeWhile_cons_of_neg hc, dropWhile_cons_of_neg hc, digitsValue, v.toNat_lt]

/-- `ConsumeLeadingDigits` succeeds exactly on a non-empty run of digits that denotes a
`uint64`, which it then yields and removes, and otherwise changes nothing. -/
theorem consumeLeadingDigits_eq (s : List UInt8) (val : UInt64) :
    consumeLeadingDigits s val =
      if s.takeWhile isDigit ≠ [] ∧ digitsValue 0 (s.takeWhile isDigit) < 2 ^ 64 then
        (true, s.dropWhile isDigit, UInt64.ofNat (digitsValue 0 (s.takeWhile isDigit)))
      else (false, s, val) := by
  have hlength : (s.dropWhile isDigit).length < s.length ↔ s.takeWhile isDigit ≠ [] := by
    have happend := congrArg length (takeWhile_append_dropWhile (p := isDigit) (l := s))
    rw [length_append] at happend
    rw [← length_pos_iff_ne_nil]
    omega
  rw [consumeLeadingDigits, consumeDigitsLoop_eq, UInt64.toNat_zero]
  by_cases hfits : digitsValue 0 (s.takeWhile isDigit) < 2 ^ 64
  · rw [if_pos hfits]
    simp only [hlength, hfits, and_true]
  · rw [if_neg hfits, if_neg (fun h => hfits h.2)]

end Tension.Strings
