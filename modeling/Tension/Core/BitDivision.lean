import Mathlib.Logic.Function.Iterate

/-!
# Division of bit vectors

A bit vector is divided by a polynomial one bit at a time, lowest bit first. A step is linear in
exclusive or, moves a vector with a clear lowest bit down, and loses nothing if the polynomial
has its highest bit set.
-/

namespace Tension.BitDivision

variable {w n : Nat} {poly a b c : BitVec w}

/-- One bit of the division. -/
def step (poly c : BitVec w) : BitVec w := if c.getLsbD 0 then (c >>> 1) ^^^ poly else c >>> 1

/-- Several bits of the division. -/
def steps (poly : BitVec w) (n : Nat) (c : BitVec w) : BitVec w := (step poly)^[n] c

theorem step_xor (poly a b : BitVec w) : step poly (a ^^^ b) = step poly a ^^^ step poly b := by
  simp only [step, BitVec.getLsbD_xor, BitVec.ushiftRight_xor_distrib]
  cases a.getLsbD 0 <;> cases b.getLsbD 0
  · simp
  · simp [BitVec.xor_assoc]
  · simp only [Bool.xor_false, if_true, Bool.false_eq_true, if_false]
    rw [BitVec.xor_assoc, BitVec.xor_assoc, BitVec.xor_comm poly]
  · simp only [Bool.xor_self, Bool.false_eq_true, if_false, if_true]
    rw [BitVec.xor_assoc, BitVec.xor_comm (b >>> 1) poly, ← BitVec.xor_assoc poly,
      BitVec.xor_self, BitVec.zero_xor]

/-- The division is linear. -/
theorem steps_xor (poly : BitVec w) (n : Nat) (a b : BitVec w) :
    steps poly n (a ^^^ b) = steps poly n a ^^^ steps poly n b := by
  induction n generalizing a b with
  | zero => rfl
  | succ n ih =>
    simp only [steps, Function.iterate_succ_apply, step_xor] at ih ⊢
    exact ih _ _

theorem steps_add (poly : BitVec w) (m n : Nat) (c : BitVec w) :
    steps poly (m + n) c = steps poly m (steps poly n c) := Function.iterate_add_apply ..

/-- Low bits that are clear are shifted out. -/
theorem steps_of_low_clear (h : ∀ i < n, c.getLsbD i = false) : steps poly n c = c >>> n := by
  induction n with
  | zero => simp [steps]
  | succ n ih =>
    have hlow : (c >>> n).getLsbD 0 = false := by
      exact h n (by omega)
    rw [steps, Function.iterate_succ_apply', ← steps, ih fun i hi => h i (by omega), step, hlow]
    rfl

variable (h : poly.getLsbD (w - 1) = true)
include h

/-- The highest bit after a step is the bit that was shifted out. -/
theorem step_injective : Function.Injective (step poly) := by
  have hhigh (c : BitVec w) : (step poly c).getLsbD (w - 1) = c.getLsbD 0 := by
    have hzero : (c >>> 1).getLsbD (w - 1) = false := by
      rw [BitVec.getLsbD_ushiftRight, BitVec.getLsbD_of_ge c _ (by omega)]
    rw [step]
    split
    · rename_i hbit
      rw [BitVec.getLsbD_xor, hzero, h, hbit]
      rfl
    · rename_i hbit
      rw [hzero, eq_false_of_ne_true hbit]
  intro a b hab
  have hbit : a.getLsbD 0 = b.getLsbD 0 := by rw [← hhigh, ← hhigh, hab]
  have hrest : a >>> 1 = b >>> 1 := by
    rw [step, step, hbit] at hab
    split at hab
    · have hcancel := congrArg (· ^^^ poly) hab
      simpa using hcancel
    · exact hab
  apply BitVec.eq_of_getLsbD_eq
  intro i hi
  rcases Nat.eq_zero_or_pos i with rfl | hi
  · exact hbit
  · have hshift := congrArg (fun c => BitVec.getLsbD c (i - 1)) hrest
    simp only [BitVec.getLsbD_ushiftRight] at hshift
    rwa [Nat.add_sub_cancel' hi] at hshift

theorem steps_injective (n : Nat) :
    Function.Injective (steps poly n) := (step_injective h).iterate n

end Tension.BitDivision
