import Mathlib

/-!
# The Philox counter

A generator is a 128-bit counter in four words and a key. Drawing a sample runs ten
rounds on copies of both and advances the counter by one. `Skip` adds a 64-bit count
with carries found by comparison; the carry out of the first word is added to the
high half of the count, and is lost when that half is already full.
-/

namespace Tension.Random

/-- `ResultType`: four words, least significant first. -/
@[ext] structure ResultType where
  w0 : UInt32
  w1 : UInt32
  w2 : UInt32
  w3 : UInt32
  deriving DecidableEq, Repr

/-- `PhiloxRandom`. -/
structure PhiloxRandom where
  counter : ResultType
  key : UInt32 × UInt32
  deriving DecidableEq, Repr

/-- `MultiplyHighLow`: the low and the high word of a product. -/
def multiplyHighLow (a b : UInt32) : UInt32 × UInt32 :=
  let product := a.toUInt64 * b.toUInt64
  (product.toUInt32, (product >>> 32).toUInt32)

/-- `ComputeSingleRound`. -/
def computeSingleRound (counter : ResultType) (key : UInt32 × UInt32) : ResultType :=
  let (lo0, hi0) := multiplyHighLow 0xD2511F53 counter.w0
  let (lo1, hi1) := multiplyHighLow 0xCD9E8D57 counter.w2
  ⟨hi1 ^^^ counter.w1 ^^^ key.1, lo1, hi0 ^^^ counter.w3 ^^^ key.2, lo0⟩

/-- `RaiseKey`. -/
def raiseKey (key : UInt32 × UInt32) : UInt32 × UInt32 := (key.1 + 0x9E3779B9, key.2 + 0xBB67AE85)

/-- Rounds with the key raised between them. -/
def rounds : Nat → ResultType → UInt32 × UInt32 → ResultType
  | 0, counter, _ => counter
  | n + 1, counter, key => rounds n (computeSingleRound counter key) (raiseKey key)

/-- `SkipOne`. -/
def ResultType.skipOne (c : ResultType) : ResultType :=
  if c.w0 + 1 = 0 then
    if c.w1 + 1 = 0 then
      if c.w2 + 1 = 0 then ⟨0, 0, 0, c.w3 + 1⟩ else ⟨0, 0, c.w2 + 1, c.w3⟩
    else ⟨0, c.w1 + 1, c.w2, c.w3⟩
  else ⟨c.w0 + 1, c.w1, c.w2, c.w3⟩

/-- `Skip` on the counter. -/
def ResultType.skip (c : ResultType) (count : UInt64) : ResultType :=
  let countLo := count.toUInt32
  let w0 := c.w0 + countLo
  let countHi := if w0 < countLo then (count >>> 32).toUInt32 + 1 else (count >>> 32).toUInt32
  let w1 := c.w1 + countHi
  if w1 < countHi then ⟨w0, w1, c.w2 + 1, if c.w2 + 1 = 0 then c.w3 + 1 else c.w3⟩
  else ⟨w0, w1, c.w2, c.w3⟩

namespace PhiloxRandom

variable (g : PhiloxRandom)

/-- `operator()`: the sample and the generator behind it. -/
def draw : ResultType × PhiloxRandom :=
  (rounds 10 g.counter g.key, { g with counter := g.counter.skipOne })

/-- `Skip`. -/
def skip (count : UInt64) : PhiloxRandom :=
  { g with counter := g.counter.skip count }

/-- The generator after `n` samples. -/
def draws (n : Nat) : PhiloxRandom := (fun g => g.draw.2)^[n] g

end PhiloxRandom

/-! ## The counter as a number -/

/-- The 128-bit number in the four words. -/
def ResultType.value (c : ResultType) : Nat :=
  c.w0.toNat + 2 ^ 32 * c.w1.toNat + 2 ^ 64 * c.w2.toNat + 2 ^ 96 * c.w3.toNat

variable {c d : ResultType} {g : PhiloxRandom}

theorem ResultType.words_lt (c : ResultType) : c.w0.toNat < 2 ^ 32 ∧ c.w1.toNat < 2 ^ 32 ∧
    c.w2.toNat < 2 ^ 32 ∧ c.w3.toNat < 2 ^ 32 :=
  ⟨c.w0.toNat_lt, c.w1.toNat_lt, c.w2.toNat_lt, c.w3.toNat_lt⟩

theorem ResultType.value_lt (c : ResultType) : c.value < 2 ^ 128 := by
  have h := c.words_lt
  rw [value]
  omega

theorem ResultType.value_inj : c.value = d.value ↔ c = d := by
  have hc := c.words_lt
  have hd := d.words_lt
  simp only [value, ResultType.ext_iff, ← UInt32.toNat_inj]
  omega

theorem ResultType.value_skipOne : c.skipOne.value = (c.value + 1) % 2 ^ 128 := by
  have h := c.words_lt
  simp only [skipOne, ← UInt32.toNat_inj, UInt32.toNat_add, UInt32.reduceToNat]
  split_ifs <;> simp only [value, UInt32.toNat_add, UInt32.reduceToNat] <;> omega

/-- The high half of the count is full and a carry is added to it. -/
def ResultType.LosesCarry (c : ResultType) (count : UInt64) : Prop :=
  count.toNat / 2 ^ 32 = 2 ^ 32 - 1 ∧ 2 ^ 32 ≤ c.w0.toNat + count.toNat % 2 ^ 32

/-- `Skip` adds the count, short of `2 ^ 64` when the carry is lost. -/
theorem ResultType.value_skip (c : ResultType) (count : UInt64) : ∃ lost ≤ 1,
    (lost = 0 ↔ ¬c.LosesCarry count) ∧
    ((c.skip count).value + 2 ^ 64 * lost) % 2 ^ 128 = (c.value + count.toNat) % 2 ^ 128 := by
  refine ⟨if c.w0.toNat + count.toNat % 2 ^ 32 < 2 ^ 32 then 0 else
    (count.toNat / 2 ^ 32 + 1) / 2 ^ 32, ?_⟩
  have h := c.words_lt
  have hcount := count.toNat_lt
  have hlow : count.toUInt32.toNat = count.toNat % 2 ^ 32 := rfl
  have hhigh : (count >>> 32).toUInt32.toNat = count.toNat / 2 ^ 32 := by
    simp [Nat.shiftRight_eq_div_pow]
    omega
  simp only [skip, LosesCarry, UInt32.lt_iff_toNat_lt, ← UInt32.toNat_inj]
  split_ifs <;> simp only [value, UInt32.toNat_add, UInt32.reduceToNat, hlow, true_iff] at * <;>
    omega

namespace PhiloxRandom

theorem draws_eq (n : Nat) : (g.draws n).key = g.key ∧
    (g.draws n).counter.value = (g.counter.value + n) % 2 ^ 128 := by
  induction n with
  | zero => exact ⟨rfl, (Nat.mod_eq_of_lt g.counter.value_lt).symm⟩
  | succ n ih =>
    rw [draws, Function.iterate_succ_apply']
    refine ⟨ih.1, ?_⟩
    change (g.draws n).counter.skipOne.value = _
    rw [ResultType.value_skipOne]
    omega

/-- A generator with the same key is known by the value of its counter. -/
theorem eq_draws_iff (g : PhiloxRandom) (c : ResultType) (n : Nat) :
    { g with counter := c } = g.draws n ↔ c.value = (g.counter.value + n) % 2 ^ 128 := by
  obtain ⟨hkey, hvalue⟩ := draws_eq (g := g) n
  rw [← hvalue, ResultType.value_inj]
  refine ⟨fun he => he ▸ rfl, fun he => ?_⟩
  rw [he, ← hkey]

/-- Skipping is drawing as many samples, as long as no carry is lost. -/
theorem skip_eq_draws_iff (g : PhiloxRandom) (a b : UInt64) :
    (g.skip a = g.draws a.toNat ↔ ¬g.counter.LosesCarry a) ∧
    ((g.skip a).counter.value = (g.counter.value + a.toNat) % 2 ^ 128 ↔
      ¬g.counter.LosesCarry a) ∧
    ((g.skip a).skip b = g.draws (a.toNat + b.toNat) ↔
      ¬g.counter.LosesCarry a ∧ ¬(g.skip a).counter.LosesCarry b) := by
  obtain ⟨x, hx, hlost, hvalue⟩ := g.counter.value_skip a
  obtain ⟨y, hy, hlost', hvalue'⟩ := (g.skip a).counter.value_skip b
  have hlt := (g.skip a).counter.value_lt
  have hlt' := ((g.skip a).skip b).counter.value_lt
  change ((g.skip a).counter.value + _) % _ = _ at hvalue
  change (((g.skip a).skip b).counter.value + _) % _ = _ at hvalue'
  rw [← hlost, ← hlost']
  have hskip : (g.skip a).counter.value = (g.counter.value + a.toNat) % 2 ^ 128 ↔ x = 0 := by
    omega
  refine ⟨(eq_draws_iff g _ _).trans hskip, hskip,
    (eq_draws_iff g ((g.skip a).skip b).counter _).trans ?_⟩
  omega

/-- From counter 1 the largest skip ends at 0, and as many samples end at `2 ^ 64`. -/
theorem skip_loses_carry :
    (skip ⟨⟨1, 0, 0, 0⟩, 0, 0⟩ 0xFFFFFFFFFFFFFFFF).counter = ⟨0, 0, 0, 0⟩ ∧
    (draws ⟨⟨1, 0, 0, 0⟩, 0, 0⟩ 0xFFFFFFFFFFFFFFFF).counter = ⟨0, 0, 1, 0⟩ := by
  refine ⟨by decide, ResultType.value_inj.mp ?_⟩
  rw [(draws_eq _).2]
  decide

end PhiloxRandom

end Tension.Random
