import Mathlib.Tactic
import Mathlib.Data.Nat.Bitwise

/-!
# Triangular probing of a power-of-two table

A probe sequence advances by one more slot at every step, so its displacement
after `j` steps is the `j`-th triangular number. Modulo a power of two the first
`2 ^ k` displacements are pairwise distinct, hence every slot is visited exactly
once before the sequence repeats.
-/

namespace Tension.Probing

/-- Displacement of the probe sequence after `j` steps. -/
def triangle (j : Nat) : Nat := j * (j + 1) / 2

@[simp] theorem triangle_zero : triangle 0 = 0 := rfl

theorem two_mul_triangle (j : Nat) : 2 * triangle j = j * (j + 1) :=
  Nat.mul_div_cancel' (Nat.even_mul_succ_self j).two_dvd

theorem triangle_succ (j : Nat) : triangle (j + 1) = triangle j + (j + 1) := by
  have h₁ := two_mul_triangle j
  have h₂ := two_mul_triangle (j + 1)
  nlinarith

/-- The slot inspected at step `j` of the sequence that starts at `start`. -/
def probeAt (size start j : Nat) : Nat := (start + triangle j) % size

theorem probeAt_zero {size start : Nat} (h : start < size) : probeAt size start 0 = start := by
  simp [probeAt, Nat.mod_eq_of_lt h]

theorem probeAt_lt {size : Nat} (hs : 0 < size) (start j : Nat) : probeAt size start j < size :=
  Nat.mod_lt _ hs

/-- One probing step adds the number of probes made so far. -/
theorem probeAt_succ (size start j : Nat) :
    (probeAt size start j + (j + 1)) % size = probeAt size start (j + 1) := by
  rw [probeAt, probeAt, triangle_succ, Nat.mod_add_mod, add_assoc]

/-- A power of two dividing a product whose factors have opposite parity divides
the even factor. -/
theorem two_pow_dvd_of_odd_mul {k a b : Nat} (ha : Odd a) (h : 2 ^ k ∣ a * b) : 2 ^ k ∣ b :=
  (Nat.Coprime.pow_left k ((Nat.coprime_two_left).mpr ha)).dvd_of_dvd_mul_left h

/-- Equal displacements force the difference times the sum of the two step counts
to be a multiple of `2 ^ (k + 1)`. -/
theorem dvd_of_triangle_modEq {k i j : Nat} (hij : i ≤ j)
    (h : triangle i ≡ triangle j [MOD 2 ^ k]) : 2 ^ (k + 1) ∣ (j - i) * (j + i + 1) := by
  obtain ⟨d, rfl⟩ := Nat.exists_eq_add_of_le hij
  have hle : triangle i ≤ triangle (i + d) := by
    have h₁ := two_mul_triangle i
    have h₂ := two_mul_triangle (i + d)
    nlinarith
  obtain ⟨c, hc⟩ := (Nat.modEq_iff_dvd' hle).mp h
  have h₁ := two_mul_triangle i
  have h₂ := two_mul_triangle (i + d)
  refine ⟨c, ?_⟩
  have he : triangle (i + d) = triangle i + 2 ^ k * c := by omega
  rw [Nat.add_sub_cancel_left, pow_succ]
  nlinarith

/-- Distinct steps below `2 ^ k` have distinct displacements modulo `2 ^ k`. -/
theorem triangle_modEq_injective {k i j : Nat} (hj : j < 2 ^ k) (hij : i ≤ j)
    (h : triangle i ≡ triangle j [MOD 2 ^ k]) : i = j := by
  by_contra hne
  have hdvd := dvd_of_triangle_modEq hij h
  rcases Nat.even_or_odd (j - i) with he | ho
  · have hodd : Odd (j + i + 1) := by
      obtain ⟨c, hc⟩ := he
      exact ⟨i + c, by omega⟩
    rw [mul_comm] at hdvd
    have hle := Nat.le_of_dvd (by omega) (two_pow_dvd_of_odd_mul hodd hdvd)
    omega
  · have hle := Nat.le_of_dvd (by omega) (two_pow_dvd_of_odd_mul ho hdvd)
    omega

theorem probeAt_injOn (k start : Nat) : Set.InjOn (probeAt (2 ^ k) start) (Set.Iio (2 ^ k)) := by
  intro i hi j hj h
  have hm : triangle i ≡ triangle j [MOD 2 ^ k] := Nat.ModEq.add_left_cancel' start h
  rcases le_total i j with hle | hle
  · exact triangle_modEq_injective hj hle hm
  · exact (triangle_modEq_injective hi hle hm.symm).symm

/-- The first `2 ^ k` probes visit every slot of the table. -/
theorem exists_probeAt {k x : Nat} (hx : x < 2 ^ k) (start : Nat) :
    ∃ j < 2 ^ k, probeAt (2 ^ k) start j = x := by
  have hmaps : ∀ j ∈ Finset.range (2 ^ k), probeAt (2 ^ k) start j ∈ Finset.range (2 ^ k) :=
    fun j _ => Finset.mem_range.mpr (probeAt_lt (by positivity) start j)
  have hinj : Set.InjOn (probeAt (2 ^ k) start) (Finset.range (2 ^ k)) := by
    rw [Finset.coe_range]
    exact probeAt_injOn k start
  obtain ⟨j, hj, he⟩ := Finset.surj_on_of_inj_on_of_card_le
    (fun j _ => probeAt (2 ^ k) start j) hmaps (fun i j hi hj h => hinj hi hj h) le_rfl x
    (Finset.mem_range.mpr hx)
  exact ⟨j, Finset.mem_range.mp hj, he.symm⟩

/-- If some slot satisfies `p`, the probe sequence reaches a first such slot
within one sweep of the table. -/
theorem exists_first_probe {k : Nat} {p : Nat → Prop} (hp : ∃ x < 2 ^ k, p x) (start : Nat) :
    ∃ j < 2 ^ k, p (probeAt (2 ^ k) start j) ∧ ∀ i < j, ¬ p (probeAt (2 ^ k) start i) := by
  classical
  obtain ⟨x, hx, hpx⟩ := hp
  obtain ⟨j, hj, he⟩ := exists_probeAt hx start
  have hex : ∃ j, p (probeAt (2 ^ k) start j) := ⟨j, he ▸ hpx⟩
  refine ⟨Nat.find hex, ?_, Nat.find_spec hex, fun i hi => Nat.find_min hex hi⟩
  exact (Nat.find_le (by rw [he]; exact hpx)).trans_lt hj

/-- A loop that goes on at each of the first `d` steps arrives at step `d`, with fuel left. -/
theorem exists_fuel_of_steps {β : Type*} (loop : Nat → Nat → β) {d fuel : Nat} (hd : d < fuel)
    (hstep : ∀ i < d, ∀ fuel, loop (fuel + 1) i = loop fuel (i + 1)) :
    ∃ rest, loop fuel 0 = loop (rest + 1) d := by
  have hloop : ∀ i ≤ d, loop fuel 0 = loop (fuel - i) i := by
    intro i
    induction i with
    | zero => exact fun _ => rfl
    | succ i ih =>
      intro hi
      rw [ih (by omega), ← hstep i hi, show fuel - (i + 1) + 1 = fuel - i by omega]
  exact ⟨fuel - d - 1, by rw [hloop d le_rfl, show fuel - d - 1 + 1 = fuel - d by omega]⟩

end Tension.Probing
