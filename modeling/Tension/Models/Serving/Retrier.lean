import Mathlib
import Tension.Models.Status

/-!
# Retries

`Retry` calls a function until it succeeds, the retries are cancelled or the tries are used up.
The bound on the tries is formed in 32 bits and compared with a counter of type `int`.
-/

namespace Tension.Serving.Retrier

/-- What the retried function and the cancellation answer. -/
structure Answers where
  /-- The status of the calls of `retried_fn`, counted from one. -/
  retriedFn : Nat → Status
  /-- The answer of `is_cancelled` after so many calls. -/
  isCancelled : Nat → Bool

/-- The loop of `Retry` after `numTries` calls: the number of calls and the last status; `none` if
`num_tries` overflows, which it does after `room` more calls. -/
def retryLoop (maxNumRetries : UInt32) (a : Answers) : Nat → Nat → Option (Nat × Status)
  | 0, _ => none
  | room + 1, numTries =>
    let numTries := numTries + 1
    let status := a.retriedFn numTries
    if ¬ a.isCancelled numTries ∧ status.code ≠ .ok ∧ numTries < (maxNumRetries + 1).toNat then
      retryLoop maxNumRetries a room numTries
    else some (numTries, status)

/-- `Retry`. -/
def retry (maxNumRetries : UInt32) (a : Answers) : Option (Nat × Status) :=
  retryLoop maxNumRetries a (2 ^ 31 - 1) 0

variable (maxNumRetries : UInt32) (a : Answers)

/-- The call succeeds, or the cancellation is observed after it. -/
def Answers.Ends (a : Answers) (n : Nat) : Prop :=
  (a.retriedFn n).code = .ok ∨ a.isCancelled n = true

/-- The loop ends after `n` calls. -/
def Halts (n : Nat) : Prop := a.Ends n ∨ (maxNumRetries + 1).toNat ≤ n

/-- The tries that are promised end after `n` calls. -/
def Due (n : Nat) : Prop := a.Ends n ∨ n = maxNumRetries.toNat + 1

/-- `Retry` stops at the first call at which it is due to and returns the status of that call. -/
def TriesAsPromised : Prop :=
  ∃ n, retry maxNumRetries a = some (n, a.retriedFn n) ∧ 0 < n ∧ Due maxNumRetries a n ∧
    ∀ m, 0 < m → m < n → ¬ Due maxNumRetries a m

/-- The loop returns after the first call at which it halts, if the counter can hold it. -/
theorem retryLoop_eq_some {room n k : Nat} {status : Status} :
    retryLoop maxNumRetries a room n = some (k, status) ↔
      (n < k ∧ k ≤ n + room) ∧ status = a.retriedFn k ∧ Halts maxNumRetries a k ∧
        ∀ m, n < m → m < k → ¬ Halts maxNumRetries a m := by
  induction room generalizing n with
  | zero =>
    refine ⟨nofun, fun h => ?_⟩
    omega
  | succ room ih =>
    have hgoes : (¬ a.isCancelled (n + 1) ∧ (a.retriedFn (n + 1)).code ≠ .ok ∧
        n + 1 < (maxNumRetries + 1).toNat) ↔ ¬ Halts maxNumRetries a (n + 1) := by
      rw [Halts, Answers.Ends, not_or, not_or, not_le, and_assoc, and_left_comm]
    simp only [retryLoop]
    split
    · next hcondition =>
      have hgoes := hgoes.mp hcondition
      rw [ih]
      refine ⟨fun ⟨hk, hstatus, hhalts, hfirst⟩ => ⟨by omega, hstatus, hhalts, fun m hm hmk => ?_⟩,
        fun ⟨hk, hstatus, hhalts, hfirst⟩ => ⟨?_, hstatus, hhalts, fun m hm => hfirst m (by omega)⟩⟩
      · rcases Nat.eq_or_lt_of_le hm with rfl | hm
        · exact hgoes
        · exact hfirst m hm hmk
      · have hne : k ≠ n + 1 := by
          rintro rfl
          exact hgoes hhalts
        omega
    · next hcondition =>
      have hhalts := not_not.mp (mt hgoes.mpr hcondition)
      rw [Option.some.injEq, Prod.mk.injEq]
      refine ⟨?_, fun ⟨hk, hstatus, _, hfirst⟩ => ?_⟩
      · rintro ⟨rfl, rfl⟩
        exact ⟨by omega, rfl, hhalts, fun m hm hmk => by omega⟩
      · have hle : k ≤ n + 1 := not_lt.mp fun hlt => hfirst (n + 1) (by omega) hlt hhalts
        obtain rfl : n + 1 = k := by omega
        exact ⟨rfl, hstatus.symm⟩

/-- `Retry` keeps its promise exactly if the bound does not wrap around to zero, or the first call
is the last one anyway, and the counter reaches the end without an overflow. -/
theorem triesAsPromised_iff : TriesAsPromised maxNumRetries a ↔
      (maxNumRetries.toNat + 1 < 2 ^ 32 ∨ a.Ends 1) ∧
        (maxNumRetries.toNat + 1 < 2 ^ 31 ∨ ∃ n, 0 < n ∧ n < 2 ^ 31 ∧ a.Ends n) := by
  have hlt := maxNumRetries.toNat_lt
  have hbound : (maxNumRetries + 1).toNat = (maxNumRetries.toNat + 1) % 2 ^ 32 := by
    rfl
  simp only [TriesAsPromised, retry, retryLoop_eq_some, true_and]
  constructor
  · rintro ⟨n, ⟨hn, hhalts, hfirst⟩, -, hdue, -⟩
    refine ⟨?_, ?_⟩
    · by_contra hwrap
      rw [not_or] at hwrap
      -- the loop halts after the first call, so that `n` is one
      have hone : n = 1 := by
        by_contra hne
        exact hfirst 1 (by omega) (by omega) (.inr (by omega))
      subst hone
      exact hdue.elim hwrap.2 (by omega)
    · rcases hdue with hends | rfl
      · exact .inr ⟨n, hn.1, by omega, hends⟩
      · exact .inl (by omega)
  · rintro ⟨hwrap, hroom⟩
    have hdue : ∃ n, 0 < n ∧ n < 2 ^ 31 ∧ Due maxNumRetries a n := by
      rcases hroom with hsmall | ⟨n, hn, hroom, hends⟩
      · exact ⟨_, Nat.succ_pos _, hsmall, .inr rfl⟩
      · exact ⟨n, hn, hroom, .inl hends⟩
    classical
    have hspec := Nat.find_spec hdue
    have hmin : ∀ m, 0 < m → m < Nat.find hdue → ¬ Due maxNumRetries a m := fun m hm hlt hm' =>
      Nat.find_min hdue hlt ⟨hm, by omega, hm'⟩
    generalize Nat.find hdue = n at hspec hmin
    obtain ⟨hn, hroom, hdue⟩ := hspec
    have hhalts : ∀ m, 0 < m → m ≤ n → (Halts maxNumRetries a m ↔ Due maxNumRetries a m) := by
      intro m hm hmn
      rcases hwrap with hsmall | hends
      · have hlast : m ≤ maxNumRetries.toNat + 1 :=
          hmn.trans (not_lt.mp fun hlt => hmin _ (Nat.succ_pos _) hlt (.inr rfl))
        rw [Halts, hbound, Nat.mod_eq_of_lt hsmall]
        exact or_congr_right ⟨hlast.antisymm, fun h => h.ge⟩
      · have hone : n ≤ 1 := not_lt.mp fun hlt => hmin 1 one_pos hlt (.inl hends)
        obtain rfl : m = 1 := by omega
        exact iff_of_true (.inl hends) (.inl hends)
    refine ⟨n, ⟨by omega, (hhalts n hn le_rfl).mpr hdue, fun m hm hmn => ?_⟩, hn, hdue, hmin⟩
    rw [hhalts m hm hmn.le]
    exact hmin m hm hmn

/-- A function that fails at first and then succeeds. -/
def secondTime : Answers := ⟨fun n => if n = 1 then .unavailable "busy" else .ok, fun _ => false⟩

/-- With the largest number of retries there is none. -/
theorem retry_secondTime : retry 4294967295 secondTime = some (1, .unavailable "busy") ∧
      ¬ TriesAsPromised 4294967295 secondTime := by
  have hretry : retry 4294967295 secondTime = some (1, .unavailable "busy") := by decide +kernel
  refine ⟨hretry, ?_⟩
  rintro ⟨n, hn, -, hdue, -⟩
  obtain ⟨rfl, -⟩ := Prod.mk.inj (Option.some.inj hn)
  simp [Due, Answers.Ends, secondTime] at hdue

end Tension.Serving.Retrier
