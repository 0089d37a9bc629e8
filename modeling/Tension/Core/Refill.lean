import Mathlib

/-!
# Collecting through a buffer

A loop collects `n` items of a sequence. A round copies what the buffer of a reader holds, after a
refill if it is empty, and the loop stops early when a refill finds nothing. What is collected
depends only on what the reader delivers, not on the sizes of the copies.
-/

namespace Tension.Refill

open List

variable {α β σ : Type*} (delivers : β → List α → Prop) (full short : σ → Prop) (n : Nat)

/-- What a loop that has collected `result` returns if the reader delivers `rest`. -/
def Collects (result rest : List α) (r : Option (σ × List α × β)) : Prop :=
  ∃ s b, r = some (s, result ++ rest.take (n - result.length), b) ∧
    delivers b (rest.drop (n - result.length)) ∧ (full s ∨ short s) ∧
    (rest.length < n - result.length → short s)

variable (loop : Nat → σ → List α → β → Option (σ × List α × β))

/-- One round of a loop that has not collected all items. -/
inductive Round (fuel : Nat) (s : σ) (result : List α) (b : β) (rest : List α) : Prop
  | stop {s' : σ} {b' : β} (heq : loop (fuel + 1) s result b = some (s', result, b'))
      (hrest : rest = []) (hb : delivers b' []) (hs : short s')
  | copy {s' : σ} {b' : β} {count : Nat}
      (heq : loop (fuel + 1) s result b = loop fuel s' (result ++ rest.take count) b')
      (hpos : 0 < count) (hle : count ≤ n - result.length) (havail : count ≤ rest.length)
      (hb : delivers b' (rest.drop count)) (hs : full s' ∨ short s')

variable {delivers full short n loop} {fuel : Nat} {s : σ} {b : β} {result rest : List α}

/-- Items copied by one round are the ones the loop collects first. -/
theorem Collects.of_append {count : Nat} {r : Option (σ × List α × β)}
    (hle : count ≤ n - result.length) (havail : count ≤ rest.length)
    (h : Collects delivers full short n (result ++ rest.take count) (rest.drop count) r) :
    Collects delivers full short n result rest r := by
  obtain ⟨s, b, hr, hb, hs, hshort⟩ := h
  have hlen : (result ++ rest.take count).length = result.length + count := by
    rw [length_append, length_take, min_eq_left havail]
  have hsplit : n - result.length = count + (n - (result.length + count)) := by omega
  rw [hlen] at hr hb hshort
  refine ⟨s, b, ?_, ?_, hs, fun hlt => hshort ?_⟩
  · rw [hr, append_assoc, ← take_add, ← hsplit]
  · rwa [hsplit, ← drop_drop]
  · rw [length_drop]
    omega

/-- A loop that makes such rounds ends and collects what is delivered. -/
theorem collects_of_rounds
    (hdone : ∀ fuel s result b, n ≤ result.length →
      loop (fuel + 1) s result b = some (s, result, b))
    (hround : ∀ fuel s result b rest, result.length < n → delivers b rest → full s ∨ short s →
      Round delivers full short n loop fuel s result b rest)
    (hb : delivers b rest) (hres : result.length ≤ n) (hfuel : n - result.length < fuel)
    (hs : full s ∨ short s) :
    Collects delivers full short n result rest (loop fuel s result b) := by
  induction fuel generalizing s result b rest with
  | zero => omega
  | succ fuel ih =>
    by_cases hlt : result.length < n
    · cases hround fuel s result b rest hlt hb hs with
      | stop heq hrest hb' hs' =>
        rw [heq, Collects, hrest, take_nil, drop_nil, append_nil]
        exact ⟨_, _, rfl, hb', .inr hs', fun _ => hs'⟩
      | copy heq hpos hle havail hb' hs' =>
        rw [heq]
        refine .of_append hle havail (ih hb' ?_ ?_ hs')
        all_goals
          rw [length_append, length_take]
          omega
    · have hzero : n - result.length = 0 := by omega
      rw [hdone fuel s result b (by omega), Collects, hzero, take_zero, append_nil]
      exact ⟨s, b, rfl, hb, hs, fun h => absurd h (Nat.not_lt_zero _)⟩

end Tension.Refill
