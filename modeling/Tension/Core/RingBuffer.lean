import Mathlib.Data.List.Basic
import Mathlib.Logic.Function.Basic

/-!
# Numbered entries in a circular buffer

Entry `i` is stored in the slot `i` modulo the size of the buffer, together with its number. A
window of consecutive entries that leaves a slot free is stored without collisions.
-/

namespace Tension.RingBuffer

variable {β : Type*} {ring : List (Option (Nat × β))} {lo hi i : Nat} {content : Nat → β}

/-- What is in the slot of an entry. -/
def get (ring : List (Option (Nat × β))) (i : Nat) : Option (Nat × β) :=
  (ring[i % ring.length]?).join

/-- The slot of an entry is filled or cleared. -/
def set (ring : List (Option (Nat × β))) (i : Nat) (x : Option (Nat × β)) :
    List (Option (Nat × β)) :=
  ring.set (i % ring.length) x

@[simp] theorem length_set (ring : List (Option (Nat × β))) (i : Nat) (x : Option (Nat × β)) :
    (set ring i x).length = ring.length := List.length_set ..

theorem getElem?_set (h : 0 < ring.length) (i j : Nat) (x : Option (Nat × β)) :
    (set ring i x)[j]? = if j = i % ring.length then some x else ring[j]? := by
  rw [set, List.getElem?_set]
  split
  · rename_i heq
    rw [if_pos heq.symm, if_pos (Nat.mod_lt i h)]
  · rename_i hne
    rw [if_neg fun heq => hne heq.symm]

/-- Exactly the entries from `lo` up to `hi` are stored, and a slot is free. -/
structure Window (ring : List (Option (Nat × β))) (lo hi : Nat) (content : Nat → β) : Prop where
  le : lo ≤ hi
  room : hi < lo + ring.length
  live : ∀ i, lo ≤ i → i < hi → ring[i % ring.length]? = some (some (i, content i))
  only : ∀ j i x, ring[j]? = some (some (i, x)) → lo ≤ i ∧ i < hi ∧ j = i % ring.length

/-- Numbers that are less than the size apart have different slots. -/
theorem mod_ne {i j n : Nat} (h : i < j) (h' : j < i + n) : i % n ≠ j % n := by
  have hi := Nat.div_add_mod i n
  have hj := Nat.div_add_mod j n
  rcases Nat.lt_or_ge (i / n) (j / n) with hlt | hge
  · have hmul := Nat.mul_le_mul_left n hlt
    rw [Nat.mul_succ] at hmul
    omega
  · have hmul := Nat.mul_le_mul_left n hge
    omega

namespace Window

variable (h : Window ring lo hi content)
include h

theorem length_pos : 0 < ring.length := by
  have hle := h.le
  have hroom := h.room
  omega

theorem get_eq (hlo : lo ≤ i) (hhi : i < hi) : get ring i = some (i, content i) := by
  rw [get, h.live i hlo hhi]
  rfl

/-- The slot of a number near the window is free. -/
theorem getElem?_eq_none (hne : ∀ k, lo ≤ k → k < hi → k % ring.length ≠ i % ring.length) :
    ring[i % ring.length]? = some none := by
  have hlt := Nat.mod_lt i h.length_pos
  rw [List.getElem?_eq_getElem hlt]
  cases hx : ring[i % ring.length] with
  | none => rfl
  | some x =>
    have hslot : ring[i % ring.length]? = some (some (x.1, x.2)) := by
      rw [List.getElem?_eq_getElem hlt, hx]
    obtain ⟨hlo, hhi, heq⟩ := h.only _ _ _ hslot
    exact absurd heq.symm (hne x.1 hlo hhi)

/-- The slot behind the window is free. -/
theorem get_next : get ring hi = none := by
  have hroom := h.room
  rw [get, h.getElem?_eq_none fun k hk hk' => mod_ne hk' (by omega)]
  rfl

/-- An entry is replaced, or added behind the window. -/
theorem store (hlo : lo ≤ i) (hhi : i ≤ hi) (hroom : max hi (i + 1) < lo + ring.length) (y : β) :
    Window (set ring i (some (i, y))) lo (max hi (i + 1)) (Function.update content i y) := by
  refine ⟨Nat.le_trans h.le (Nat.le_max_left ..), by rwa [length_set], fun k hk hk' => ?_,
    fun j k x hx => ?_⟩
  · rw [length_set, getElem?_set h.length_pos]
    rcases eq_or_ne k i with rfl | hne
    · rw [if_pos rfl, Function.update_self]
    · have hmod : k % ring.length ≠ i % ring.length := by
        rcases Nat.lt_or_gt_of_ne hne with hlt | hgt
        · exact mod_ne hlt (by omega)
        · exact (mod_ne hgt (by omega)).symm
      rw [if_neg hmod, Function.update_of_ne hne, h.live k hk (by omega)]
  · rw [getElem?_set h.length_pos] at hx
    rw [length_set]
    split at hx
    · rename_i hj
      obtain ⟨rfl, -⟩ := hx
      exact ⟨hlo, by omega, hj⟩
    · obtain ⟨hk, hk', hj⟩ := h.only j k x hx
      exact ⟨hk, by omega, hj⟩

theorem modify (hlo : lo ≤ i) (hhi : i < hi) (y : β) :
    Window (set ring i (some (i, y))) lo hi (Function.update content i y) := by
  have hroom := h.room
  have hstore := h.store hlo (Nat.le_of_lt hhi) (by omega) y
  rwa [Nat.max_eq_left hhi] at hstore

theorem push (hroom : hi + 1 < lo + ring.length) (y : β) :
    Window (set ring hi (some (hi, y))) lo (hi + 1) (Function.update content hi y) := by
  have hstore := h.store h.le (Nat.le_refl hi) (by omega) y
  rwa [Nat.max_eq_right (Nat.le_succ hi)] at hstore

/-- The first entry is cleared. -/
theorem pop (hlt : lo < hi) : Window (set ring lo none) (lo + 1) hi content := by
  have hroom := h.room
  refine ⟨hlt, by rw [length_set]; omega, fun k hk hk' => ?_, fun j k x hx => ?_⟩
  · rw [length_set, getElem?_set h.length_pos, if_neg (mod_ne (by omega) (by omega)).symm,
      h.live k (by omega) hk']
  · rw [getElem?_set h.length_pos] at hx
    rw [length_set]
    split at hx
    · simp at hx
    · rename_i hj
      obtain ⟨hk, hk', hslot⟩ := h.only j k x hx
      have hne : k ≠ lo := by
        rintro rfl
        exact hj hslot
      exact ⟨by omega, hk', hslot⟩

end Window

/-- A buffer with a single entry. -/
theorem window_single {n : Nat} (y : β) :
    Window (some (0, y) :: List.replicate (n + 1) none) 0 1 fun _ => y := by
  refine ⟨Nat.zero_le 1, by simp, fun i _ hi => ?_, fun j i x hx => ?_⟩
  · obtain rfl : i = 0 := by omega
    simp
  · cases j with
    | zero =>
      obtain ⟨rfl, -⟩ := hx
      simp
    | succ j =>
      rw [List.getElem?_cons_succ, List.getElem?_replicate] at hx
      split at hx <;> simp at hx

end Tension.RingBuffer
