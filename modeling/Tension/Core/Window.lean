import Mathlib.Order.Lattice
import Mathlib.Data.Nat.Init

/-!
# Windows of a list

A window is what a list has between two positions. Windows that meet are put together, and
a window of a block is a window of the whole list.
-/

namespace Tension.Window

variable {α : Type*}

variable (l : List α)

/-- The elements from position `i` to position `j`. -/
def window (i j : Nat) : List α := (l.take j).drop i

theorem length_window (i j : Nat) : (window l i j).length = min j l.length - i := by
  rw [window, List.length_drop, List.length_take]

/-- A window that ends before it begins is empty. -/
theorem window_eq_nil {l : List α} {i j : Nat} (h : min j l.length ≤ i) : window l i j = [] :=
  List.eq_nil_of_length_eq_zero (by rw [length_window]; omega)

/-- Positions behind the end make no difference. -/
theorem window_congr {l : List α} {j k : Nat} (h : min j l.length = min k l.length) (i : Nat) :
    window l i j = window l i k := by
  rw [window, window, List.take_eq_take_min, h, ← List.take_eq_take_min]

/-- A window is continued by the next one. -/
theorem window_append (i : Nat) {j k : Nat} (h : j ≤ k) :
    window l i j ++ window l (max i j) k = window l i k := by
  rcases le_total i j with hij | hij
  · have htake : l.take j = (l.take k).take j := by rw [List.take_take, min_eq_left h]
    have hdrop : (l.take k).drop j = ((l.take k).drop i).drop (j - i) := by
      rw [List.drop_drop, Nat.add_sub_cancel' hij]
    rw [max_eq_right hij, window, window, window, htake, List.drop_take, hdrop,
      List.take_append_drop]
  · rw [max_eq_left hij, window_eq_nil (by omega), List.nil_append]

/-- A window of a block. -/
theorem window_block (pos size i j : Nat) :
    window (window l pos (pos + size)) i j = window l (pos + i) (pos + min j size) := by
  rw [window, window, window, ← List.take_drop, List.take_take, List.take_drop, List.drop_drop]

end Tension.Window
