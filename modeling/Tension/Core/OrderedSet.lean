import Mathlib.Data.List.Basic

/-!
# Ordered sets

An ordered set holds its elements in the order of a comparator. Elements that the
comparator does not tell apart count as equal.
-/

namespace Tension.OrderedSet

open List

variable {α : Type*} {lt : α → α → Bool} {x y : α} {l : List α}

/-- Insertion keeps an equal element that is there. -/
def insert (lt : α → α → Bool) (x : α) : List α → List α
  | [] => [x]
  | y :: l => if lt x y then x :: y :: l else if lt y x then y :: insert lt x l else y :: l

/-- The element is equal to a member of the set. -/
def contains (lt : α → α → Bool) (x : α) (l : List α) : Bool :=
  l.any fun y => !(lt x y || lt y x)

/-- Remove the elements that are equal to `x`. -/
def erase (lt : α → α → Bool) (x : α) (l : List α) : List α := l.filter fun y => lt x y || lt y x

/-- An element that differs from all others is put somewhere between them. -/
theorem insert_perm (hx : ∀ z ∈ l, lt x z = true ∨ lt z x = true) :
    (insert lt x l).Perm (x :: l) := by
  induction l with
  | nil => exact List.Perm.refl _
  | cons z l ih =>
    rw [insert]
    split
    · exact List.Perm.refl _
    · next hlt =>
      have hzx : lt z x = true := (hx z mem_cons_self).resolve_left hlt
      rw [if_pos hzx]
      exact ((ih fun w hw => hx w (mem_cons_of_mem z hw)).cons z).trans (List.Perm.swap ..)

section

variable (hx : ∀ z ∈ l, lt x z = true ∨ lt z x = true ∨ x = z)
include hx

/-- If the comparator tells the element from all others, it is added. -/
theorem mem_insert : y ∈ insert lt x l ↔ y = x ∨ y ∈ l := by
  induction l with
  | nil => simp [insert]
  | cons z l ih =>
    rw [insert]
    split
    · exact mem_cons
    · next hxz =>
      split
      · rw [mem_cons, ih fun w hw => hx w (mem_cons_of_mem z hw), mem_cons]
        exact or_left_comm
      · next hzx =>
        rw [((hx z mem_cons_self).resolve_left hxz).resolve_left hzx, mem_cons, ← or_assoc, or_self]

/-- Insertion keeps the order. -/
theorem pairwise_insert (htrans : ∀ a b c, lt a b = true → lt b c = true → lt a c = true)
    (hl : l.Pairwise fun a b => lt a b = true) :
    (insert lt x l).Pairwise fun a b => lt a b = true := by
  induction l with
  | nil => exact pairwise_singleton _ _
  | cons z l ih =>
    obtain ⟨hz, hl'⟩ := pairwise_cons.mp hl
    have hx' : ∀ w ∈ l, _ := fun w hw => hx w (mem_cons_of_mem z hw)
    rw [insert]
    split
    · next hlt =>
      refine .cons (fun w hw => ?_) hl
      rcases mem_cons.mp hw with rfl | hw
      · exact hlt
      · exact htrans x z w hlt (hz w hw)
    · split
      · next hzx =>
        refine .cons (fun w hw => ?_) (ih hx' hl')
        rcases (mem_insert hx').mp hw with rfl | hw
        · exact hzx
        · exact hz w hw
      · exact hl

end

theorem contains_of_mem (hirrefl : lt x x = false) (hx : x ∈ l) : contains lt x l = true :=
  any_eq_true.mpr ⟨x, hx, by rw [hirrefl]; rfl⟩

theorem mem_erase : y ∈ erase lt x l ↔ y ∈ l ∧ (lt x y = true ∨ lt y x = true) := by
  rw [erase, mem_filter, Bool.or_eq_true]

theorem pairwise_erase (hl : l.Pairwise fun a b => lt a b = true) :
    (erase lt x l).Pairwise fun a b => lt a b = true :=
  hl.filter _

/-- The first element of a sorted list that meets a condition comes before all others. -/
theorem eq_or_rel_of_find? {R : α → α → Prop} {p : α → Bool} (hl : l.Pairwise R)
    (hx : l.find? p = some x) (hy : y ∈ l) (hp : p y = true) : x = y ∨ R x y := by
  obtain ⟨-, before, after, rfl, hbefore⟩ := find?_eq_some_iff_append.mp hx
  rcases mem_append.mp hy with hy | hy
  · have hnot := hbefore y hy
    rw [hp] at hnot
    cases hnot
  · rcases mem_cons.mp hy with rfl | hy
    · exact .inl rfl
    · exact .inr ((pairwise_cons.mp (pairwise_append.mp hl).2.1).1 y hy)

/-- The first element of a sorted list that gives a result comes before all others. -/
theorem eq_or_rel_of_findSome? {β : Type*} {R : α → α → Prop} {f : α → Option β} {b : β}
    (hl : l.Pairwise R) (hb : l.findSome? f = some b) :
    ∃ x, f x = some b ∧ ∀ y ∈ l, (f y).isSome → x = y ∨ R x y := by
  obtain ⟨before, x, after, rfl, hx, hbefore⟩ := findSome?_eq_some_iff.mp hb
  refine ⟨x, hx, fun y hy hsome => ?_⟩
  rcases mem_append.mp hy with hy | hy
  · rw [hbefore y hy] at hsome
    cases hsome
  · rcases mem_cons.mp hy with rfl | hy
    · exact .inl rfl
    · exact .inr ((pairwise_cons.mp (pairwise_append.mp hl).2.1).1 y hy)

end Tension.OrderedSet
