import Mathlib.Data.List.Nodup
import Mathlib.Data.List.Sublists

/-!
# Order of events in a history

An event comes before another one if both occur in the history in this order.
-/

namespace Tension.Precedence

open List

variable {α : Type*} {x y : α} {l l₁ l₂ : List α}

/-- `x` comes before `y`. -/
def Before (x y : α) (l : List α) : Prop := [x, y].Sublist l

instance [DecidableEq α] (x y : α) (l : List α) : Decidable (Before x y l) :=
  inferInstanceAs (Decidable ([x, y].Sublist l))

/-- The first of the two occurs. -/
theorem Before.left_mem (h : Before x y l) : x ∈ l := h.subset mem_cons_self

/-- The second of the two occurs. -/
theorem Before.right_mem (h : Before x y l) : y ∈ l :=
  h.subset (mem_cons_of_mem _ mem_cons_self)

/-- Events of two parts of a history. -/
theorem before_append : Before x y (l₁ ++ l₂) ↔
    Before x y l₁ ∨ Before x y l₂ ∨ x ∈ l₁ ∧ y ∈ l₂ := by
  constructor
  · intro h
    obtain ⟨as, bs, heq, has, hbs⟩ := sublist_append_iff.mp h
    match as, bs, heq with
    | [], _, rfl => exact .inr (.inl hbs)
    | [_], _, rfl =>
      exact .inr (.inr ⟨singleton_sublist.mp has, singleton_sublist.mp hbs⟩)
    | [_, _], [], rfl => exact .inl has
  · rintro (h | h | ⟨hx, hy⟩)
    · exact h.trans (sublist_append_left ..)
    · exact h.trans (sublist_append_right ..)
    · exact (singleton_sublist.mpr hx).append (singleton_sublist.mpr hy)

theorem not_before_singleton {z : α} : ¬Before x y [z] := fun h =>
  absurd h.length_le (by simp)

/-- An event is added to a history. -/
theorem before_concat {z : α} : Before x y (l ++ [z]) ↔ Before x y l ∨ x ∈ l ∧ y = z := by
  rw [before_append, mem_singleton]
  exact or_congr_right (or_iff_right not_before_singleton)

/-- Two different events that occur once come in one order only. -/
theorem Before.asymm (hl : l.Nodup) (h : Before x y l) : ¬Before y x l := by
  induction l with
  | nil => cases h
  | cons z l ih =>
    obtain ⟨hz, hl⟩ := nodup_cons.mp hl
    intro h'
    rw [← singleton_append, before_append] at h h'
    rcases h with h | h | ⟨hx, hy⟩
    · exact not_before_singleton h
    · rcases h' with h' | h' | ⟨hy', -⟩
      · exact not_before_singleton h'
      · exact ih hl h h'
      · exact hz (mem_singleton.mp hy' ▸ h.right_mem)
    · rcases h' with h' | h' | ⟨-, hx'⟩
      · exact not_before_singleton h'
      · exact hz (mem_singleton.mp hx ▸ h'.right_mem)
      · exact hz (mem_singleton.mp hx ▸ hx')

/-! ## Reordered histories -/

variable {r : α → α → Prop} {l' l₁' l₂' l₃ : List α}

/-- A history has the events of another one, and related events in the same order. -/
structure Reordered (r : α → α → Prop) (l l' : List α) : Prop where
  perm : l.Perm l'
  before : ∀ x y, r x y → (Before x y l ↔ Before x y l')

namespace Reordered

theorem refl (l : List α) : Reordered r l l := ⟨.refl l, fun _ _ _ => Iff.rfl⟩

theorem trans (h : Reordered r l₁ l₂) (h' : Reordered r l₂ l₃) : Reordered r l₁ l₃ :=
  ⟨h.perm.trans h'.perm, fun x y hr => (h.before x y hr).trans (h'.before x y hr)⟩

/-- Parts are reordered each on its own. -/
theorem append (h₁ : Reordered r l₁ l₁') (h₂ : Reordered r l₂ l₂') :
    Reordered r (l₁ ++ l₂) (l₁' ++ l₂') := by
  refine ⟨h₁.perm.append h₂.perm, fun x y hr => ?_⟩
  rw [before_append, before_append, h₁.before x y hr, h₂.before x y hr, h₁.perm.mem_iff,
    h₂.perm.mem_iff]

/-- Unrelated events come in any order. -/
theorem of_perm (h : l.Perm l') (hl : ∀ x ∈ l, ∀ y ∈ l, ¬r x y) : Reordered r l l' := by
  refine ⟨h, fun x y hr => ⟨fun hb => ?_, fun hb => ?_⟩⟩
  · exact absurd hr (hl x hb.left_mem y hb.right_mem)
  · exact absurd hr (hl x (h.mem_iff.mpr hb.left_mem) y (h.mem_iff.mpr hb.right_mem))

end Reordered

end Tension.Precedence
