import Mathlib.Data.List.Basic
import Mathlib.Order.Basic
import Mathlib.Order.Nat
import Mathlib.Tactic.Common

/-!
# Pairing two streams through one queue

Elements of two streams meet in pairs: the first of one with the first of the other, and so
on. What has come too early waits in a queue. The queue holds the surplus of one stream,
`backlog S R`, and an arrival either takes the front of the other stream's surplus or joins
the surplus of its own.
-/

namespace Tension.Pairing

open List

variable {α β : Type*}

/-- What is left of two streams after their elements have been paired. -/
def backlog (S : List α) (R : List β) : List (α ⊕ β) :=
  (S.drop R.length).map .inl ++ (R.drop S.length).map .inr

variable {S : List α} {R : List β}

/-- The surplus comes from one stream. -/
theorem backlog_cases (S : List α) (R : List β) :
    (R.length ≤ S.length ∧ backlog S R = (S.drop R.length).map .inl) ∨
      (S.length < R.length ∧ backlog S R = (R.drop S.length).map .inr) := by
  rcases lt_or_ge S.length R.length with h | h
  · exact .inr ⟨h, by rw [backlog, drop_eq_nil_of_le h.le]; rfl⟩
  · refine .inl ⟨h, ?_⟩
    rw [backlog, drop_eq_nil_of_le h, map_nil, append_nil]

/-- All elements of the queue are of one kind. -/
theorem homogeneous_backlog (S : List α) (R : List β) :
    (∀ x ∈ backlog S R, x.isLeft = true) ∨ ∀ x ∈ backlog S R, x.isRight = true := by
  rcases backlog_cases S R with ⟨-, h⟩ | ⟨-, h⟩
  · left
    intro x hx
    rw [h] at hx
    obtain ⟨a, -, rfl⟩ := mem_map.mp hx
    rfl
  · right
    intro x hx
    rw [h] at hx
    obtain ⟨b, -, rfl⟩ := mem_map.mp hx
    rfl

/-- An element of the second stream waits iff it has no partner. -/
theorem inr_mem_backlog {b : β} : .inr b ∈ backlog S R ↔ ∃ i, S.length ≤ i ∧ R[i]? = some b := by
  have hmem : .inr b ∈ backlog S R ↔ b ∈ R.drop S.length := by
    rw [backlog, mem_append, mem_map, mem_map]
    simp
  rw [hmem, mem_iff_getElem?]
  constructor
  · rintro ⟨i, hi⟩
    exact ⟨S.length + i, Nat.le_add_right _ _, by rw [← hi, getElem?_drop]⟩
  · rintro ⟨i, hi, hb⟩
    refine ⟨i - S.length, ?_⟩
    rw [getElem?_drop, Nat.add_sub_cancel' hi, hb]

/-- The elements of the second stream that wait are the last ones of the stream. -/
theorem filterMap_backlog (S : List α) (R : List β) :
    (backlog S R).filterMap Sum.getRight? = R.drop S.length := by
  have hleft : ((S.drop R.length).map (.inl : α → α ⊕ β)).filterMap Sum.getRight? = [] := by
    rw [filterMap_map, filterMap_eq_nil_iff]
    exact fun a _ => rfl
  have hright : ((R.drop S.length).map (.inr : β → α ⊕ β)).filterMap Sum.getRight? =
      R.drop S.length := by
    rw [filterMap_map]
    exact filterMap_some
  rw [backlog, filterMap_append, hleft, hright, nil_append]

/-- An element of the first stream that finds no partner joins the queue. -/
theorem backlog_concat_left (h : ∀ b q, backlog S R ≠ .inr b :: q) (a : α) :
    R.length ≤ S.length ∧ backlog (S ++ [a]) R = backlog S R ++ [.inl a] := by
  rcases backlog_cases S R with ⟨hle, hq⟩ | ⟨hlt, hq⟩
  · refine ⟨hle, ?_⟩
    rcases backlog_cases (S ++ [a]) R with ⟨-, hq'⟩ | ⟨hlt, -⟩
    · rw [hq', hq, drop_append_of_le_length hle, map_append]
      rfl
    · rw [length_append] at hlt
      omega
  · exfalso
    rw [hq, drop_eq_getElem_cons hlt] at h
    exact h _ _ rfl

/-- An element of the first stream takes its partner from the front of the queue. -/
theorem backlog_of_cons_inr {b : β} {q : List (α ⊕ β)} (h : backlog S R = .inr b :: q) (a : α) :
    R[S.length]? = some b ∧ backlog (S ++ [a]) R = q := by
  rcases backlog_cases S R with ⟨-, hq⟩ | ⟨hlt, hq⟩
  · obtain ⟨a, -, ha⟩ := mem_map.mp (hq.symm.trans h ▸ mem_cons_self)
    cases ha
  rw [hq, drop_eq_getElem_cons hlt, map_cons, cons.injEq] at h
  obtain ⟨hb, hq'⟩ := h
  refine ⟨?_, ?_⟩
  · rw [getElem?_eq_getElem hlt, Sum.inr.inj hb]
  · rw [← hq', backlog, length_append]
    rw [drop_eq_nil_of_le (show (S ++ [a]).length ≤ R.length by
      rw [length_append]; exact hlt)]
    rfl

/-- The queue seen from the other side. -/
theorem backlog_swap (S : List α) (R : List β) : backlog R S = (backlog S R).map Sum.swap := by
  rcases backlog_cases S R with ⟨hle, h⟩ | ⟨hlt, h⟩
  · rw [h, backlog, drop_eq_nil_of_le hle, map_map]
    rfl
  · rw [h, backlog, drop_eq_nil_of_le hlt.le, map_nil, append_nil, map_map]
    rfl

/-- An element of the second stream that finds no partner joins the queue. -/
theorem backlog_concat_right (h : ∀ a q, backlog S R ≠ .inl a :: q) (b : β) :
    S.length ≤ R.length ∧ backlog S (R ++ [b]) = backlog S R ++ [.inr b] := by
  have h' : ∀ a q, backlog R S ≠ .inr a :: q := fun a q ha =>
    h a (q.map Sum.swap) (by rw [backlog_swap R S, ha]; rfl)
  obtain ⟨hle, heq⟩ := backlog_concat_left h' b
  refine ⟨hle, ?_⟩
  rw [backlog_swap (R ++ [b]) S, heq, map_append, ← backlog_swap R S]
  rfl

/-- An element of the second stream takes its partner from the front of the queue. -/
theorem backlog_of_cons_inl {a : α} {q : List (α ⊕ β)} (h : backlog S R = .inl a :: q) (b : β) :
    S[R.length]? = some a ∧ backlog S (R ++ [b]) = q := by
  have h' : backlog R S = .inr a :: q.map Sum.swap := by
    rw [backlog_swap S R, h]
    rfl
  obtain ⟨ha, heq⟩ := backlog_of_cons_inr h' b
  refine ⟨ha, ?_⟩
  rw [backlog_swap (R ++ [b]) S, heq]
  simp

end Tension.Pairing
