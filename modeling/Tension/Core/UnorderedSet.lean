import Mathlib.Data.List.Nodup

/-!
# Unordered sets

An unordered set iterates over its elements in an order that may depend on how it was
built. The operations are known by the members they leave only.
-/

namespace Tension

/-- The operations of an unordered set with elements `α`. -/
class UnorderedSet (S : Type*) (α : outParam (Type*)) where
  /-- The elements in iteration order. -/
  toList : S → List α
  empty : S
  insert : α → S → S
  erase : α → S → S
  clear : S → S
  toList_empty : toList empty = []
  mem_insert {a b : α} {s : S} : a ∈ toList (insert b s) ↔ a = b ∨ a ∈ toList s
  mem_erase {a b : α} {s : S} : a ∈ toList (erase b s) ↔ a ≠ b ∧ a ∈ toList s
  toList_clear (s : S) : toList (clear s) = []

attribute [simp] UnorderedSet.toList_empty UnorderedSet.toList_clear UnorderedSet.mem_insert
  UnorderedSet.mem_erase

/-- Lists without duplicates iterate in insertion order. -/
instance UnorderedSet.ofList {α : Type*} [DecidableEq α] :
    UnorderedSet { l : List α // l.Nodup } α where
  toList := Subtype.val
  empty := ⟨[], List.nodup_nil⟩
  insert a s := ⟨s.1.insert a, s.2.insert⟩
  erase a s := ⟨s.1.erase a, s.2.erase a⟩
  clear _ := ⟨[], List.nodup_nil⟩
  toList_empty := rfl
  mem_insert := List.mem_insert_iff
  mem_erase {_ _ s} := s.2.mem_erase_iff
  toList_clear _ := rfl

end Tension
