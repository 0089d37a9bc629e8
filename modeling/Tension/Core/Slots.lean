import Mathlib.Data.List.Basic
import Mathlib.Data.List.ReduceOption

/-!
# Lists of slots

A slot is empty or holds a value. Filling an empty slot adds its position with the value to
the positions that are filled, and a list without an empty slot is filled at every position.
A buffer is filled from its start and is allocated for its first value.
-/

namespace Tension.Slots

open List

variable {α : Type*}

/-- The filled positions from `n` on, with their values. -/
def filledFrom : Nat → List (Option α) → List (Nat × α)
  | _, [] => []
  | n, none :: l => filledFrom (n + 1) l
  | n, some a :: l => (n, a) :: filledFrom (n + 1) l

/-- The filled positions with their values. -/
def filled (l : List (Option α)) : List (Nat × α) := filledFrom 0 l

/-- A list of empty slots. -/
@[simp] theorem filled_replicate (n : Nat) : filled (List.replicate n (none : Option α)) = [] := by
  rw [filled]
  generalize 0 = k
  induction n generalizing k with
  | zero => rfl
  | succ n ih => exact ih (k + 1)

variable {l : List (Option α)} {i : Nat} {values : List α}

/-- An empty slot is filled. -/
theorem filledFrom_set (h : l[i]? = some none) (a : α) (n : Nat) :
    (filledFrom n (l.set i (some a))).Perm ((n + i, a) :: filledFrom n l) := by
  induction l generalizing i n with
  | nil => cases h
  | cons o l ih =>
    cases i with
    | zero =>
      obtain rfl : o = none := Option.some.inj h
      exact List.Perm.refl _
    | succ i =>
      have hi : (filledFrom (n + 1) (l.set i (some a))).Perm
          ((n + (i + 1), a) :: filledFrom (n + 1) l) := by
        rw [Nat.add_comm i 1, ← Nat.add_assoc]
        exact ih (by simpa using h) (n + 1)
      cases o with
      | none => exact hi
      | some b => exact (hi.cons (n, b)).trans (List.Perm.swap ..)

/-- Filling an empty slot. -/
theorem filled_set (h : l[i]? = some none) (a : α) :
    (filled (l.set i (some a))).Perm ((i, a) :: filled l) := by
  have hset := filledFrom_set h a 0
  rwa [Nat.zero_add] at hset

/-- No slot is empty. -/
theorem filled_map_some (l : List α) : filled (l.map some) = l.zipIdx.map fun e => (e.2, e.1) := by
  rw [filled]
  generalize 0 = n
  induction l generalizing n with
  | nil => rfl
  | cons a l ih =>
    rw [map_cons, filledFrom, ih, zipIdx_cons, map_cons]

/-- The values of a list without an empty slot. -/
theorem mapM_id_eq_some (h : l.mapM id = some values) : l = values.map some := by
  induction l generalizing values with
  | nil =>
    cases h
    rfl
  | cons o l ih =>
    rw [mapM_cons] at h
    obtain ⟨a, ha, h⟩ := Option.bind_eq_some_iff.mp h
    obtain ⟨rest, hrest, h⟩ := Option.bind_eq_some_iff.mp h
    cases h
    rw [map_cons, ← ih hrest]
    exact congrArg (· :: l) ha

theorem mapM_id_map_some (l : List α) : (l.map some).mapM id = some l := by
  induction l with
  | nil => rfl
  | cons a l ih =>
    rw [map_cons, mapM_cons, ih]
    rfl

/-! ## Buffers -/

/-- A buffer with room for `r` more values. Without a value it is not allocated. -/
def buffer (values : List α) (r : Nat) : List (Option α) :=
  if values = [] then [] else values.map some ++ List.replicate r none

/-- The buffer for the next value. -/
def allocate (l : List (Option α)) (r : Nat) : List (Option α) :=
  if l.isEmpty then List.replicate r none else l

/-- A buffer with values has slots for the rest. -/
theorem buffer_of_ne_nil (h : values ≠ []) (r : Nat) :
    buffer values r = values.map some ++ List.replicate r none := if_neg h

@[simp] theorem buffer_zero (values : List α) : buffer values 0 = values.map some := by
  rw [buffer]
  split
  · rename_i h
    rw [h, map_nil]
  · exact append_nil _

section

variable (values : List α) (r : Nat)

/-- A buffer holds its values. -/
@[simp] theorem reduceOption_buffer : (buffer values r).reduceOption = values := by
  have hvalues : (values.map some).reduceOption = values := by
    rw [reduceOption, filterMap_map]
    exact filterMap_some
  rcases eq_or_ne values [] with rfl | h
  · rfl
  · rw [buffer_of_ne_nil h, reduceOption_append, reduceOption_replicate_none, append_nil, hvalues]

theorem isEmpty_buffer : (buffer values r).isEmpty = values.isEmpty := by
  cases values with
  | nil => rfl
  | cons a values => rw [buffer_of_ne_nil (cons_ne_nil a values)]; rfl

/-- Allocation gives an empty buffer its slots. -/
theorem allocate_buffer :
    allocate (buffer values r) r = values.map some ++ List.replicate r none := by
  cases values with
  | nil => rfl
  | cons a values => rw [buffer_of_ne_nil (cons_ne_nil a values)]; rfl

/-- The number of slots after the allocation. -/
theorem length_allocate_buffer : (allocate (buffer values r) r).length = values.length + r := by
  rw [allocate_buffer, length_append, length_map, length_replicate]

/-- The next value is written behind the others. -/
theorem set_allocate_buffer (a : α) :
    (allocate (buffer values (r + 1)) (r + 1)).set values.length (some a) =
      buffer (values ++ [a]) r := by
  have hne : values ++ [a] ≠ [] := append_ne_nil_of_right_ne_nil _ (cons_ne_nil a [])
  have hlength : (values.map some).length ≤ values.length := Nat.le_of_eq (length_map some)
  rw [allocate_buffer, buffer_of_ne_nil hne, set_append_right _ _ hlength, length_map, Nat.sub_self,
    map_append, append_assoc]
  rfl

end

/-- The values of a buffer by their positions. -/
theorem getElem?_buffer (h : i < values.length) (r : Nat) :
    (buffer values r)[i]? = some (some (values.get ⟨i, h⟩)) := by
  have hne : values ≠ [] := ne_nil_of_length_pos (Nat.zero_lt_of_lt h)
  rw [buffer_of_ne_nil hne, getElem?_append_left (by rwa [length_map]),
    getElem?_map, getElem?_eq_getElem h]
  rfl

end Tension.Slots
