import Mathlib.Logic.Function.Basic
import Mathlib.Tactic.Common

/-!
# Tables of shared locks

A table maps keys to locks that agents share by pointer. An agent takes a pointer from the
table, which makes a new lock for a key without entry, locks and unlocks through the
pointer and drops it. An entry is erased only while no agent has a pointer to its lock. So
all pointers for one key agree with the table, and the sections of one key exclude each
other although locks come and go.
-/

namespace Tension.LockTable

open Option Function

variable {K ι : Type*}

/-- A table of locks with their owners. -/
structure Table (K ι : Type*) where
  /-- The lock of a key. -/
  entry : K → Option Nat
  /-- The agent that holds a lock. -/
  owner : Nat → Option ι
  /-- The next lock to be made. -/
  next : Nat

namespace Table

/-- The empty table. -/
def empty : Table K ι := ⟨fun _ => none, fun _ => none, 0⟩

/-- The lock of a key, made if there is none. -/
def intern [DecidableEq K] (t : Table K ι) (k : K) : Nat × Table K ι :=
  match t.entry k with
  | some lock => (lock, t)
  | none =>
    (t.next, { t with entry := Function.update t.entry k (some t.next), next := t.next + 1 })

/-- Take a lock that nobody holds. -/
def lock (t : Table K ι) (lock : Nat) (i : ι) : Option (Table K ι) :=
  match t.owner lock with
  | some _ => none
  | none => some { t with owner := Function.update t.owner lock (some i) }

/-- Give a lock back. -/
def unlock (t : Table K ι) (lock : Nat) : Table K ι :=
  { t with owner := Function.update t.owner lock none }

/-- Erase the entry of a key if its lock is not shared. -/
def erase [DecidableEq K] (t : Table K ι) (k : K) (shared : Nat → Bool) : Table K ι :=
  match t.entry k with
  | none => t
  | some lock => if shared lock then t else { t with entry := Function.update t.entry k none }

end Table

/-- The pointers of the agents agree with the table, and an agent inside a section holds the
lock it points to. -/
structure Sound (t : Table K ι) (pointer inside : ι → Option (K × Nat)) : Prop where
  entry : ∀ i k lock, pointer i = some (k, lock) → t.entry k = some lock
  pointer : ∀ i x, inside i = some x → pointer i = some x
  owner : ∀ i k lock, inside i = some (k, lock) → t.owner lock = some i

theorem sound_empty {pointer inside : ι → Option (K × Nat)} (hpointer : ∀ i, pointer i = none)
    (hinside : ∀ i, inside i = none) : Sound (Table.empty : Table K ι) pointer inside where
  entry := fun i _ _ h => by rw [hpointer i] at h; cases h
  pointer := fun i _ h => by rw [hinside i] at h; cases h
  owner := fun i _ _ h => by rw [hinside i] at h; cases h

variable {t t' : Table K ι} {pointer pointer' inside inside' : ι → Option (K × Nat)}

/-- Agents inside the sections of one key have the same lock and are the same agent. -/
theorem Sound.exclusive (h : Sound t pointer inside) {i j : ι} {k : K} {lock lock' : Nat}
    (hi : inside i = some (k, lock)) (hj : inside j = some (k, lock')) : lock = lock' ∧ i = j := by
  have hentry := h.entry i k lock (h.pointer i _ hi)
  rw [h.entry j k lock' (h.pointer j _ hj), some.injEq] at hentry
  subst hentry
  have howner := h.owner i k _ hi
  rw [h.owner j k _ hj, some.injEq] at howner
  exact ⟨rfl, howner.symm⟩

/-- Agents other than `i` stay where they are. -/
structure Frame (i : ι) (pointer inside pointer' inside' : ι → Option (K × Nat)) : Prop where
  pointer : ∀ j, j ≠ i → pointer' j = pointer j
  inside : ∀ j, j ≠ i → inside' j = inside j

section

variable (h : Sound t pointer inside)
include h

section

variable {i : ι} (hf : Frame i pointer inside pointer' inside')
include hf

/-- The table stays sound if it keeps the entries and owners of the other agents and the agent
itself is where it should be. -/
theorem Sound.frame
    (hentry : ∀ j k lock, j ≠ i → pointer j = some (k, lock) → t'.entry k = some lock)
    (howner : ∀ j k lock, j ≠ i → inside j = some (k, lock) → t'.owner lock = some j)
    (hpointer : ∀ k lock, pointer' i = some (k, lock) → t'.entry k = some lock)
    (hinside : ∀ k lock, inside' i = some (k, lock) →
      pointer' i = some (k, lock) ∧ t'.owner lock = some i) : Sound t' pointer' inside' := by
  refine ⟨fun j k lock hj => ?_, fun j x hj => ?_, fun j k lock hj => ?_⟩
  · by_cases hji : j = i
    · subst hji
      exact hpointer k lock hj
    · rw [hf.pointer j hji] at hj
      exact hentry j k lock hji hj
  · by_cases hji : j = i
    · subst hji
      exact (hinside x.1 x.2 hj).1
    · rw [hf.inside j hji] at hj
      rw [hf.pointer j hji]
      exact h.pointer j x hj
  · by_cases hji : j = i
    · subst hji
      exact (hinside k lock hj).2
    · rw [hf.inside j hji] at hj
      exact howner j k lock hji hj

/-- An agent moves on without touching the table. -/
theorem Sound.stay
    (hpointer : pointer' i = pointer i ∨ pointer' i = none ∧ inside' i = none)
    (hinside : inside' i = inside i ∨ inside' i = none) : Sound t pointer' inside' := by
  refine h.frame hf (fun j k lock _ => h.entry j k lock) (fun j k lock _ => h.owner j k lock)
    (fun k lock hi => ?_) fun k lock hi => ?_
  · rcases hpointer with heq | ⟨hnone, -⟩
    · exact h.entry i k lock (heq ▸ hi)
    · rw [hnone] at hi
      cases hi
  · rcases hinside with heq | hnone
    · rw [heq] at hi
      rcases hpointer with hsame | ⟨-, hnone⟩
      · exact ⟨hsame.trans (h.pointer i _ hi), h.owner i k lock hi⟩
      · rw [heq, hi] at hnone
        cases hnone
    · rw [hnone] at hi
      cases hi

/-- An agent takes a pointer. -/
theorem Sound.intern [DecidableEq K] {k : K}
    (hpointer : pointer' i = some (k, (t.intern k).1)) (hinside : inside' i = none) :
    Sound (t.intern k).2 pointer' inside' := by
  have hnew : (t.intern k).2.entry k = some (t.intern k).1 := by
    rw [Table.intern]
    split
    · next lock hlock => exact hlock
    · exact update_self _ _ _
  have hold : ∀ k' lock, t.entry k' = some lock → (t.intern k).2.entry k' = some lock := by
    intro k' lock hk'
    rw [Table.intern]
    split
    · exact hk'
    · next hnone =>
      refine (update_of_ne ?_ _ _).trans hk'
      rintro rfl
      rw [hnone] at hk'
      cases hk'
  have howner : (t.intern k).2.owner = t.owner := by
    rw [Table.intern]
    split <;> rfl
  refine h.frame hf (fun j k' lock _ hj => hold k' lock (h.entry j k' lock hj))
    (fun j k' lock _ hj => howner ▸ h.owner j k' lock hj) (fun k' lock hi => ?_)
    fun k' lock hi => ?_
  · rw [hpointer] at hi
    cases hi
    exact hnew
  · rw [hinside] at hi
    cases hi

/-- An agent takes the lock that it points to. -/
theorem Sound.lock {x : K × Nat} (hlock : t.lock x.2 i = some t') (hpointer : pointer i = some x)
    (hpointer' : pointer' i = some x) (hinside : inside' i = some x) :
    Sound t' pointer' inside' := by
  rw [Table.lock] at hlock
  split at hlock
  · cases hlock
  · next hfree =>
    cases hlock
    refine h.frame hf (fun j k lock _ => h.entry j k lock) (fun j k lock _ hj => ?_)
      (fun k lock hi => ?_) fun k lock hi => ?_
    · -- nobody else is inside a section of a lock that is free
      have howner := h.owner j k lock hj
      refine (update_of_ne ?_ _ _).trans howner
      rintro rfl
      rw [hfree] at howner
      cases howner
    · rw [hpointer', ← hpointer] at hi
      exact h.entry i k lock hi
    · rw [hinside] at hi
      cases hi
      exact ⟨hpointer', update_self _ _ _⟩

/-- An agent gives back the lock that it holds. -/
theorem Sound.unlock {x : K × Nat} (hi : inside i = some x) (hpointer : pointer' i = some x)
    (hinside : inside' i = none) : Sound (t.unlock x.2) pointer' inside' := by
  refine h.frame hf (fun j k lock _ => h.entry j k lock) (fun j k lock hji hj => ?_)
    (fun k lock hi' => ?_) fun k lock hi' => ?_
  · refine (update_of_ne ?_ _ _).trans (h.owner j k lock hj)
    rintro rfl
    have howner := h.owner j k _ hj
    rw [h.owner i x.1 x.2 hi, some.injEq] at howner
    exact hji howner.symm
  · rw [hpointer] at hi'
    cases hi'
    exact h.entry i _ _ (h.pointer i _ hi)
  · rw [hinside] at hi'
    cases hi'

end

/-- An entry that nobody points to is erased. -/
theorem Sound.erase [DecidableEq K] {k : K} {shared : Nat → Bool}
    (hshared : ∀ i x, pointer i = some x → shared x.2 = true) :
    Sound (t.erase k shared) pointer inside := by
  have hold : ∀ i k' lock, pointer i = some (k', lock) →
      (t.erase k shared).entry k' = some lock := by
    intro i k' lock hi
    have hentry := h.entry i k' lock hi
    rw [Table.erase]
    split
    · exact hentry
    · next lock' hlock' =>
      split
      · exact hentry
      · next hunique =>
        refine (update_of_ne ?_ _ _).trans hentry
        rintro rfl
        rw [hlock', some.injEq] at hentry
        subst hentry
        exact hunique (hshared i _ hi)
  have howner : (t.erase k shared).owner = t.owner := by
    rw [Table.erase]
    split
    · rfl
    · split <;> rfl
  exact ⟨hold, h.pointer, fun i k' lock hi => howner ▸ h.owner i k' lock hi⟩

end

/-! ## Entries that are left -/

/-- Every entry has a lock of its own and an agent that will see to it. -/
structure Covered (t : Table K ι) (covers : ι → K → Nat → Prop) : Prop where
  fresh : ∀ k lock, t.entry k = some lock → lock < t.next
  injective : ∀ k k' lock, t.entry k = some lock → t.entry k' = some lock → k = k'
  agent : ∀ k lock, t.entry k = some lock → ∃ i, covers i k lock

variable {covers covers' : ι → K → Nat → Prop}

variable (h : Covered t covers)
include h

/-- The entries stay, and so do their agents. -/
theorem Covered.stay (hentry : t'.entry = t.entry) (hnext : t'.next = t.next)
    (hcovers : ∀ i k lock, covers i k lock → covers' i k lock) : Covered t' covers' := by
  refine ⟨?_, ?_, fun k lock hk => ?_⟩
  · rw [hentry, hnext]
    exact h.fresh
  · rw [hentry]
    exact h.injective
  · obtain ⟨i, hi⟩ := h.agent k lock (hentry ▸ hk)
    exact ⟨i, hcovers i k lock hi⟩

/-- An agent takes a pointer and sees to the entry. -/
theorem Covered.intern [DecidableEq K] {i : ι} {k : K}
    (hcovers : ∀ j k' lock, covers j k' lock → covers' j k' lock)
    (hi : covers' i k (t.intern k).1) : Covered (t.intern k).2 covers' := by
  rw [Table.intern] at hi ⊢
  split
  · exact h.stay rfl rfl hcovers
  · next hnone =>
    simp only [hnone] at hi
    have hold : ∀ k' lock, update t.entry k (some t.next) k' = some lock →
        k' = k ∧ lock = t.next ∨ t.entry k' = some lock := by
      intro k' lock hk'
      by_cases heq : k' = k
      · rw [heq, update_self, some.injEq] at hk'
        exact .inl ⟨heq, hk'.symm⟩
      · rw [update_of_ne heq] at hk'
        exact .inr hk'
    refine ⟨fun k' lock hk' => ?_, fun k₁ k₂ lock h₁ h₂ => ?_, fun k' lock hk' => ?_⟩
    · rcases hold k' lock hk' with ⟨-, rfl⟩ | hk'
      · exact Nat.lt_succ_self _
      · exact Nat.lt_succ_of_lt (h.fresh k' lock hk')
    · -- the new lock is larger than all others
      rcases hold k₁ lock h₁ with ⟨hk₁, h₁⟩ | h₁ <;> rcases hold k₂ lock h₂ with ⟨hk₂, h₂⟩ | h₂
      · exact hk₁.trans hk₂.symm
      · exact absurd h₁ (Nat.ne_of_lt (h.fresh k₂ lock h₂))
      · exact absurd h₂ (Nat.ne_of_lt (h.fresh k₁ lock h₁))
      · exact h.injective k₁ k₂ lock h₁ h₂
    · rcases hold k' lock hk' with ⟨rfl, rfl⟩ | hk'
      · exact ⟨i, hi⟩
      · obtain ⟨j, hj⟩ := h.agent k' lock hk'
        exact ⟨j, hcovers j k' lock hj⟩

/-- An agent erases an entry unless another agent sees to it. -/
theorem Covered.erase [DecidableEq K] {k : K} {shared : Nat → Bool}
    (hcovers : ∀ j k' lock, k' ≠ k → covers j k' lock → covers' j k' lock)
    (hshared : ∀ lock, t.entry k = some lock → shared lock = true → ∃ j, covers' j k lock) :
    Covered (t.erase k shared) covers' := by
  have hkeep : (∀ lock, t.entry k = some lock → ∃ j, covers' j k lock) → Covered t covers' := by
    refine fun hk => ⟨h.fresh, h.injective, fun k' lock hk' => ?_⟩
    by_cases heq : k' = k
    · exact heq ▸ hk lock (heq ▸ hk')
    · obtain ⟨j, hj⟩ := h.agent k' lock hk'
      exact ⟨j, hcovers j k' lock heq hj⟩
  rw [Table.erase]
  split
  · next hnone => exact hkeep fun lock hlock => by rw [hnone] at hlock; cases hlock
  · next lock hlock =>
    split
    · next hyes =>
      refine hkeep fun lock' hlock' => ?_
      rw [hlock, some.injEq] at hlock'
      exact hlock' ▸ hshared lock hlock hyes
    · have hold : ∀ k' lock', update t.entry k none k' = some lock' →
          k' ≠ k ∧ t.entry k' = some lock' := by
        intro k' lock' hk'
        have hne : k' ≠ k := by
          rintro rfl
          rw [update_self] at hk'
          cases hk'
        rw [update_of_ne hne] at hk'
        exact ⟨hne, hk'⟩
      refine ⟨fun k' lock' hk' => h.fresh k' lock' (hold k' lock' hk').2, fun k₁ k₂ lock' h₁ h₂ =>
        h.injective k₁ k₂ lock' (hold k₁ lock' h₁).2 (hold k₂ lock' h₂).2, fun k' lock' hk' => ?_⟩
      obtain ⟨hne, hk'⟩ := hold k' lock' hk'
      obtain ⟨j, hj⟩ := h.agent k' lock' hk'
      exact ⟨j, hcovers j k' lock' hne hj⟩

end Tension.LockTable
