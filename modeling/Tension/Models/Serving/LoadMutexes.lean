import Mathlib
import Tension.Models.Serving.LoadOnce

/-!
# Load mutexes that are left behind

An entry of the load mutex map has a caller that points to its mutex or is about to erase it. A
caller whose load section ends with an error returns without erasing, and the entry stays.
-/

namespace Tension.Serving

open LockTable

namespace Position

variable {position position' : Position}

/-- The caller points to the mutex of the servable or is about to erase its entry. -/
def Covers (position : Position) (id : ServableId) (mutex : Nat) : Prop :=
  position.pointer = some (id, mutex) ∨ position = .erasing id

/-- A caller with the same pointer as before that was not about to erase an entry. -/
theorem covers_of_pointer
    (hpointer : position.pointer = none ∨ position.pointer = position'.pointer)
    (hne : ∀ id, position ≠ .erasing id) (id : ServableId) (mutex : Nat)
    (h : position.Covers id mutex) : position'.Covers id mutex := by
  have hsome := h.resolve_right (hne id)
  rcases hpointer with hnone | heq
  · rw [hnone] at hsome
    cases hsome
  · exact .inl (heq ▸ hsome)

/-- The load section has ended with an error. -/
def failed : Position → Bool
  | .released _ _ status => status.code ≠ .ok
  | _ => false

/-- The call has returned. -/
def hasReturned : Position → Bool
  | .returned _ => true
  | _ => false

end Position

namespace CachingManager

variable {s s' : CachingManager} {i : Nat} {call : Call}

/-- Caller `i` sees to the entry of the servable. -/
def Covers (s : CachingManager) (i : Nat) (id : ServableId) (mutex : Nat) : Prop :=
  ∃ call, s.calls[i]? = some call ∧ call.position.Covers id mutex

/-- No caller leaves `LoadServable` after a load section that ended with an error. -/
def Clean (s : CachingManager) : Move → Prop
  | .proceed i => ∀ call ∈ s.calls[i]?, call.position.failed = false
  | _ => True

instance (s : CachingManager) : DecidablePred s.Clean
  | .proceed i => inferInstanceAs (Decidable (∀ call ∈ s.calls[i]?, _))
  | .call _ _ | .create _ _ | .decide _ _ | .execute _ _ => .isTrue trivial

/-- What a section of a call does to the map. -/
inductive TableEffect (s : CachingManager) (i : Nat) (call : Call) (s' : CachingManager) : Prop
  /-- The entries stay, and the caller goes on to see to its own. -/
  | stays (position : Position) (hcalls : s'.calls = (s.setPosition i call position).calls)
      (hentry : s'.table.entry = s.table.entry) (hnext : s'.table.next = s.table.next)
      (hcovers : ∀ id mutex, call.position.Covers id mutex → position.Covers id mutex)
  /-- The caller takes a pointer. -/
  | takes (data : ServableData) (hposition : call.position = .entering data)
      (hcalls : s'.calls =
        (s.setPosition i call (.acquiring data (s.table.intern data.id).1)).calls)
      (htable : s'.table = (s.table.intern data.id).2)
  /-- The caller calls `MaybeEraseLoadMutexMapEntry`. -/
  | erases (id : ServableId) (hposition : call.position = .erasing id)
      (hcalls : s'.calls = (s.setPosition i call .relooking).calls)
      (htable : s'.table = s.table.erase id s.shared)

/-- The map is left alone, and the caller keeps its pointer if it has one. -/
theorem TableEffect.keep {old position : Position} (hposition : call.position = old)
    (hcalls : s'.calls = (s.setPosition i call position).calls)
    (htable : s'.table.entry = s.table.entry ∧ s'.table.next = s.table.next)
    (hpointer : old.pointer = none ∨ old.pointer = position.pointer)
    (hne : ∀ id, old ≠ .erasing id) : TableEffect s i call s' :=
  .stays position hcalls htable.1 htable.2 (hposition ▸ Position.covers_of_pointer hpointer hne)

/-- Every section of a call that does not end a failed load has one of the effects. -/
theorem tableEffect_of_proceed (hclean : call.position.failed = false)
    (hs : s.proceed i call = some s') : TableEffect s i call s' := by
  rw [CachingManager.proceed] at hs
  cases hposition : call.position with
  | looking =>
    simp only [hposition] at hs
    split at hs <;> cases hs <;> exact .keep hposition rfl ⟨rfl, rfl⟩ (.inl rfl) (by simp)
  | creating | returned =>
    simp only [hposition] at hs
    cases hs
  | entering data =>
    simp only [hposition] at hs
    cases hs
    exact .takes data hposition rfl rfl
  | acquiring data mutex =>
    simp only [hposition] at hs
    obtain ⟨table, htable, rfl⟩ := Option.map_eq_some_iff.mp hs
    rw [Table.lock] at htable
    split at htable
    · cases htable
    · cases htable
      exact .keep hposition rfl ⟨rfl, rfl⟩ (.inr rfl) (by simp)
  | checking data mutex =>
    simp only [hposition] at hs
    split at hs
    · split at hs <;> cases hs <;> exact .keep hposition rfl ⟨rfl, rfl⟩ (.inr rfl) (by simp)
    · cases hs
      exact .keep hposition rfl ⟨rfl, rfl⟩ (.inr rfl) (by simp)
  | managing data mutex =>
    simp only [hposition] at hs
    split at hs <;> cases hs <;> exact .keep hposition rfl ⟨rfl, rfl⟩ (.inr rfl) (by simp)
  | requesting id mutex =>
    simp only [hposition] at hs
    split at hs <;> cases hs <;> exact .keep hposition rfl ⟨rfl, rfl⟩ (.inr rfl) (by simp)
  | waiting id mutex task =>
    simp only [hposition] at hs
    obtain ⟨status, -, rfl⟩ := Option.map_eq_some_iff.mp hs
    exact .keep hposition rfl ⟨rfl, rfl⟩ (.inr rfl) (by simp)
  | leaving id mutex status =>
    simp only [hposition] at hs
    cases hs
    exact .keep hposition rfl ⟨rfl, rfl⟩ (.inr rfl) (by simp)
  | released id mutex status =>
    -- the load has not failed, so that the caller goes on to erase the entry
    rw [hposition, Position.failed, decide_eq_false_iff_not, not_not] at hclean
    simp only [hposition, if_pos hclean] at hs
    cases hs
    refine .stays _ rfl rfl rfl fun id' mutex' hcovers => .inr ?_
    rw [hposition] at hcovers
    rcases hcovers with hpointer | herasing
    · cases hpointer
      rfl
    · cases herasing
  | erasing id =>
    simp only [hposition] at hs
    cases hs
    exact .erases id hposition rfl rfl
  | relooking =>
    simp only [hposition] at hs
    cases hs
    exact .keep hposition rfl ⟨rfl, rfl⟩ (.inl rfl) (by simp)

/-- The callers see to their entries as before, except for what caller `i` does. -/
theorem Covers.frame {position : Position} (hi : s.calls[i]? = some call)
    (hcalls : s'.calls = (s.setPosition i call position).calls) {j : Nat} {id : ServableId}
    {mutex : Nat} (h : s.Covers j id mutex)
    (hposition : call.position.Covers id mutex → position.Covers id mutex) :
    s'.Covers j id mutex := by
  obtain ⟨call', hj, hcovers⟩ := h
  rw [Covers, hcalls]
  by_cases hji : j = i
  · subst hji
    rw [hi, Option.some.injEq] at hj
    subst hj
    exact ⟨_, getElem?_setPosition_self hi, hposition hcovers⟩
  · exact ⟨call', (getElem?_setPosition_ne hji).trans hj, hcovers⟩

section

variable (h : s.Invariant) (hc : Covered s.table s.Covers)
include h hc

/-- A caller that shares the mutex of an entry sees to it. -/
theorem Invariant.covers_of_shared {id : ServableId} {mutex : Nat}
    (hentry : s.table.entry id = some mutex) (hshared : s.shared mutex = true) :
    ∃ (j : Nat) (call : Call), s.calls[j]? = some call ∧
      call.position.pointer = some (id, mutex) := by
  obtain ⟨call, hcall, hmap⟩ := List.any_eq_true.mp hshared
  obtain ⟨⟨id', mutex'⟩, hpointer, heq⟩ := Option.map_eq_some_iff.mp (of_decide_eq_true hmap)
  obtain rfl : mutex' = mutex := heq
  obtain ⟨j, hj⟩ := List.getElem?_of_mem hcall
  have hentry' := h.sound.entry j id' mutex' ((pointer_of_eq hj).trans hpointer)
  exact ⟨j, call, hj, hc.injective id' id mutex' hentry' hentry ▸ hpointer⟩

/-- A section of a call leaves no entry without a caller, unless the load has failed. -/
theorem Invariant.covered_proceed (hi : s.calls[i]? = some call)
    (hclean : call.position.failed = false) (hs : s.proceed i call = some s') :
    Covered s'.table s'.Covers := by
  cases tableEffect_of_proceed hclean hs with
  | stays position hcalls hentry hnext hcovers =>
    exact hc.stay hentry hnext fun j id mutex hj => hj.frame hi hcalls (hcovers id mutex)
  | takes data hentering hcalls htable =>
    rw [htable]
    refine hc.intern (i := i) (fun j id mutex hj => hj.frame hi hcalls ?_) ?_
    · rw [hentering]
      exact Position.covers_of_pointer (.inl rfl) (fun _ h => by cases h) id mutex
    · rw [Covers, hcalls]
      exact ⟨_, getElem?_setPosition_self hi, .inl rfl⟩
  | erases id herasing hcalls htable =>
    rw [htable]
    refine hc.erase (fun j id' mutex hne hj => hj.frame hi hcalls fun hcovers => ?_) ?_
    · rw [herasing] at hcovers
      rcases hcovers with hpointer | heq
      · cases hpointer
      · cases heq
        exact absurd rfl hne
    · intro mutex hentry hshared
      obtain ⟨j, call', hj, hpointer⟩ := h.covers_of_shared hc hentry hshared
      have hji : j ≠ i := by
        rintro rfl
        rw [hi, Option.some.injEq] at hj
        rw [← hj, herasing] at hpointer
        cases hpointer
      refine ⟨j, ?_⟩
      rw [Covers, hcalls, getElem?_setPosition_ne hji]
      exact ⟨call', hj, .inl hpointer⟩

/-- No entry is left without a caller by a move that is not the return from a failed load. -/
theorem Invariant.covered_step {a : Move} (hclean : s.Clean a) (hs : s.step a = some s') :
    Covered s'.table s'.Covers := by
  cases a with
  | call request latest =>
    cases hs
    refine hc.stay rfl rfl ?_
    rintro j id mutex ⟨call, hj, hcovers⟩
    exact ⟨call, (List.getElem?_append_left (List.getElem?_eq_some_iff.mp hj).1).trans hj, hcovers⟩
  | create i data =>
    rw [CachingManager.step] at hs
    split at hs
    · next call hi =>
      split at hs
      · next hposition =>
        cases hs
        refine hc.stay rfl rfl fun j id mutex hj => hj.frame hi rfl ?_
        refine Position.covers_of_pointer (.inl ?_) ?_ id mutex <;> rw [hposition]
        · rfl
        · simp
      · cases hs
    · cases hs
  | proceed i =>
    obtain ⟨call, hi, hs⟩ := Option.bind_eq_some_iff.mp hs
    exact h.covered_proceed hc hi (hclean call hi) hs
  | decide i reservation | execute i outcome =>
    obtain ⟨result, -, rfl⟩ := Option.map_eq_some_iff.mp hs
    exact hc.stay rfl rfl fun _ _ _ hj => hj

end

/-- In a run in which no load section ends with an error, the map is empty whenever no call is in
progress. -/
theorem entry_eq_none_of_run (tracked : Bool) (moves : List Move) (s : CachingManager)
    (hclean : Run.Admissible step Clean (initial tracked) moves)
    (hrun : Run.run step (initial tracked) moves = some s)
    (hidle : ∀ call ∈ s.calls, call.position.hasReturned = true) (id : ServableId) :
    s.table.entry id = none := by
  have hc : s.Invariant ∧ Covered s.table s.Covers :=
    Run.run_invariant (I := fun s => s.Invariant ∧ Covered s.table s.Covers)
      (fun _ _ _ hs hclean ha => ⟨hs.1.step ha, hs.1.covered_step hs.2 hclean ha⟩)
      ⟨invariant_initial tracked, nofun, nofun, nofun⟩ hclean hrun
  rcases hentry : s.table.entry id with - | mutex
  · rfl
  · obtain ⟨j, call, hj, hcovers⟩ := hc.2.agent id mutex hentry
    have hreturned := hidle call (List.mem_of_getElem? hj)
    rw [Position.Covers] at hcovers
    generalize call.position = position at hreturned hcovers
    cases position <;> simp [Position.pointer, Position.hasReturned] at hreturned hcovers

/-- After two calls for one servable the map is empty. -/
theorem entry_concurrentCalls :
    ∃ s, Run.run step (initial false) concurrentCalls = some s ∧
      s.table.entry ⟨"model", 7⟩ = none := by
  refine ⟨_, rfl, ?_⟩
  exact entry_eq_none_of_run false concurrentCalls _ (by decide) rfl (by decide) _

/-- One call, whose loader factory answers with an error. -/
def failedCall : List Move :=
  [.call ⟨"model", some 1⟩ 0, .proceed 0, .create 0 ⟨⟨"model", 1⟩, .internal "load"⟩, .proceed 0,
    .proceed 0, .proceed 0, .proceed 0, .proceed 0, .proceed 0, .proceed 0]

/-- The call has returned, and the mutex of its servable stays in the map. -/
theorem entry_failedCall : ∃ s, Run.run step (initial false) failedCall = some s ∧
      s.calls.map Call.position = [.returned (.internal "load")] ∧
      s.table.entry ⟨"model", 1⟩ = some 0 := by
  refine ⟨_, rfl, by decide, by decide⟩

end CachingManager

end Tension.Serving
