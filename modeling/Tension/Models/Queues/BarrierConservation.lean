import Tension.Core.Holdings
import Tension.Core.Run
import Tension.Core.Slots
import Tension.Models.Queues.Barrier

/-!
# What becomes of the values of a barrier

Every value that was stored for a key is in the tuple of the key in the map or in one tuple
that was handed to the ready queue. This holds as long as no call rejects a key after it has
completed one: the tuples that a call completes leave the map at once but reach the ready
queue only when the call ends without an error.
-/

namespace Tension.Queues

open Framework Holdings Slots List Option

/-- The values in a tuple of the map. -/
def PersistentTuple.held (key : String) (tuple : PersistentTuple) : List Stored :=
  (filled tuple.components).map fun e => ⟨key, e.1, e.2⟩

/-- The values in a tuple of the ready queue. -/
def ReadyTuple.items (tuple : ReadyTuple) : List Stored :=
  tuple.values.zipIdx.map fun e => ⟨tuple.key, e.2, e.1⟩

namespace PersistentTuple

variable {tuple : PersistentTuple} {component : Nat} (key : String)

@[simp] theorem held_fresh (index : Int) (n : Nat) : (fresh index n).held key = [] := by
  rw [held, fresh, filled_replicate, map_nil]

/-- Storing a missing component adds its value. -/
theorem held_store (hlt : component < tuple.components.length) (h : tuple.has component = false)
    (value : Row) :
    ((tuple.store component value).held key).Perm (⟨key, component, value⟩ :: tuple.held key) := by
  have hnone : tuple.components[component]? = some none := by
    rw [has, getD_eq_getElem?_getD, getElem?_eq_getElem hlt, getD_some,
      isSome_eq_false_iff, isNone_iff_eq_none] at h
    rw [getElem?_eq_getElem hlt, h]
  exact (filled_set hnone value).map _

/-- A complete tuple holds what the tuple for the ready queue holds. -/
theorem held_of_complete {values : List Row} (h : tuple.complete = some values) (index : Int) :
    tuple.held key = ReadyTuple.items ⟨index, key, values⟩ ∧
      values.length = tuple.components.length := by
  have hvalues := mapM_id_eq_some h
  rw [held, hvalues, filled_map_some, List.map_map, List.length_map]
  exact ⟨rfl, rfl⟩

end PersistentTuple

namespace Barrier

/-- Every stored value is in the map under its key or in one tuple of the ready queue, and
these tuples are complete. -/
structure Conserved (b : Barrier) : Prop where
  accounted : b.accepted.Perm
    (holdings PersistentTuple.held b.incomplete ++ b.enqueued.flatMap ReadyTuple.items)
  full : ∀ tuple ∈ b.enqueued, tuple.values.length = b.numComponents

/-- No key of the list is rejected once a key has been completed. A key is rejected if the
barrier is closed and the key is not in the map, or if the component is already there. The
tuple of a completed key must have the shapes and types of the ready queue, and the insertion
indices must not be used up. -/
def Harmless (componentIndex : Nat) : Bool → Barrier → List (String × Row) → Prop
  | _, _, [] => True
  | done, b, (key, value) :: entries =>
    match b.element key with
    | none => done = false
    | some tuple =>
      if tuple.has componentIndex then done = false
      else
        match (tuple.store componentIndex value).complete with
        | none =>
          Harmless componentIndex done
            (b.keep ⟨key, componentIndex, value⟩ (tuple.store componentIndex value)) entries
        | some values =>
          b.validateTuple values = .ok ∧ b.inputIndex + 1 < int64Max ∧
            Harmless componentIndex true (b.release ⟨key, componentIndex, value⟩) entries

/-- Whether a list of keys is harmless can be decided. -/
instance decidableHarmless (componentIndex : Nat) :
    ∀ done b entries, Decidable (Harmless componentIndex done b entries)
  | _, _, [] => isTrue trivial
  | done, b, (key, value) :: entries =>
    match helement : b.element key with
    | none => decidable_of_iff (done = false) (by simp [Harmless, helement])
    | some tuple =>
      if hhas : tuple.has componentIndex = true then
        decidable_of_iff (done = false) (by simp [Harmless, helement, if_pos hhas])
      else
        match hcomplete : (tuple.store componentIndex value).complete with
        | none =>
          have := decidableHarmless componentIndex done
            (b.keep ⟨key, componentIndex, value⟩ (tuple.store componentIndex value)) entries
          decidable_of_iff _ (by simp only [Harmless, helement, if_neg hhas, hcomplete]; rfl)
        | some values =>
          have := decidableHarmless componentIndex true
            (b.release ⟨key, componentIndex, value⟩) entries
          decidable_of_iff (b.validateTuple values = .ok ∧ b.inputIndex + 1 < int64Max ∧
            Harmless componentIndex true (b.release ⟨key, componentIndex, value⟩) entries)
            (by simp [Harmless, helement, if_neg hhas, hcomplete])

/-! ## One insertion -/

/-- The invariant in the middle of a call, with the tuples the call has completed. -/
structure Balanced (b : Barrier) (readyTuples : List ReadyTuple) : Prop where
  sized : ∀ key tuple, b.incomplete.lookup key = some tuple →
    tuple.components.length = b.numComponents
  accounted : b.accepted.Perm (holdings PersistentTuple.held b.incomplete ++
    (b.enqueued ++ readyTuples).flatMap ReadyTuple.items)
  full : ∀ tuple ∈ b.enqueued ++ readyTuples, tuple.values.length = b.numComponents

theorem Balanced.conserved {b : Barrier} (h : b.Balanced []) : b.Conserved where
  accounted := by
    have haccounted := h.accounted
    rwa [append_nil] at haccounted
  full := by
    have hfull := h.full
    rwa [append_nil] at hfull

variable {b : Barrier} {readyTuples : List ReadyTuple} {key : String} {tuple : PersistentTuple}
variable {componentIndex : Nat} {value : Row}

/-- The tuple of a key holds what is in the map for the key. -/
theorem holdings_of_element (h : b.element key = some tuple) :
    (holdings PersistentTuple.held b.incomplete).Perm
      (tuple.held key ++ holdings PersistentTuple.held (b.incomplete.erase key)) := by
  rw [element] at h
  cases hl : b.incomplete.lookup key with
  | some t =>
    simp only [hl, some.injEq] at h
    exact h ▸ holdings_of_lookup _ hl
  | none =>
    simp only [hl] at h
    split at h
    · cases h
    · cases h
      rw [PersistentTuple.held_fresh, nil_append, holdings_erase_of_lookup _ hl]

theorem Balanced.length_element (hb : b.Balanced readyTuples) (h : b.element key = some tuple) :
    tuple.components.length = b.numComponents := by
  rw [element] at h
  cases hl : b.incomplete.lookup key with
  | some t =>
    simp only [hl, some.injEq] at h
    exact h ▸ hb.sized key t hl
  | none =>
    simp only [hl] at h
    split at h
    · cases h
    · cases h
      exact length_replicate

section

variable (hb : b.Balanced readyTuples) (hc : componentIndex < b.numComponents)
  (h : b.element key = some tuple) (hhas : tuple.has componentIndex = false)
include hb hc h hhas

/-- What a key holds after a value has been stored, next to the rest of the map. -/
theorem Balanced.store : (b.accepted ++ [(⟨key, componentIndex, value⟩ : Stored)]).Perm
      (((tuple.store componentIndex value).held key ++
        holdings PersistentTuple.held (b.incomplete.erase key)) ++
          (b.enqueued ++ readyTuples).flatMap ReadyTuple.items) := by
  have hlt : componentIndex < tuple.components.length := (hb.length_element h).symm ▸ hc
  have hheld := PersistentTuple.held_store key hlt hhas value
  refine (perm_append_singleton ..).trans ?_
  refine ((hb.accounted.trans ((holdings_of_element h).append_right _)).cons _).trans ?_
  exact (hheld.symm.append_right _).append_right _

/-- A tuple that is not complete stays in the map. -/
theorem Balanced.keep :
    (b.keep ⟨key, componentIndex, value⟩ (tuple.store componentIndex value)).Balanced
      readyTuples where
  sized key' tuple' hl := by
    rcases eq_or_ne key' key with rfl | hne
    · rw [Barrier.keep, AList.lookup_insert, some.injEq] at hl
      rw [← hl, PersistentTuple.store, length_set]
      exact hb.length_element h
    · rw [Barrier.keep, AList.lookup_insert_ne hne] at hl
      exact hb.sized key' tuple' hl
  accounted := hb.store hc h hhas
  full := hb.full

/-- A complete tuple is added to the tuples for the ready queue. -/
theorem Balanced.release {values : List Row}
    (hcomplete : (tuple.store componentIndex value).complete = some values) :
    (b.release ⟨key, componentIndex, value⟩).Balanced
      (readyTuples ++ [⟨tuple.index, key, values⟩]) where
  sized key' tuple' hl := by
    rcases eq_or_ne key' key with rfl | hne
    · rw [Barrier.release, AList.lookup_erase] at hl
      cases hl
    · rw [Barrier.release, AList.lookup_erase_ne hne] at hl
      exact hb.sized key' tuple' hl
  accounted := by
    obtain ⟨hitems, -⟩ := PersistentTuple.held_of_complete key hcomplete tuple.index
    have hready : (b.enqueued ++
        (readyTuples ++ [(⟨tuple.index, key, values⟩ : ReadyTuple)])).flatMap ReadyTuple.items =
          (b.enqueued ++ readyTuples).flatMap ReadyTuple.items ++
          ReadyTuple.items ⟨tuple.index, key, values⟩ := by
      rw [← append_assoc, flatMap_append, flatMap_singleton]
    refine (hb.store hc h hhas).trans ?_
    rw [hitems, append_assoc]
    refine perm_append_comm.trans (List.Perm.of_eq ?_)
    rw [append_assoc, ← hready]
    rfl
  full := by
    obtain ⟨-, hlength⟩ := PersistentTuple.held_of_complete key hcomplete tuple.index
    rw [← append_assoc]
    intro ready hready
    rcases mem_append.mp hready with hready | hready
    · exact hb.full ready hready
    · obtain rfl := mem_singleton.mp hready
      rw [hlength, PersistentTuple.store, length_set]
      exact hb.length_element h

end

/-- The state of the loop between two keys. The tuples of a call are dropped by an error, so
that there are none until a key has been completed. -/
structure Running (done : Bool) (s : Insertion) : Prop where
  balanced : s.barrier.Balanced s.readyTuples
  ready : done = false → s.readyTuples = []
  index : done = true → s.barrier.inputIndex + 1 < int64Max

/-- One key either is inserted and the rest of the list stays harmless, or is rejected before
a key was completed. -/
theorem insertOneLocked_running {done : Bool} {s : Insertion} {entries : List (String × Row)}
    (hs : Running done s) (hc : componentIndex < s.barrier.numComponents)
    (hh : Harmless componentIndex done s.barrier ((key, value) :: entries)) (i : Nat) :
    let s' := s.barrier.insertOneLocked componentIndex i key value s.readyTuples s.newElements
    s'.status = .ok ∧ s'.barrier.numComponents = s.barrier.numComponents ∧
        (∃ done', Running done' s' ∧ Harmless componentIndex done' s'.barrier entries) ∨
      s'.status ≠ .ok ∧ s'.barrier.Balanced [] := by
  have hrejected (hdone : done = false) : s.barrier.Balanced [] := hs.ready hdone ▸ hs.balanced
  rw [Harmless] at hh
  rw [insertOneLocked]
  cases helement : s.barrier.element key with
  | none =>
    simp only [helement] at hh ⊢
    exact .inr ⟨fun heq => (by cases heq), hrejected hh⟩
  | some tuple =>
    simp only [helement] at hh ⊢
    cases hhas : tuple.has componentIndex with
    | true =>
      simp only [hhas] at hh ⊢
      exact .inr ⟨fun heq => (by cases heq), hrejected hh⟩
    | false =>
      simp only [hhas, Bool.false_eq_true, if_false] at hh ⊢
      cases hcomplete : (tuple.store componentIndex value).complete with
      | none =>
        simp only [hcomplete] at hh ⊢
        exact .inl ⟨trivial, rfl, done, ⟨hs.balanced.keep hc helement hhas, hs.ready, hs.index⟩, hh⟩
      | some values =>
        simp only [hcomplete] at hh ⊢
        rw [if_pos hh.1]
        exact .inl ⟨rfl, rfl, true,
          ⟨hs.balanced.release hc helement hhas hcomplete, by simp, fun _ => hh.2.1⟩, hh.2.2⟩

/-! ## Calls -/

/-- The loop ends with all keys inserted, or with an error that drops no tuple. -/
theorem insertAll_running {done : Bool} {s : Insertion} {entries : List (String × Row)}
    (hs : Running done s) (hok : s.status = .ok) (hc : componentIndex < s.barrier.numComponents)
    (hh : Harmless componentIndex done s.barrier entries) (i : Nat) :
    (insertAll componentIndex i entries s).status = .ok ∧
        (∃ done', Running done' (insertAll componentIndex i entries s)) ∨
      (insertAll componentIndex i entries s).status ≠ .ok ∧
        (insertAll componentIndex i entries s).barrier.Balanced [] := by
  induction entries generalizing done s i with
  | nil => exact .inl ⟨hok, done, hs⟩
  | cons entry entries ih =>
    rw [insertAll]
    rcases insertOneLocked_running hs hc hh i with ⟨hok', hn, done', hs', hh'⟩ | ⟨herror, hb⟩
    · rw [if_pos hok']
      exact ih hs' hok' (hn.symm ▸ hc) hh' (i + 1)
    · rw [if_neg herror]
      exact .inr ⟨herror, hb⟩

/-- The end of a call hands over the tuples, or there are none. -/
theorem finish_balanced {done : Bool} {s : Insertion} (hs : Running done s)
    {result : Status × Barrier} (h : finish s = some result) : result.2.Balanced [] := by
  rw [finish] at h
  split at h
  · cases h
  generalize hindex : (if s.newElements then s.barrier.inputIndex + 1
    else s.barrier.inputIndex) = index at h
  dsimp only at h
  split at h
  · cases h
    have hdone : done = false := by
      cases done with
      | false => rfl
      | true =>
        have hlt := hs.index rfl
        split at hindex <;> omega
    have hb := hs.balanced
    rw [hs.ready hdone] at hb
    exact { hb with }
  · cases h
    refine ⟨hs.balanced.sized, ?_, ?_⟩
    · rw [append_nil]
      exact hs.balanced.accounted
    · rw [append_nil]
      exact hs.balanced.full

/-- A call that does not reject a key after it has completed one. -/
def HarmlessMove (b : Barrier) : Move → Prop
  | .tryInsertMany call => Harmless call.componentIndex false b call.entries
  | .close cancelPendingEnqueues => cancelPendingEnqueues = false

instance decidableHarmlessMove (b : Barrier) : ∀ move, Decidable (b.HarmlessMove move)
  | .tryInsertMany call => decidableHarmless call.componentIndex false b call.entries
  | .close cancelPendingEnqueues => inferInstanceAs (Decidable (cancelPendingEnqueues = false))

theorem tryInsertMany_balanced (hb : b.Balanced []) {call : InsertMany}
    (hh : Harmless call.componentIndex false b call.entries) {result : Status × Barrier}
    (h : b.tryInsertMany call = some result) : result.2.Balanced [] := by
  rw [tryInsertMany] at h
  split at h
  · cases h
  split at h
  · exact some.inj h ▸ hb
  split at h
  · exact some.inj h ▸ hb
  have hrunning : Running false ⟨.ok, b, [], false⟩ := ⟨hb, fun _ => rfl, nofun⟩
  have hc : call.componentIndex < b.numComponents := by omega
  rcases insertAll_running hrunning rfl hc hh 0 with ⟨hok, done, hs⟩ | ⟨herror, hb'⟩
  · rw [if_pos hok] at h
    exact finish_balanced hs h
  · rw [if_neg herror] at h
    exact some.inj h ▸ hb'

theorem close_balanced (hb : b.Balanced []) : (b.close false).2.Balanced [] := by
  rw [close]
  split
  · exact hb
  · exact { hb with }

theorem step_balanced {b' : Barrier} {move : Move} (hb : b.Balanced [])
    (hh : b.HarmlessMove move) (h : b.step move = some b') : b'.Balanced [] := by
  cases move with
  | tryInsertMany call =>
    obtain ⟨result, hcall, rfl⟩ := map_eq_some_iff.mp h
    exact tryInsertMany_balanced hb hh hcall
  | close cancelPendingEnqueues =>
    obtain rfl : cancelPendingEnqueues = false := hh
    cases h
    exact close_balanced hb

/-- In a run whose calls are harmless every stored value stays in the map or reaches the ready
queue in one tuple. -/
theorem conserved_of_run {name : String} {types : List DataType} {shapes : List (List Nat)}
    {h : shapes.length = types.length} {moves : List Move} {b : Barrier}
    (hharmless : Run.Admissible step HarmlessMove (new name types shapes h) moves)
    (hrun : Run.run step (new name types shapes h) moves = some b) : b.Conserved :=
  (Run.run_invariant (I := (Balanced · [])) (fun _ _ _ hb hh hs => step_balanced hb hh hs)
    ⟨fun _ _ h => (by cases h), .refl _, fun _ h => (by cases h)⟩ hharmless hrun).conserved

/-- A barrier for pairs of bytes. -/
def pairs : Barrier := new "pairs" [.uint8, .uint8] [[], []] rfl

/-- One component of the keys, with a byte for each. -/
def insertBytes (component : Nat) (entries : List (String × UInt8)) : Move :=
  .tryInsertMany ⟨entries.map Prod.fst, component, .uint8, [entries.length],
    entries.map fun e => [e.2], by simp, by
      rintro - e he
      obtain ⟨entry, -, rfl⟩ := List.mem_map.mp he
      rfl⟩

/-- Two keys are inserted, the barrier is closed, and one call completes both keys. -/
def closedInBetween : List Move :=
  [insertBytes 0 [("a", 1), ("b", 2)], .close false, insertBytes 1 [("b", 3), ("a", 4)]]

/-- No tuple is lost when the barrier is closed in between. -/
theorem conserved_closedInBetween : ∃ b, Run.run step pairs closedInBetween = some b ∧
    b.Conserved := by
  have hreturns : (Run.run step pairs closedInBetween).isSome = true := by decide +kernel
  obtain ⟨b, hb⟩ := isSome_iff_exists.mp hreturns
  exact ⟨b, hb, conserved_of_run (by decide +kernel) hb⟩

/-- The barrier is closed while a key waits for its last component. One call then brings that
component together with a new key, which a closed barrier rejects: the completed tuple is neither
in the map nor in the ready queue. -/
theorem tryInsertMany_loses_tuple : ∃ b, Run.run step pairs [insertBytes 0 [("a", 1)],
      .close false, insertBytes 1 [("a", 3), ("b", 4)]] = some b ∧
    b.incomplete.keys = [] ∧ b.enqueued = [] ∧ ¬b.Conserved := by
  refine ⟨_, rfl, by decide +kernel, by decide +kernel, fun h => ?_⟩
  exact absurd h.accounted.length_eq (by decide +kernel)

end Barrier

end Tension.Queues
