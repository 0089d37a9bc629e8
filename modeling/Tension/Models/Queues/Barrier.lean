import Mathlib.Data.List.AList
import Tension.Models.Framework.Tensor
import Tension.Models.Status

/-!
# The barrier

A barrier collects the components of a tuple under a key. A call inserts one component for
several keys. Tuples that become complete leave the map and are handed to the ready queue
together when the call ends. Two histories are added to the state: the values that were
stored in a tuple, and the tuples that were handed to the ready queue. Allocations and copies
succeed.
-/

namespace Tension.Queues

open Framework

/-- `TensorShape::DebugString`. -/
def shapeString (shape : List Nat) : String := "[" ++ ",".intercalate (shape.map toString) ++ "]"

/-- The slices of a tensor along its first dimension. A scalar is its only slice. -/
def slices (t : Tensor) : List Row :=
  if t.shape = [] then [⟨t.dtype, [], t.elems⟩] else t.rows

/-- `PersistentTuple`: the insertion index and the components. Tensors without elements are
refused, so that a component is missing exactly when its tensor is not initialized. -/
structure PersistentTuple where
  index : Int
  components : List (Option Row)
  deriving DecidableEq

namespace PersistentTuple

/-- The tuple of a key that has not been seen before. -/
def fresh (index : Int) (numComponents : Nat) : PersistentTuple :=
  ⟨index, List.replicate numComponents none⟩

variable (tuple : PersistentTuple)

/-- A component is there. -/
def has (component : Nat) : Bool :=
  (tuple.components.getD component none).isSome

/-- A component is stored. -/
def store (component : Nat) (value : Row) : PersistentTuple :=
  { tuple with components := tuple.components.set component (some value) }

/-- The values, if no component is missing. -/
def complete : Option (List Row) := tuple.components.mapM id

end PersistentTuple

/-- A tuple for the ready queue. -/
structure ReadyTuple where
  index : Int
  key : String
  values : List Row
  deriving DecidableEq

/-- A value that was stored for a component of a key. -/
structure Stored where
  key : String
  component : Nat
  value : Row
  deriving DecidableEq

/-- `Barrier`. -/
structure Barrier where
  name : String
  valueComponentTypes : List DataType
  valueComponentShapes : List (List Nat)
  length_shapes : valueComponentShapes.length = valueComponentTypes.length
  closed : Bool
  cancelPendingEnqueues : Bool
  inputIndex : Int
  incomplete : AList fun _ : String => PersistentTuple
  /-- The values that were stored, in order. -/
  accepted : List Stored
  /-- The tuples that `ready_queue_->TryEnqueueMany` was called with, in order. -/
  enqueued : List ReadyTuple

/-- The first pair that does not match, with its position. -/
def firstMismatch {α β : Type} (same : α → β → Bool) : Nat → List α → List β →
    Option (Nat × α × β)
  | i, a :: as, b :: bs => if same a b then firstMismatch same (i + 1) as bs else some (i, a, b)
  | _, _, _ => none

/-- `std::numeric_limits<int64>::max()`. -/
def int64Max : Int := 2 ^ 63 - 1

/-- The arguments of `TryInsertMany`. -/
structure InsertMany where
  keys : List String
  componentIndex : Nat
  values : Tensor

/-- The keys with the slices that are inserted for them. -/
def InsertMany.entries (call : InsertMany) : List (String × Row) :=
  call.keys.zip (slices call.values)

/-- What `InsertOneLocked` returns, with the locals it writes to. -/
structure Insertion where
  status : Status
  barrier : Barrier
  readyTuples : List ReadyTuple
  newElements : Bool

namespace Barrier

variable (b : Barrier)

/-- `num_components`. -/
def numComponents : Nat := b.valueComponentTypes.length

/-- The constructor. -/
def new (name : String) (valueComponentTypes : List DataType)
    (valueComponentShapes : List (List Nat))
    (h : valueComponentShapes.length = valueComponentTypes.length) : Barrier where
  name := name
  valueComponentTypes := valueComponentTypes
  valueComponentShapes := valueComponentShapes
  length_shapes := h
  closed := false
  cancelPendingEnqueues := false
  inputIndex := -2 ^ 63
  incomplete := ∅
  accepted := []
  enqueued := []

/-- `ready_queue_->ValidateTuple`. The values follow the index and the key, which match. -/
def validateTuple (values : List Row) : Status :=
  if values.length ≠ b.numComponents then
    .invalidArgument ("Wrong number of components in tuple. Expected " ++
      toString (2 + b.numComponents) ++ ", got " ++ toString (2 + values.length))
  else
    match firstMismatch (fun dtype value => decide (value.dtype = dtype)) 2 b.valueComponentTypes
        values with
    | some (i, dtype, value) =>
      .invalidArgument ("Type mismatch in tuple component " ++ toString i ++ ". Expected " ++
        dtype.name ++ ", got " ++ value.dtype.name)
    | none =>
      match firstMismatch (fun shape value => decide (value.shape = shape)) 2
          b.valueComponentShapes values with
      | some (i, shape, value) =>
        .invalidArgument ("Shape mismatch in tuple component " ++ toString i ++ ". Expected " ++
          shapeString shape ++ ", got " ++ shapeString value.shape)
      | none => .ok

/-- The tuple that a value for the key is stored in. A closed barrier takes no new keys. -/
def element (key : String) : Option PersistentTuple :=
  match b.incomplete.lookup key with
  | some tuple => some tuple
  | none => if b.closed then none else some (.fresh b.inputIndex b.numComponents)

/-- A value was stored and the tuple stays in the map. -/
def keep (stored : Stored) (tuple : PersistentTuple) : Barrier :=
  { b with
    incomplete := b.incomplete.insert stored.key tuple
    accepted := b.accepted ++ [stored] }

/-- A value was stored and the complete tuple leaves the map. -/
def release (stored : Stored) : Barrier :=
  { b with
    incomplete := b.incomplete.erase stored.key
    accepted := b.accepted ++ [stored] }

/-- `InsertOneLocked`. -/
def insertOneLocked (componentIndex i : Nat) (key : String) (value : Row)
    (readyTuples : List ReadyTuple) (newElements : Bool) : Insertion :=
  match b.element key with
  | none =>
    ⟨.cancelled ("Barrier " ++ b.name ++
      " is closed, but attempted to insert a brand new key: " ++ key ++
      ".  Pending enqueues cancelled: " ++ toString b.cancelPendingEnqueues.toNat ++
      ".  Insertion index: " ++ toString i ++ ".  Number of incomplete keys: " ++
      toString b.incomplete.entries.length ++ "."), b, readyTuples, newElements⟩
  | some tuple =>
    let newElements := newElements || (b.incomplete.lookup key).isNone
    if tuple.has componentIndex then
      ⟨.invalidArgument ("Key " ++ key ++ " already has a value for component " ++
        toString componentIndex ++ " in barrier " ++ b.name), b, readyTuples, newElements⟩
    else
      let stored : Stored := ⟨key, componentIndex, value⟩
      match (tuple.store componentIndex value).complete with
      | none =>
        ⟨.ok, b.keep stored (tuple.store componentIndex value), readyTuples, newElements⟩
      | some values =>
        let status := b.validateTuple values
        if status = .ok then
          ⟨.ok, b.release stored, readyTuples ++ [⟨tuple.index, key, values⟩], newElements⟩
        else ⟨status, b.release stored, readyTuples, newElements⟩

/-- The loop of `TryInsertMany`, which ends at the first error. -/
def insertAll (componentIndex : Nat) : Nat → List (String × Row) → Insertion → Insertion
  | _, [], s => s
  | i, (key, value) :: entries, s =>
    let s' := s.barrier.insertOneLocked componentIndex i key value s.readyTuples s.newElements
    if s'.status = .ok then insertAll componentIndex (i + 1) entries s' else s'

/-- The end of `TryInsertMany`, once all keys are inserted. The index must not overflow. -/
def finish (s : Insertion) : Option (Status × Barrier) :=
  if s.newElements ∧ s.barrier.inputIndex = int64Max then none
  else
    let b := { s.barrier with
      inputIndex := if s.newElements then s.barrier.inputIndex + 1 else s.barrier.inputIndex }
    if b.inputIndex = int64Max then
      some (.internal ("Barrier has had " ++ toString b.inputIndex ++
        " insertions and can no longer keep track of new ones."), b)
    else some (.ok, { b with enqueued := b.enqueued ++ s.readyTuples })

/-- `TryInsertMany`. The callers check the component and give a value for every key. -/
def tryInsertMany (call : InsertMany) : Option (Status × Barrier) :=
  if b.numComponents ≤ call.componentIndex ∨ (slices call.values).length < call.keys.length then
    none
  else if call.keys ≠ [] ∧ call.values.shape.prod = 0 then
    some (.invalidArgument ("Tensors with no elements are not supported " ++ b.name ++
      ": received shape " ++ shapeString call.values.shape), b)
  else if b.closed ∧
      (b.cancelPendingEnqueues ∨ call.keys ≠ [] ∧ b.incomplete.entries.isEmpty) then
    some (.cancelled ("Barrier " ++ b.name ++ " is closed.  Pending enqueues cancelled: " ++
      toString b.cancelPendingEnqueues.toNat ++ ".  Number of new insertions: " ++
      toString call.keys.length ++ ".  Number of incomplete keys: " ++
      toString b.incomplete.entries.length ++ "."), b)
  else
    let s := insertAll call.componentIndex 0 call.entries ⟨.ok, b, [], false⟩
    if s.status = .ok then finish s else some (s.status, s.barrier)

/-- `Close`. Whether the ready queue is closed as well has no effect on the barrier. -/
def close (cancelPendingEnqueues : Bool) : Status × Barrier :=
  if b.closed ∧ (b.cancelPendingEnqueues ∨ ¬cancelPendingEnqueues) then
    (.cancelled ("Barrier '" ++ b.name ++ "' is already closed."), b)
  else
    (.ok, { b with
      closed := true
      cancelPendingEnqueues := cancelPendingEnqueues
      incomplete := if cancelPendingEnqueues then ∅ else b.incomplete })

/-- The calls that change the barrier. -/
inductive Move where
  | tryInsertMany (call : InsertMany)
  | close (cancelPendingEnqueues : Bool)

/-- One call. -/
def step : Move → Option Barrier
  | .tryInsertMany call => (b.tryInsertMany call).map Prod.snd
  | .close cancelPendingEnqueues => some (b.close cancelPendingEnqueues).2

end Barrier

end Tension.Queues
