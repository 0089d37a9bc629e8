import Tension.Models.SSTable.Block

/-!
# Building a block

The builder drops the prefix that a key shares with the key before it and, once every
`block_restart_interval` entries, stores a whole key and remembers its offset. The bytes of a block
are those of its segments: each segment starts with an entry that shares nothing, and every other
entry shares a prefix of the key before it.
-/

namespace Tension.SSTable

open Io List

/-! ## The builder -/

/-- `CompressionType`. -/
inductive CompressionType where
  | noCompression
  | snappyCompression
  deriving DecidableEq, Repr

/-- `Options`. -/
structure Options where
  blockSize : Nat
  blockRestartInterval : Int
  compression : CompressionType
  deriving DecidableEq, Repr

/-- `BlockBuilder`. -/
structure BlockBuilder where
  /-- `options_->block_restart_interval`. -/
  interval : Int
  buffer : List UInt8
  restarts : List Nat
  counter : Nat
  finished : Bool
  lastKey : List UInt8
  /-- No `CHECK` has failed. A failed one ends the process; the casts behind it are exact. -/
  checked : Bool
  deriving DecidableEq, Repr

/-- The length of the longest common prefix of two keys. -/
def sharedLength : List UInt8 → List UInt8 → Nat
  | a :: as, b :: bs => if a = b then sharedLength as bs + 1 else 0
  | _, _ => 0

/-- An entry as it is stored. -/
structure Item where
  /-- The number of bytes that the key shares with the key before it. -/
  shared : Nat
  /-- The whole key. -/
  key : List UInt8
  /-- The value. -/
  value : List UInt8
  deriving DecidableEq, Repr

namespace Item

/-- The bytes of an entry. -/
def bytes (i : Item) : List UInt8 :=
  encodeVarint32 i.shared ++ encodeVarint32 (i.key.length - i.shared) ++
    encodeVarint32 i.value.length ++ i.key.drop i.shared ++ i.value

/-- The key and the value of an entry. -/
def entry (i : Item) : List UInt8 × List UInt8 := (i.key, i.value)

end Item

/-- `std::numeric_limits<uint32_t>::max()`. -/
def maxUint32 : Nat := 2 ^ 32 - 1

namespace BlockBuilder

/-- The constructor of `BlockBuilder`. -/
def create (interval : Int) : BlockBuilder := ⟨interval, [], [0], 0, false, [], true⟩

variable (b : BlockBuilder)

/-- `BlockBuilder::Reset`. -/
def reset : BlockBuilder :=
  { b with buffer := [], restarts := [0], counter := 0, finished := false, lastKey := [] }

/-- `BlockBuilder::empty`. -/
def isEmpty : Bool := b.buffer.isEmpty

/-- `BlockBuilder::CurrentSizeEstimate`. -/
def currentSizeEstimate : Nat := b.buffer.length + b.restarts.length * 4 + 4

/-- `BlockBuilder::Finish`: the contents of the block and the builder. -/
def finish : List UInt8 × BlockBuilder :=
  let contents := b.buffer ++ b.restarts.flatMap (fun r => encodeFixed32 (.ofNat r)) ++
    encodeFixed32 (.ofNat b.restarts.length)
  (contents, { b with
    buffer := contents
    finished := true
    checked := b.checked && decide (b.restarts.length ≤ maxUint32) })

/-- The end of `BlockBuilder::Add`: the entry is appended with the number of shared bytes. -/
def append (shared : Nat) (key value : List UInt8) : BlockBuilder :=
  { b with
    buffer := b.buffer ++ (Item.mk shared key value).bytes
    lastKey := b.lastKey.take shared ++ key.drop shared
    counter := b.counter + 1
    checked := b.checked && decide (shared ≤ maxUint32) &&
      decide (key.length - shared ≤ maxUint32) && decide (value.length ≤ maxUint32) }

/-- The branch of `BlockBuilder::Add` that starts a new restart point. -/
def restart : BlockBuilder :=
  { b with
    restarts := b.restarts ++ [b.buffer.length]
    counter := 0
    checked := b.checked && decide (b.buffer.length ≤ maxUint32) }

/-- `BlockBuilder::Add`. -/
def add (key value : List UInt8) : BlockBuilder :=
  if (b.counter : Int) < b.interval then b.append (sharedLength b.lastKey key) key value
  else b.restart.append 0 key value

end BlockBuilder

/-! ## The bytes of a block -/

/-- The bytes of a list of entries. -/
def itemsBytes (items : List Item) : List UInt8 := items.flatMap Item.bytes

@[simp] theorem itemsBytes_nil : itemsBytes [] = [] := rfl

@[simp] theorem itemsBytes_cons (i : Item) (items : List Item) :
    itemsBytes (i :: items) = i.bytes ++ itemsBytes items := rfl

@[simp] theorem itemsBytes_append (items items' : List Item) :
    itemsBytes (items ++ items') = itemsBytes items ++ itemsBytes items' := flatMap_append

/-- An entry behind a key shares a prefix of it. -/
def Item.Follows (i : Item) (prev : List UInt8) : Prop :=
  i.shared ≤ i.key.length ∧ i.shared ≤ prev.length ∧ prev.take i.shared = i.key.take i.shared

/-- Every entry shares a prefix of the key before it. -/
def Linked : List UInt8 → List Item → Prop
  | _, [] => True
  | prev, i :: items => i.Follows prev ∧ Linked i.key items

/-- The key before the end of a list of entries. -/
def lastKeyOf (prev : List UInt8) (items : List Item) : List UInt8 :=
  items.foldl (fun _ i => i.key) prev

theorem linked_append {prev : List UInt8} {items items' : List Item} :
    Linked prev (items ++ items') ↔ Linked prev items ∧ Linked (lastKeyOf prev items) items' := by
  induction items generalizing prev with
  | nil => simp [Linked, lastKeyOf]
  | cons i items ih =>
    simp only [cons_append, Linked, ih, and_assoc]
    rfl

/-- The key behind an entry is put together from the two parts. -/
theorem Item.Follows.take_append {i : Item} {prev : List UInt8} (h : i.Follows prev) :
    prev.take i.shared ++ i.key.drop i.shared = i.key := by
  rw [h.2.2, take_append_drop]

theorem sharedLength_follows (prev key value : List UInt8) :
    (Item.mk (sharedLength prev key) key value).Follows prev := by
  unfold Item.Follows
  induction prev generalizing key with
  | nil => simp [sharedLength]
  | cons a prev ih =>
    cases key with
    | nil => simp [sharedLength]
    | cons b key =>
      simp only [sharedLength]
      split
      · next hab =>
        obtain ⟨h₁, h₂, h₃⟩ := ih key
        subst hab
        refine ⟨Nat.succ_le_succ h₁, Nat.succ_le_succ h₂, ?_⟩
        rw [take_succ_cons, take_succ_cons, h₃]
      · simp

/-! ## What a builder holds -/

/-- A list of entries in segments: each segment but the first has an entry, and the first entry of
a segment shares nothing. -/
structure Segmented (segments : List (List Item)) : Prop where
  linked : Linked [] segments.flatten
  starts : ∀ s ∈ segments, ∀ i ∈ s.head?, i.shared = 0
  nonempty : ∀ s ∈ segments.tail, s ≠ []

/-- The offset at which a segment starts. -/
def segmentOffset (segments : List (List Item)) (j : Nat) : Nat :=
  (itemsBytes (segments.take j).flatten).length

/-- The entries that a builder holds since its last reset, the last segment apart. -/
structure BlockBuilder.Holds (b : BlockBuilder) (done : List (List Item)) (cur : List Item) :
    Prop where
  segmented : Segmented (done ++ [cur])
  buffer : b.buffer = itemsBytes (done ++ [cur]).flatten
  restarts : b.restarts = (List.range (done.length + 1)).map (segmentOffset done)
  counter : b.counter = cur.length
  lastKey : b.lastKey = lastKeyOf [] (done ++ [cur]).flatten
  lastKey_le : b.lastKey.length ≤ b.buffer.length
  started : done ≠ [] → cur ≠ []
  checked : b.checked = true ∨ maxUint32 < b.buffer.length

/-- The entries that a builder was given since its last reset. -/
def BlockBuilder.Built (b : BlockBuilder) (entries : List (List UInt8 × List UInt8)) : Prop :=
  ∃ done cur, b.Holds done cur ∧ (done ++ [cur]).flatten.map Item.entry = entries

theorem Segmented.append {done : List (List Item)} {cur : List Item}
    (h : Segmented (done ++ [cur])) {i : Item}
    (hfollows : i.Follows (lastKeyOf [] (done ++ [cur]).flatten))
    (hstart : cur = [] → i.shared = 0) : Segmented (done ++ [cur ++ [i]]) := by
  obtain ⟨hlinked, hstarts, hnonempty⟩ := h
  have hflatten : (done ++ [cur ++ [i]]).flatten = (done ++ [cur]).flatten ++ [i] := by simp
  refine ⟨?_, ?_, ?_⟩
  · rw [hflatten, linked_append]
    exact ⟨hlinked, hfollows, trivial⟩
  · intro s hs j hj
    rcases mem_append.mp hs with hdone | hlast
    · exact hstarts s (mem_append_left _ hdone) j hj
    · obtain rfl := mem_singleton.mp hlast
      cases cur with
      | nil =>
        obtain rfl : i = j := by simpa using hj
        exact hstart rfl
      | cons a cur => exact hstarts (a :: cur) (by simp) j hj
  · intro s hs
    cases done with
    | nil => simp at hs
    | cons d done =>
      rcases mem_append.mp hs with hdone | hlast
      · exact hnonempty s (mem_append_left _ hdone)
      · rw [mem_singleton.mp hlast]
        simp

theorem Segmented.restart {segments : List (List Item)} (h : Segmented segments) {i : Item}
    (hstart : i.shared = 0) : Segmented (segments ++ [[i]]) := by
  obtain ⟨hlinked, hstarts, hnonempty⟩ := h
  refine ⟨?_, ?_, ?_⟩
  · rw [flatten_append, linked_append]
    refine ⟨hlinked, ?_, trivial⟩
    unfold Item.Follows
    rw [hstart]
    simp
  · intro s hs j hj
    rcases mem_append.mp hs with hold | hlast
    · exact hstarts s hold j hj
    · obtain rfl := mem_singleton.mp hlast
      obtain rfl : i = j := by simpa using hj
      exact hstart
  · intro s hs
    cases segments with
    | nil => simp at hs
    | cons d segments =>
      rcases mem_append.mp hs with hold | hlast
      · exact hnonempty s hold
      · rw [mem_singleton.mp hlast]
        simp

namespace Item

/-- An entry takes at least the bytes of its key delta and its value. -/
theorem le_length_bytes (i : Item) : i.key.length - i.shared + i.value.length ≤ i.bytes.length := by
  simp only [bytes, length_append, length_drop]
  omega

end Item

namespace BlockBuilder

variable {b : BlockBuilder}

/-- After an entry is appended, the buffer is long enough for its key, and a `CHECK` has failed
only if the buffer is too long. -/
theorem append_bounds {shared : Nat} {key value : List UInt8}
    (hkey : b.lastKey.length ≤ b.buffer.length)
    (hchecked : b.checked = true ∨ maxUint32 < b.buffer.length)
    (hfollows : (Item.mk shared key value).Follows b.lastKey) :
    (b.append shared key value).lastKey.length ≤ (b.append shared key value).buffer.length ∧
      ((b.append shared key value).checked = true ∨
        maxUint32 < (b.append shared key value).buffer.length) := by
  obtain ⟨hle, hle', -⟩ := hfollows
  have hbytes := Item.le_length_bytes ⟨shared, key, value⟩
  simp only at hle hle' hbytes
  have hbuffer : (b.append shared key value).buffer.length =
      b.buffer.length + (Item.mk shared key value).bytes.length := length_append
  have hlast : (b.append shared key value).lastKey.length = key.length := by
    simp only [append, length_append, length_take, length_drop]
    omega
  rw [hbuffer]
  refine ⟨by omega, ?_⟩
  simp only [append, Bool.and_eq_true, decide_eq_true_eq]
  rcases hchecked with hok | hlong
  · by_cases hall : shared ≤ maxUint32 ∧ key.length - shared ≤ maxUint32 ∧
        value.length ≤ maxUint32
    · exact .inl ⟨⟨⟨hok, hall.1⟩, hall.2.1⟩, hall.2.2⟩
    · exact .inr (by omega)
  · exact .inr (by omega)

/-- Appending an entry to the last segment. -/
theorem Holds.append {done : List (List Item)} {cur : List Item}
    (hb : b.Holds done cur) {shared : Nat} {key value : List UInt8}
    (hfollows : (Item.mk shared key value).Follows b.lastKey) (hstart : cur = [] → shared = 0) :
    (b.append shared key value).Holds done (cur ++ [⟨shared, key, value⟩]) := by
  obtain ⟨hsegmented, hbuffer, hrestarts, hcounter, hlastKey, hle, -, hchecked⟩ := hb
  have hflatten : (done ++ [cur ++ [Item.mk shared key value]]).flatten =
      (done ++ [cur]).flatten ++ [Item.mk shared key value] := by simp
  obtain ⟨hle', hchecked'⟩ := append_bounds hle hchecked hfollows
  refine ⟨hsegmented.append (hlastKey ▸ hfollows) hstart, ?_, hrestarts, ?_, ?_, hle', by simp,
    hchecked'⟩
  · rw [hflatten, itemsBytes_append, ← hbuffer]
    simp [BlockBuilder.append]
  · simp [BlockBuilder.append, hcounter]
  · rw [hflatten, lastKeyOf, foldl_append]
    exact hfollows.take_append

/-- An entry that starts a new segment. -/
theorem Holds.restart {done : List (List Item)} {cur : List Item}
    (hb : b.Holds done cur) (key value : List UInt8) :
    (b.restart.append 0 key value).Holds (done ++ [cur]) [⟨0, key, value⟩] := by
  obtain ⟨hsegmented, hbuffer, hrestarts, -, -, hle, -, hchecked⟩ := hb
  have hflatten : (done ++ [cur] ++ [[Item.mk 0 key value]]).flatten =
      (done ++ [cur]).flatten ++ [Item.mk 0 key value] := by simp
  have hchecked₀ : b.restart.checked = true ∨ maxUint32 < b.restart.buffer.length := by
    simp only [BlockBuilder.restart, Bool.and_eq_true, decide_eq_true_eq]
    rcases hchecked with hok | hlong
    · rcases lt_or_ge maxUint32 b.buffer.length with hlt | hge
      · exact .inr hlt
      · exact .inl ⟨hok, hge⟩
    · exact .inr hlong
  obtain ⟨hle', hchecked'⟩ := @append_bounds b.restart 0 key value hle hchecked₀
    ⟨Nat.zero_le _, Nat.zero_le _, by simp⟩
  refine ⟨hsegmented.restart rfl, ?_, ?_, rfl, ?_, hle', by simp, hchecked'⟩
  · rw [hflatten, itemsBytes_append, ← hbuffer]
    simp [BlockBuilder.append, BlockBuilder.restart]
  · -- The offsets of the earlier segments stay, and the new one starts at the end.
    have hold : (range (done.length + 1)).map (segmentOffset (done ++ [cur])) =
        (range (done.length + 1)).map (segmentOffset done) := by
      refine map_congr_left fun j hj => ?_
      rw [mem_range] at hj
      rw [segmentOffset, segmentOffset, take_append_of_le_length (by omega)]
    have hend : segmentOffset (done ++ [cur]) (done.length + 1) = b.buffer.length := by
      rw [segmentOffset, take_of_length_le (by simp), hbuffer]
    have hlength : (done ++ [cur]).length + 1 = (done.length + 1) + 1 := by simp
    rw [hlength, range_succ, map_append, hold, ← hrestarts]
    simp [BlockBuilder.append, BlockBuilder.restart, hend]
  · rw [lastKeyOf]
    simp [BlockBuilder.append]

/-- The builder after a reset, if no `CHECK` has failed so far. -/
theorem built_reset (h : b.checked = true) : b.reset.Built [] :=
  ⟨[], [], ⟨⟨trivial, by simp, by simp⟩, rfl, rfl, rfl, rfl, le_rfl, by simp, .inl h⟩, rfl⟩

/-- A new builder. -/
theorem built_create (interval : Int) : (create interval).Built [] :=
  built_reset (b := create interval) rfl

/-- No `CHECK` has failed in a builder without entries. -/
theorem Built.checked_of_nil (hb : b.Built []) : b.checked = true := by
  obtain ⟨done, cur, hholds, hnil⟩ := hb
  refine hholds.checked.resolve_right ?_
  rw [hholds.buffer, map_eq_nil_iff.mp hnil]
  simp

/-- `Add` adds the entry. -/
theorem Built.add {entries : List (List UInt8 × List UInt8)}
    (hb : b.Built entries) (key value : List UInt8) :
    (b.add key value).Built (entries ++ [(key, value)]) := by
  obtain ⟨done, cur, hholds, rfl⟩ := hb
  rw [BlockBuilder.add]
  split
  · have hfollows := sharedLength_follows b.lastKey key value
    refine ⟨done, _, hholds.append hfollows ?_, by simp [Item.entry]⟩
    rintro rfl
    have hdone : done = [] := by_contra fun hne => hholds.started hne rfl
    have hlast : b.lastKey = [] := by rw [hholds.lastKey, hdone]; rfl
    rw [hlast]
    rfl
  · exact ⟨_, _, hholds.restart key value, by simp [Item.entry]⟩

end BlockBuilder

end Tension.SSTable
