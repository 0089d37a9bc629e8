import Tension.Core.Cursor
import Tension.Models.SSTable.BlockBounds
import Tension.Models.SSTable.BlockBuilder

/-!
# The iterator of a built block

On the bytes of a block that the builder finished, the iterator is a cursor over the entries: each
entry is decoded as it was encoded, the bisection finds a restart point behind smaller keys only,
and the linear search goes on to the first key that is not smaller than the target.
-/

namespace Tension.SSTable

open Io List Option

/-! ## Decoding what was encoded -/

/-- The fast path decodes what the general one decodes. -/
theorem entryHeader_eq (bytes : List UInt8) (h : 3 ≤ bytes.length) : entryHeader bytes =
      (getVarint32 bytes).bind fun (shared, p) =>
        (getVarint32 p).bind fun (nonShared, p) =>
          (getVarint32 p).map fun (valueLength, p) => ⟨shared, nonShared, valueLength, p⟩ := by
  match bytes, h with
  | b₀ :: b₁ :: b₂ :: rest, _ =>
    rw [entryHeader]
    split
    · next hsmall =>
      have hle₀ : b₀.toNat ≤ b₀.toNat ||| b₁.toNat ||| b₂.toNat :=
        Nat.left_le_or.trans Nat.left_le_or
      have hle₁ : b₁.toNat ≤ b₀.toNat ||| b₁.toNat ||| b₂.toNat :=
        Nat.right_le_or.trans Nat.left_le_or
      have hle₂ : b₂.toNat ≤ b₀.toNat ||| b₁.toNat ||| b₂.toNat := Nat.right_le_or
      have hone (b : UInt8) (l : List UInt8) (hb : b.toNat < 128) :
          getVarint32 (b :: l) = some (b.toNat, l) := by
        have hand := (Endian.and_128_eq_zero_iff b.toNat_lt).mpr hb
        simp [getVarint32, if_pos hand]
      simp [hone b₀ _ (hle₀.trans_lt hsmall), hone b₁ _ (hle₁.trans_lt hsmall),
        hone b₂ _ (hle₂.trans_lt hsmall)]
    · rfl

theorem encodeVarint32_ne_nil (v : Nat) : encodeVarint32 v ≠ [] := by
  unfold encodeVarint32
  split_ifs <;> simp

theorem Item.length_bytes_pos (i : Item) : 0 < i.bytes.length := by
  have h := length_pos_iff.mpr (encodeVarint32_ne_nil i.shared)
  simp only [bytes, length_append]
  omega

/-- An entry whose lengths fit into 32 bits is decoded as it was encoded. -/
theorem entryHeader_bytes {i : Item} (hshared : i.shared < 2 ^ 32)
    (hkey : i.key.length - i.shared < 2 ^ 32) (hvalue : i.value.length < 2 ^ 32)
    (rest : List UInt8) : entryHeader (i.bytes ++ rest) =
      some ⟨i.shared, i.key.length - i.shared, i.value.length,
        i.key.drop i.shared ++ i.value ++ rest⟩ := by
  have hlength : 3 ≤ (i.bytes ++ rest).length := by
    have h₁ := length_pos_iff.mpr (encodeVarint32_ne_nil i.shared)
    have h₂ := length_pos_iff.mpr (encodeVarint32_ne_nil (i.key.length - i.shared))
    have h₃ := length_pos_iff.mpr (encodeVarint32_ne_nil i.value.length)
    simp only [Item.bytes, length_append]
    omega
  rw [entryHeader_eq _ hlength]
  simp [Item.bytes, getVarint32_encodeVarint32 hshared, getVarint32_encodeVarint32 hkey,
    getVarint32_encodeVarint32 hvalue]

/-- Keys and values are not longer than the bytes of the entries. -/
theorem Linked.length_le {prev : List UInt8} {items : List Item} (h : Linked prev items) :
    ∀ i ∈ items, i.key.length ≤ prev.length + (itemsBytes items).length ∧
      i.value.length ≤ (itemsBytes items).length := by
  induction items generalizing prev with
  | nil => simp
  | cons j items ih =>
    obtain ⟨⟨hle, hle', -⟩, hlinked⟩ := h
    have hbytes := j.le_length_bytes
    intro i hi
    rw [itemsBytes_cons, length_append]
    rcases mem_cons.mp hi with rfl | hmem
    · omega
    · obtain ⟨hk, hv⟩ := ih hlinked i hmem
      omega

/-- Every entry takes at least one byte. -/
theorem length_le_itemsBytes (items : List Item) : items.length ≤ (itemsBytes items).length := by
  induction items with
  | nil => simp
  | cons i items ih =>
    have hpos := i.length_bytes_pos
    rw [itemsBytes_cons, length_append, length_cons]
    omega

/-! ## The layout of a block -/

variable (segments : List (List Item))

/-- The contents of a block with the given segments. -/
def blockContents : List UInt8 :=
  itemsBytes segments.flatten ++
    (List.range segments.length).flatMap
      (fun j => encodeFixed32 (.ofNat (segmentOffset segments j))) ++
    encodeFixed32 (.ofNat segments.length)

/-- Finishing a builder gives the contents of its segments. -/
theorem BlockBuilder.Holds.finish_eq {b : BlockBuilder} {done : List (List Item)}
    {cur : List Item} (hb : b.Holds done cur) : b.finish.1 = blockContents (done ++ [cur]) := by
  have hrestarts : b.restarts = (range (done.length + 1)).map (segmentOffset (done ++ [cur])) := by
    rw [hb.restarts]
    refine map_congr_left fun j hj => ?_
    rw [mem_range] at hj
    rw [segmentOffset, segmentOffset, take_append_of_le_length (by omega)]
  simp [BlockBuilder.finish, blockContents, hb.buffer, hrestarts, flatMap_map]

/-- Dropping the codes of the first elements of a list. -/
theorem drop_flatMap_of_length {α : Type*} {f : α → List UInt8} {n : Nat}
    (hf : ∀ a, (f a).length = n) (l : List α) (j : Nat) :
    (l.flatMap f).drop (j * n) = (l.drop j).flatMap f := by
  induction j generalizing l with
  | zero => simp
  | succ j ih =>
    cases l with
    | nil => simp
    | cons a l =>
      rw [flatMap_cons, Nat.succ_mul, add_comm, ← drop_drop,
        drop_left' (hf a), ih, drop_succ_cons]

theorem length_flatMap_encodeFixed32 (l : List Nat) (f : Nat → Nat) :
    (l.flatMap fun j => encodeFixed32 (.ofNat (f j))).length = l.length * 4 := by
  induction l with
  | nil => rfl
  | cons a l ih =>
    rw [flatMap_cons, length_append, length_encodeFixed32, length_cons]
    omega

theorem length_blockContents : (blockContents segments).length =
      (itemsBytes segments.flatten).length + segments.length * 4 + 4 := by
  simp only [blockContents, length_append, length_flatMap_encodeFixed32, length_range,
    length_encodeFixed32]

/-- A segment starts inside the data area. -/
theorem segmentOffset_le (j : Nat) :
    segmentOffset segments j ≤ (itemsBytes segments.flatten).length := by
  have hsplit : segments.flatten = (segments.take j).flatten ++ (segments.drop j).flatten := by
    rw [← flatten_append, take_append_drop]
  rw [hsplit, itemsBytes_append, length_append, segmentOffset]
  omega

/-- The entries from a restart point on do not depend on what is before them. -/
theorem Segmented.linked_drop {segments : List (List Item)} (h : Segmented segments) (j : Nat) :
    Linked [] (segments.drop j).flatten := by
  have hsplit : segments.flatten = (segments.take j).flatten ++ (segments.drop j).flatten := by
    rw [← flatten_append, take_append_drop]
  have hlinked := h.linked
  rw [hsplit, linked_append] at hlinked
  have hstart : ∀ i ∈ (segments.drop j).flatten.head?, i.shared = 0 := by
    have hall : ∀ s ∈ segments.drop j, ∀ i ∈ s.head?, i.shared = 0 := fun s hs =>
      h.starts s (mem_of_mem_drop hs)
    generalize segments.drop j = rest at hall
    induction rest with
    | nil => simp
    | cons s rest ih =>
      cases s with
      | nil => exact ih fun s hs => hall s (mem_cons_of_mem _ hs)
      | cons i s => exact hall (i :: s) mem_cons_self
  cases hrest : (segments.drop j).flatten with
  | nil => trivial
  | cons i rest =>
    rw [hrest] at hlinked hstart
    have hzero : i.shared = 0 := hstart i rfl
    refine ⟨?_, hlinked.2.2⟩
    unfold Item.Follows
    rw [hzero]
    simp

/-- Every segment but the first starts with an entry that shares nothing. -/
theorem Segmented.exists_start {segments : List (List Item)} (h : Segmented segments) {j : Nat}
    (hpos : 0 < j) (hj : j < segments.length) :
    ∃ i s rest, segments.drop j = (i :: s) :: rest ∧ i.shared = 0 := by
  have hmem : segments[j] ∈ segments.tail := by
    cases segments with
    | nil => simp at hj
    | cons s segments =>
      obtain ⟨j, rfl⟩ : ∃ k, j = k + 1 := ⟨j - 1, by omega⟩
      exact getElem_mem _
  have hne := h.nonempty _ hmem
  obtain ⟨i, s, hs⟩ := exists_cons_of_ne_nil hne
  refine ⟨i, s, segments.drop (j + 1), ?_, ?_⟩
  · rw [drop_eq_getElem_cons hj, hs]
  · exact h.starts _ (getElem_mem hj) i (by rw [hs]; rfl)

namespace BlockIter

/-- The iterator reads the contents of the given segments. -/
structure Reads (it : BlockIter) (segments : List (List Item)) : Prop where
  data : it.data = blockContents segments
  restarts : it.restarts = (itemsBytes segments.flatten).length
  numRestarts : it.numRestarts = segments.length
  size : (blockContents segments).length < 2 ^ 32
  status : it.status = .ok

variable {it : BlockIter} {segments : List (List Item)} {rem rest : List Item} {i : Item}

section

variable (hit : it.Reads segments)
include hit

theorem Reads.area {front : List Item} (hsplit : front ++ rem = segments.flatten) :
    it.area (itemsBytes front).length = itemsBytes rem := by
  rw [BlockIter.area, hit.data, hit.restarts, blockContents, append_assoc, take_left,
    ← hsplit, itemsBytes_append, drop_left]

theorem Reads.segmentOffset_lt (j : Nat) : segmentOffset segments j < 2 ^ 32 := by
  have hsize := hit.size
  rw [length_blockContents] at hsize
  have hle := segmentOffset_le segments j
  omega

theorem Reads.getRestartPoint {j : Nat} (hj : j < segments.length) :
    it.getRestartPoint j = segmentOffset segments j := by
  have hhead : (range segments.length).drop j = j :: (range segments.length).drop (j + 1) := by
    rw [drop_eq_getElem_cons (by simpa using hj), getElem_range]
  rw [BlockIter.getRestartPoint, hit.data, hit.restarts, blockContents, append_assoc,
    ← drop_drop, drop_left,
    drop_append_of_le_length (by rw [length_flatMap_encodeFixed32, length_range]; omega),
    drop_flatMap_of_length (fun _ => length_encodeFixed32 _), hhead, flatMap_cons,
    append_assoc, decodeFixed32_encodeFixed32, UInt32.toNat_ofNat_of_lt' (hit.segmentOffset_lt j)]

/-- The entry behind the first ones of a block is decoded. -/
theorem Reads.decodeEntry (hsegments : Segmented segments) {front : List Item}
    (hsplit : front ++ i :: rest = segments.flatten) :
    ∃ e, SSTable.decodeEntry (it.area (itemsBytes front).length) = some e ∧
      e.shared = i.shared ∧ it.bytesAt (it.entryOffset e) e.nonShared = i.key.drop i.shared ∧
      it.bytesAt (it.entryOffset e + e.nonShared) e.valueLength = i.value ∧
      it.entryOffset e + e.nonShared + e.valueLength = (itemsBytes (front ++ [i])).length := by
  have hmem : i ∈ segments.flatten := by
    rw [← hsplit]
    simp
  obtain ⟨hkey, hvalue⟩ := hsegments.linked.length_le i hmem
  have hsize := hit.size
  rw [length_blockContents] at hsize
  have hshared : i.shared ≤ i.key.length := by
    have hlinked := hsegments.linked
    rw [← hsplit, linked_append] at hlinked
    exact hlinked.2.1.1
  rw [length_nil] at hkey
  -- The block, cut at the pointer that is returned.
  obtain ⟨header, hheader⟩ : ∃ header, header = encodeVarint32 i.shared ++
    encodeVarint32 (i.key.length - i.shared) ++ encodeVarint32 i.value.length := ⟨_, rfl⟩
  have hbytes : i.bytes = header ++ (i.key.drop i.shared ++ i.value) := by
    rw [hheader, Item.bytes, append_assoc _ (i.key.drop i.shared)]
  have harea : itemsBytes segments.flatten = (itemsBytes front ++ header) ++
      (i.key.drop i.shared ++ (i.value ++ itemsBytes rest)) := by
    rw [← hsplit, itemsBytes_append, itemsBytes_cons, hbytes]
    simp
  have hlength := congrArg length harea
  simp only [length_append, length_drop] at hlength
  refine ⟨⟨i.shared, i.key.length - i.shared, i.value.length,
    i.key.drop i.shared ++ i.value ++ itemsBytes rest⟩, ?_, rfl, ?_⟩
  · rw [hit.area hsplit, itemsBytes_cons, SSTable.decodeEntry,
      entryHeader_bytes (by omega) (by omega) (by omega), bind_some, if_neg]
    simp only [length_append, length_drop]
    omega
  · have hoffset : it.entryOffset ⟨i.shared, i.key.length - i.shared, i.value.length,
        i.key.drop i.shared ++ i.value ++ itemsBytes rest⟩ =
        (itemsBytes front ++ header).length := by
      rw [entryOffset, hit.restarts, harea]
      simp only [length_append]
      omega
    have hdelta : (i.key.drop i.shared).length = i.key.length - i.shared := length_drop
    obtain ⟨tail, hdata⟩ : ∃ tail, it.data = (itemsBytes front ++ header) ++
        (i.key.drop i.shared ++ (i.value ++ tail)) := by
      simp only [hit.data, blockContents, harea, append_assoc]
      exact ⟨_, rfl⟩
    rw [hoffset, bytesAt, bytesAt, hdata]
    refine ⟨?_, ?_, ?_⟩
    · rw [drop_left, take_left' hdelta]
    · rw [← drop_drop, drop_left, drop_left' hdelta, take_left]
    · simp only [itemsBytes_append, itemsBytes_cons, itemsBytes_nil, hbytes, length_append,
        length_nil]
      omega

end

/-! ## One entry further -/

/-- The next entry to be parsed is the first of `rem`. -/
structure Ready (it : BlockIter) (segments : List (List Item)) (rem : List Item) : Prop where
  reads : it.Reads segments
  segmented : Segmented segments
  linked : Linked it.key rem
  place : ∃ front, front ++ rem = segments.flatten ∧
    it.nextEntryOffset = (itemsBytes front).length

/-- The iterator stands at the first entry of `rem`, or is not valid if there is none. -/
structure At (it : BlockIter) (segments : List (List Item)) (rem : List Item) : Prop where
  reads : it.Reads segments
  segmented : Segmented segments
  valid : it.valid = !rem.isEmpty
  entry : ∀ i ∈ rem.head?, it.key = i.key ∧ it.value = i.value
  place : ∃ front, front ++ rem = segments.flatten ∧
    (rem ≠ [] → it.nextEntryOffset = (itemsBytes (front ++ rem.take 1)).length)

/-- `ParseNextKey` goes to the entry that is next. -/
theorem Ready.parseNextKey (hit : it.Ready segments rem) :
    it.parseNextKey.1 = !rem.isEmpty ∧ it.parseNextKey.2.At segments rem := by
  obtain ⟨hreads, hsegmented, hlinked, front, hsplit, hoffset⟩ := hit
  have hrestarts : it.restarts = (itemsBytes front).length + (itemsBytes rem).length := by
    rw [hreads.restarts, ← hsplit, itemsBytes_append, length_append]
  cases rem with
  | nil =>
    have hge : it.restarts ≤ it.nextEntryOffset := by
      rw [hrestarts, hoffset]
      exact le_rfl
    simp only [BlockIter.parseNextKey, parseAt, if_pos hge]
    refine ⟨rfl, { hreads with }, hsegmented, ?_, by simp,
      front, hsplit, by simp⟩
    simp [BlockIter.valid]
  | cons i rest =>
    obtain ⟨e, hdecode, hshared, hdelta, hvalue, hend⟩ :=
      hreads.decodeEntry hsegmented hsplit
    have hpos := i.length_bytes_pos
    have hlt : ¬ it.restarts ≤ it.nextEntryOffset := by
      rw [hrestarts, itemsBytes_cons, length_append]
      omega
    have hkey : ¬ it.key.length < e.shared := by
      rw [hshared]
      exact Nat.not_lt.mpr hlinked.1.2.1
    have hlast : (itemsBytes (front ++ [i])).length < 2 ^ 32 := by
      have hsize := hreads.size
      rw [length_blockContents, ← hsplit, ← singleton_append, ← append_assoc,
        itemsBytes_append, length_append] at hsize
      omega
    rw [← hoffset] at hdecode
    have hparse : it.parseNextKey =
        (true, BlockIter.enter (record { it with current := it.nextEntryOffset }
          it.nextEntryOffset) e) := by
      have hdecode' : SSTable.decodeEntry
          (BlockIter.area { it with current := it.nextEntryOffset } it.nextEntryOffset) =
          some e := hdecode
      simp [BlockIter.parseNextKey, parseAt, if_neg hlt, hdecode', if_neg hkey]
    rw [hparse]
    refine ⟨rfl, { hreads with }, hsegmented, ?_, ?_, front,
      hsplit, fun _ => ?_⟩
    · exact decide_eq_true (Nat.not_le.mp hlt)
    · intro j hj
      obtain rfl : i = j := by simpa using hj
      refine ⟨?_, hvalue⟩
      change it.key.take e.shared ++ it.bytesAt (it.entryOffset e) e.nonShared = i.key
      rw [hdelta, hshared, hlinked.1.take_append]
    · change (it.entryOffset e + e.nonShared + e.valueLength) % 2 ^ 32 = _
      rw [hend, Nat.mod_eq_of_lt hlast]
      rfl

/-- Behind the entry at which the iterator stands follows the rest. -/
theorem At.ready (hit : it.At segments (i :: rest)) : it.Ready segments rest := by
  obtain ⟨hreads, hsegmented, -, hentry, front, hsplit, hoffset⟩ := hit
  have hlinked := hsegmented.linked
  rw [← hsplit, linked_append] at hlinked
  refine ⟨hreads, hsegmented, ?_, front ++ [i], by simpa using hsplit, hoffset (by simp)⟩
  rw [(hentry i rfl).1]
  exact hlinked.2.2

/-- `Next` goes to the following entry. -/
theorem At.next (hit : it.At segments (i :: rest)) : it.next.At segments rest :=
  hit.ready.parseNextKey.2

/-! ## Restart points -/

section

variable (hit : it.Reads segments) (hsegmented : Segmented segments)
include hit hsegmented

/-- At a restart point the entries of its segment and the later ones are next. -/
theorem Reads.seekToRestartPoint {j : Nat} (hj : j < segments.length) :
    (it.seekToRestartPoint j).Ready segments (segments.drop j).flatten := by
  refine ⟨{ hit with }, hsegmented, hsegmented.linked_drop j,
    (segments.take j).flatten, by rw [← flatten_append, take_append_drop], ?_⟩
  change (it.getRestartPoint j + 0) % 2 ^ 32 = _
  rw [hit.getRestartPoint hj, add_zero, Nat.mod_eq_of_lt (hit.segmentOffset_lt j)]
  rfl

/-- `SeekToFirst` goes to the first entry. -/
theorem Reads.seekToFirst (hpos : segments ≠ []) : it.seekToFirst.At segments segments.flatten :=
  (hit.seekToRestartPoint hsegmented (length_pos_iff.mpr hpos)).parseNextKey.2

end

/-! ## Seek -/

/-- The entries from the first one on whose key is not smaller than the target. -/
def seekItems (items : List Item) (target : List UInt8) : List Item :=
  items.dropWhile fun i => i.key < target

/-- The linear search ends at the first entry whose key is not smaller. -/
theorem Ready.searchEntries
    (hit : it.Ready segments rem) (target : List UInt8) {fuel : Nat} (hfuel : rem.length < fuel) :
    (searchEntries target fuel it).At segments (seekItems rem target) := by
  induction fuel generalizing it rem with
  | zero => omega
  | succ fuel ih =>
    obtain ⟨hparse, hat⟩ := hit.parseNextKey
    rw [BlockIter.searchEntries, hparse]
    cases rem with
    | nil => exact hat
    | cons i rest =>
      obtain ⟨hkey, -⟩ := hat.entry i rfl
      simp only [isEmpty_cons, Bool.not_false, Bool.not_true, if_false, hkey, Bool.false_eq_true]
      split
      · next hge =>
        have hsame : seekItems (i :: rest) target = i :: rest := by simp [seekItems, hge]
        rwa [hsame]
      · next hlt =>
        have hskip : seekItems (i :: rest) target = seekItems rest target := by
          simp [seekItems, not_le.mp hlt]
        rw [hskip]
        exact ih hat.ready (by simpa using hfuel)

/-- The first key of a segment is smaller than the target. -/
def StartsBelow (segments : List (List Item)) (target : List UInt8) (j : Nat) : Prop :=
  ∃ i s rest, segments.drop j = (i :: s) :: rest ∧ i.key < target

variable (hit : it.Reads segments) (hsegmented : Segmented segments)
include hit hsegmented

/-- The bisection ends at the first restart point or at one with a smaller key. -/
theorem Reads.searchRestarts (target : List UInt8) (fuel left right : Nat) (hle : left ≤ right)
    (hright : right < segments.length) (hfuel : right < left + fuel)
    (hleft : left = 0 ∨ StartsBelow segments target left) :
    ∃ it' j, searchRestarts target fuel it left right = (it', some j) ∧ it'.Reads segments ∧
      j < segments.length ∧ (j = 0 ∨ StartsBelow segments target j) := by
  induction fuel generalizing it left right with
  | zero => omega
  | succ fuel ih =>
    rw [BlockIter.searchRestarts]
    split
    · have hmid : left < midpoint left right ∧ midpoint left right ≤ right := by
        have hsize := hit.size
        rw [length_blockContents] at hsize
        unfold midpoint
        omega
      generalize midpoint left right = mid at hmid ⊢
      obtain ⟨i, s, rest, hdrop, hzero⟩ := hsegmented.exists_start (j := mid) (by omega) (by omega)
      have hsplit : (segments.take mid).flatten ++ i :: (s ++ rest.flatten) = segments.flatten := by
        have h : segments.flatten = (segments.take mid).flatten ++ (segments.drop mid).flatten := by
          rw [← flatten_append, take_append_drop]
        rw [h, hdrop]
        rfl
      obtain ⟨e, hdecode, hshared, hdelta, -⟩ := hit.decodeEntry hsegmented hsplit
      rw [hzero] at hshared
      rw [hzero] at hdelta
      have hdecode' : SSTable.decodeEntry (it.area (it.getRestartPoint mid)) = some e := by
        rw [hit.getRestartPoint (by omega)]
        exact hdecode
      have hrecord : (it.record (it.getRestartPoint mid)).Reads segments :=
        { hit with }
      simp only [hdecode', hshared, ne_eq, not_true_eq_false, if_false, hdelta]
      split
      · next hkey =>
        exact ih hrecord mid right hmid.2 hright (by omega) (.inr ⟨i, s, rest, hdrop, hkey⟩)
      · exact ih hrecord left (mid - 1) (by omega) (by omega) (by omega) hleft
    · exact ⟨it, left, rfl, hit, by omega, hleft⟩

/-- `Seek` goes to the first entry whose key is not smaller than the target. -/
theorem Reads.seek (hpos : segments ≠ [])
    (hsorted : Cursor.Increasing (segments.flatten.map Item.entry)) (target : List UInt8) :
    (it.seek target).At segments (seekItems segments.flatten target) := by
  have hlength := length_pos_iff.mpr hpos
  obtain ⟨it', j, hsearch, hreads, hj, hbelow⟩ := hit.searchRestarts hsegmented target
    it.numRestarts 0 (it.numRestarts - 1) (Nat.zero_le _)
    (by rw [hit.numRestarts]; omega) (by rw [hit.numRestarts]; omega) (.inl rfl)
  have hready := hreads.seekToRestartPoint hsegmented hj
  have hsplit : segments.flatten = (segments.take j).flatten ++ (segments.drop j).flatten := by
    rw [← flatten_append, take_append_drop]
  have hfuel : (segments.drop j).flatten.length < it'.restarts + 1 := by
    have hle := length_le_itemsBytes (segments.drop j).flatten
    rw [hreads.restarts, hsplit, itemsBytes_append, length_append]
    omega
  have hseek : it.seek target =
      BlockIter.searchEntries target (it'.restarts + 1) (it'.seekToRestartPoint j) := by
    rw [BlockIter.seek, hsearch]
  have hskip : seekItems segments.flatten target = seekItems (segments.drop j).flatten target := by
    rcases hbelow with rfl | ⟨i, s, rest, hdrop, hlt⟩
    · rfl
    · rw [hsplit]
      refine dropWhile_append_of_pos fun i' hi' => decide_eq_true ?_
      rw [hsplit, hdrop, map_append, Cursor.Increasing, pairwise_append] at hsorted
      exact (hsorted.2.2 i'.entry (mem_map_of_mem hi') i.entry (by simp)).trans hlt
  rw [hseek, hskip]
  exact hready.searchEntries target hfuel

end BlockIter

/-! ## The cursor -/

/-- The iterator of a block with the given entries, at the first entry of `rest`. -/
def BlockIterator.Shows (it : BlockIterator) (entries rest : List (List UInt8 × List UInt8)) :
    Prop :=
  ∃ bi segments rem, it = .entries bi ∧ bi.At segments rem ∧ segments ≠ [] ∧
    segments.flatten.map Item.entry = entries ∧ rem.map Item.entry = rest

/-- The restart array of a block is found from its end. -/
theorem numRestarts_blockContents {segments : List (List Item)} (h : segments.length < 2 ^ 32) :
    Block.numRestarts (blockContents segments) (blockContents segments).length =
      segments.length := by
  have hlength := length_blockContents segments
  rw [Block.numRestarts, hlength, blockContents, drop_left' (by simp)]
  have hround := decodeFixed32_encodeFixed32 (.ofNat segments.length) []
  rw [append_nil] at hround
  rw [hround, UInt32.toNat_ofNat_of_lt' h]

theorem newIterator_blockContents {segments : List (List Item)} (hpos : segments ≠ [])
    (hsize : (blockContents segments).length < 2 ^ 32) :
    (Block.create (blockContents segments)).newIterator =
      .entries (.create (blockContents segments) (itemsBytes segments.flatten).length
        segments.length) := by
  have hlength := length_blockContents segments
  have hcount := length_pos_iff.mpr hpos
  have hrestarts := @numRestarts_blockContents segments (by omega)
  have hoffset : ((blockContents segments).length - (1 + segments.length) % 2 ^ 32 * 4) % 2 ^ 32 =
      (itemsBytes segments.flatten).length := by
    omega
  have hcreate : Block.create (blockContents segments) =
      ⟨blockContents segments, (blockContents segments).length,
        (itemsBytes segments.flatten).length⟩ := by
    rw [Block.create, hrestarts, if_neg (by omega), if_neg (by omega), hoffset]
  simp only [hcreate, Block.newIterator, hrestarts]
  rw [if_neg (by omega), if_neg (by omega)]

/-- A builder whose block is small enough has passed every `CHECK`, and the iterator of the block
is a cursor over the entries. -/
theorem BlockBuilder.Built.finish {b : BlockBuilder}
    {entries : List (List UInt8 × List UInt8)} (hb : b.Built entries)
    (hsize : b.finish.1.length < 2 ^ 32) :
    b.finish.2.checked = true ∧ (Block.create b.finish.1).newIterator.Shows entries [] := by
  obtain ⟨done, cur, hholds, hentries⟩ := hb
  have hpos : done ++ [cur] ≠ [] := by simp
  rw [hholds.finish_eq] at hsize
  have hlength := length_blockContents (done ++ [cur])
  constructor
  · have hrestarts : b.restarts.length ≤ maxUint32 := by
      rw [hholds.restarts, length_map, length_range, maxUint32]
      rw [length_append] at hlength
      omega
    have hchecked : b.checked = true := by
      refine hholds.checked.resolve_right ?_
      rw [hholds.buffer, maxUint32]
      omega
    simp [BlockBuilder.finish, hchecked, hrestarts]
  · rw [hholds.finish_eq, newIterator_blockContents hpos hsize]
    refine ⟨_, done ++ [cur], [], rfl, ⟨⟨rfl, rfl, rfl, hsize, rfl⟩, hholds.segmented, ?_, by simp,
      (done ++ [cur]).flatten, by simp, by simp⟩, hpos, hentries, rfl⟩
    simp [BlockIter.valid, BlockIter.create]

/-- A builder has entries if its buffer has bytes. -/
theorem BlockBuilder.Built.isEmpty_eq {b : BlockBuilder}
    {entries : List (List UInt8 × List UInt8)} (h : b.Built entries) :
    b.isEmpty = entries.isEmpty := by
  obtain ⟨done, cur, hholds, rfl⟩ := h
  rw [BlockBuilder.isEmpty, hholds.buffer]
  cases (done ++ [cur]).flatten with
  | nil => rfl
  | cons i items =>
    have hpos := i.length_bytes_pos
    rw [itemsBytes_cons, map_cons, isEmpty_cons, isEmpty_eq_false_iff]
    exact ne_nil_of_length_pos (by rw [length_append]; omega)

namespace BlockIterator

variable {it : BlockIterator} {entries rest : List (List UInt8 × List UInt8)}

theorem Shows.seekToFirst (h : it.Shows entries rest) : it.seekToFirst.Shows entries entries := by
  obtain ⟨bi, segments, rem, rfl, hat, hpos, hentries, -⟩ := h
  exact ⟨_, segments, _, rfl, hat.reads.seekToFirst hat.segmented hpos, hpos, hentries, hentries⟩

theorem Shows.seek (h : it.Shows entries rest) (hsorted : Cursor.Increasing entries)
    (target : List UInt8) : (it.seek target).Shows entries (Cursor.seek entries target) := by
  obtain ⟨bi, segments, rem, rfl, hat, hpos, rfl, -⟩ := h
  refine ⟨_, segments, _, rfl, hat.reads.seek hat.segmented hpos hsorted target, hpos, rfl, ?_⟩
  rw [Cursor.seek, dropWhile_map]
  exact congrArg (fun p => (segments.flatten.dropWhile p).map Item.entry)
    (funext fun i => decide_eq_decide.mpr Iff.rfl)

theorem Shows.next {e : List UInt8 × List UInt8} (h : it.Shows entries (e :: rest)) :
    it.next.Shows entries rest := by
  obtain ⟨bi, segments, rem, rfl, hat, hpos, hentries, hrest⟩ := h
  cases rem with
  | nil => cases hrest
  | cons i rem => exact ⟨_, segments, rem, rfl, hat.next, hpos, hentries, (cons.inj hrest).2⟩

theorem Shows.valid_eq (h : it.Shows entries rest) : it.valid = !rest.isEmpty := by
  obtain ⟨bi, segments, rem, rfl, hat, -, -, rfl⟩ := h
  rw [BlockIterator.valid, hat.valid]
  cases rem with
  | nil => rfl
  | cons i rem => rfl

theorem Shows.entry_eq {e : List UInt8 × List UInt8} (h : it.Shows entries (e :: rest)) :
    (it.key, it.value) = e := by
  obtain ⟨bi, segments, rem, rfl, hat, -, -, hrest⟩ := h
  cases rem with
  | nil => cases hrest
  | cons i rem =>
    obtain ⟨hkey, hvalue⟩ := hat.entry i rfl
    rw [← (cons.inj hrest).1, BlockIterator.key, BlockIterator.value, hkey, hvalue, Item.entry]

theorem Shows.status_eq (h : it.Shows entries rest) : it.status = .ok := by
  obtain ⟨bi, segments, rem, rfl, hat, -⟩ := h
  exact hat.reads.status

end BlockIterator

end Tension.SSTable
