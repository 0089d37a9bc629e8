import Tension.Models.SSTable.Block

/-!
# What the decoder hands out

`DecodeEntry` compares the bytes that are left with the 32-bit sum of the two lengths of an entry.
The key delta and the value of an entry that it accepts lie inside the data area exactly when this
sum did not wrap around. Every entry that moves an iterator forward is at least three bytes long,
so the linear search ends.
-/

namespace Tension.SSTable

open Io Run List Option

/-! ## One entry -/

/-- A header takes three bytes at least. -/
theorem entryHeader_bounds {bytes : List UInt8} {e : DecodedEntry}
    (h : entryHeader bytes = some e) :
    e.nonShared < 2 ^ 32 ∧ e.valueLength < 2 ^ 32 ∧ e.rest.length + 3 ≤ bytes.length := by
  unfold entryHeader at h
  split at h
  · next b₀ b₁ b₂ rest =>
    split at h
    · cases h
      have h₁ := b₁.toNat_lt
      have h₂ := b₂.toNat_lt
      refine ⟨?_, ?_, ?_⟩
      · simp only
        omega
      · simp only
        omega
      · simp
    · obtain ⟨⟨shared, p₁⟩, hshared, h⟩ := bind_eq_some_iff.mp h
      obtain ⟨⟨nonShared, p₂⟩, hnonShared, h⟩ := bind_eq_some_iff.mp h
      obtain ⟨⟨valueLength, p₃⟩, hvalue, h⟩ := map_eq_some_iff.mp h
      obtain rfl := h
      have h₁ := getVarint32_bounds hshared
      have h₂ := getVarint32_bounds hnonShared
      have h₃ := getVarint32_bounds hvalue
      simp only
      omega
  · cases h

namespace DecodedEntry

/-- The key delta and the value lie between the returned pointer and the limit. -/
def Inside (e : DecodedEntry) : Prop := e.nonShared + e.valueLength ≤ e.rest.length

/-- The lengths are too large for 32 bits, and what is left of their sum fits. -/
def Wraps (e : DecodedEntry) : Prop :=
  2 ^ 32 ≤ e.nonShared + e.valueLength ∧ e.nonShared + e.valueLength ≤ e.rest.length + 2 ^ 32

instance (e : DecodedEntry) : Decidable e.Inside := inferInstanceAs (Decidable (_ ≤ _))

instance (e : DecodedEntry) : Decidable e.Wraps := inferInstanceAs (Decidable (_ ∧ _))

end DecodedEntry

/-- An entry is handed out if its lengths fit or their sum wraps around. -/
theorem decodeEntry_eq_some_iff {bytes : List UInt8} (hsize : bytes.length < 2 ^ 31)
    {e : DecodedEntry} :
    decodeEntry bytes = some e ↔ entryHeader bytes = some e ∧ (e.Inside ∨ e.Wraps) := by
  unfold decodeEntry DecodedEntry.Inside DecodedEntry.Wraps
  rw [bind_eq_some_iff]
  constructor
  · rintro ⟨e', hheader, h⟩
    split at h
    · cases h
    · cases h
      obtain ⟨hns, hvl, hrest⟩ := entryHeader_bounds hheader
      exact ⟨hheader, by omega⟩
  · rintro ⟨hheader, hfits⟩
    obtain ⟨hns, hvl, hrest⟩ := entryHeader_bounds hheader
    exact ⟨e, hheader, if_neg (by omega)⟩

/-- What the decoder hands out lies inside exactly when the sum of the lengths did not wrap. -/
theorem decodeEntry_inside_iff {bytes : List UInt8} (hsize : bytes.length < 2 ^ 31) :
    (∀ e, decodeEntry bytes = some e → e.Inside) ↔
      ∀ e, entryHeader bytes = some e → ¬ e.Wraps := by
  simp only [decodeEntry_eq_some_iff hsize]
  constructor
  · intro h e hheader hwraps
    have hinside := h e ⟨hheader, .inr hwraps⟩
    have hrest := (entryHeader_bounds hheader).2.2
    unfold DecodedEntry.Inside at hinside
    unfold DecodedEntry.Wraps at hwraps
    omega
  · rintro h e ⟨hheader, hinside | hwraps⟩
    · exact hinside
    · exact absurd hwraps (h e hheader)

/-! ## Runs of an iterator -/

namespace BlockIter

/-- Two iterators of the same block. -/
def SameBlock (it it' : BlockIter) : Prop :=
  it'.data = it.data ∧ it'.restarts = it.restarts ∧ it'.numRestarts = it.numRestarts

variable (it : BlockIter)

theorem SameBlock.refl : SameBlock it it := ⟨rfl, rfl, rfl⟩

theorem SameBlock.trans {it₁ it₂ it₃ : BlockIter} (h : SameBlock it₁ it₂)
    (h' : SameBlock it₂ it₃) : SameBlock it₁ it₃ :=
  ⟨h'.1.trans h.1, h'.2.1.trans h.2.1, h'.2.2.trans h.2.2⟩

/-- Parsing an entry stays in the block. -/
theorem sameBlock_parseAt : SameBlock it it.parseAt.2 := by
  unfold parseAt
  split
  · exact ⟨rfl, rfl, rfl⟩
  · split
    · exact ⟨rfl, rfl, rfl⟩
    · split
      · exact ⟨rfl, rfl, rfl⟩
      · exact ⟨rfl, rfl, rfl⟩

theorem sameBlock_parseNextKey : SameBlock it it.parseNextKey.2 :=
  sameBlock_parseAt { it with current := it.nextEntryOffset }

section

variable (target : List UInt8) (fuel : Nat) (it : BlockIter)

theorem sameBlock_searchEntries : SameBlock it (searchEntries target fuel it) := by
  induction fuel generalizing it with
  | zero => exact .refl it
  | succ fuel ih =>
    rw [searchEntries]
    split
    · exact sameBlock_parseNextKey it
    · split
      · exact sameBlock_parseNextKey it
      · exact (sameBlock_parseNextKey it).trans (ih _)

theorem sameBlock_searchRestarts (left right : Nat) :
    SameBlock it (searchRestarts target fuel it left right).1 := by
  have hrecord (it : BlockIter) (p : Nat) : SameBlock it (it.record p) := ⟨rfl, rfl, rfl⟩
  induction fuel generalizing it left right with
  | zero => exact .refl it
  | succ fuel ih =>
    rw [searchRestarts]
    split
    · split
      · exact ⟨rfl, rfl, rfl⟩
      · split
        · exact ⟨rfl, rfl, rfl⟩
        · split
          · exact (hrecord it _).trans (ih _ _ _)
          · exact (hrecord it _).trans (ih _ _ _)
    · exact .refl it

end

/-- `Seek` stays in the block. -/
theorem sameBlock_seek (target : List UInt8) : SameBlock it (it.seek target) := by
  have hsearch := sameBlock_searchRestarts target it.numRestarts it 0 (it.numRestarts - 1)
  unfold seek
  split
  · next it' heq => rwa [heq] at hsearch
  · next it' left heq =>
    rw [heq] at hsearch
    exact hsearch.trans (sameBlock_searchEntries target _ (it'.seekToRestartPoint left))

end BlockIter

namespace BlockIterator

/-- The offsets at which the iterator has called `DecodeEntry`. -/
def decodedAt : BlockIterator → List Nat
  | .empty _ => []
  | .entries it => it.decodedAt

/-- The iterator reads the entries of a block. -/
def Of (it : BlockIterator) (block : Block) : Prop :=
  match it with
  | .empty _ => True
  | .entries it => it.data = block.data ∧ it.restarts = block.restartOffset

/-- A new iterator is one of its block. -/
theorem of_newIterator (block : Block) : block.newIterator.Of block := by
  unfold Block.newIterator
  split
  · trivial
  · split
    · trivial
    · exact ⟨rfl, rfl⟩

/-- Calls stay in the block. -/
theorem Of.step {it it' : BlockIterator} {block : Block} (hit : it.Of block) {call : IterCall}
    (h : it.step call = some it') : it'.Of block := by
  have hsame {it it' : BlockIter} (hof : Of (.entries it) block) (h : it.SameBlock it') :
      Of (.entries it') block := ⟨h.1.trans hof.1, h.2.1.trans hof.2⟩
  cases call with
  | seekToFirst =>
    cases h
    cases it with
    | empty s => trivial
    | entries it => exact hsame hit (BlockIter.sameBlock_parseNextKey (it.seekToRestartPoint 0))
  | seek target =>
    cases h
    cases it with
    | empty s => trivial
    | entries it => exact hsame hit (it.sameBlock_seek target)
  | next =>
    rw [BlockIterator.step] at h
    split at h
    · cases h
      cases it with
      | empty s => trivial
      | entries it => exact hsame hit it.sameBlock_parseNextKey
    · cases h

end BlockIterator

namespace Block

/-- The bytes of the data area from an offset on. -/
def area (block : Block) (p : Nat) : List UInt8 := (block.data.take block.restartOffset).drop p

theorem length_area_create_le (contents : List UInt8) (p : Nat) :
    ((create contents).area p).length ≤ contents.length := by
  have hdata : (create contents).data = contents := by
    unfold create
    split
    · rfl
    · split
      · rfl
      · rfl
  rw [area, hdata, length_drop, length_take]
  omega

/-- Whatever the bytes of a block are and whatever calls move its iterator: all key deltas and
values that `DecodeEntry` has handed out lie inside the data area exactly when the lengths did not
wrap around at any offset it was called at. -/
theorem handedOut_inside_iff {contents : List UInt8} (hsize : contents.length < 2 ^ 31)
    {calls : List IterCall} {it : BlockIterator}
    (hrun : run BlockIterator.step (create contents).newIterator calls = some it) :
    it.Of (create contents) ∧
      ((∀ p ∈ it.decodedAt, ∀ e, decodeEntry ((create contents).area p) = some e → e.Inside) ↔
        ∀ p ∈ it.decodedAt, ∀ e, entryHeader ((create contents).area p) = some e → ¬ e.Wraps) := by
  constructor
  · have hall : Admissible BlockIterator.step (fun _ _ => True) (create contents).newIterator
        calls := admissible_of_forall (fun _ _ => trivial) _ _
    exact run_invariant (I := fun it => it.Of (create contents))
      (fun s call s' hs _ hstep => hs.step hstep) (BlockIterator.of_newIterator _) hall hrun
  · refine forall₂_congr fun p _ => ?_
    exact decodeEntry_inside_iff ((length_area_create_le contents p).trans_lt hsize)

/-- One entry with a key and a value of one byte each, and its restart point. -/
def plainContents : List UInt8 := [0, 1, 1, 0x61, 0x62] ++ [0, 0, 0, 0] ++ [1, 0, 0, 0]

/-- The only entry of the block is inside of it. -/
theorem handedOut_inside_plainContents :
    ∃ it, run BlockIterator.step (create plainContents).newIterator [.seekToFirst, .next] =
        some it ∧ it.decodedAt = [0] ∧
      ∀ p ∈ it.decodedAt, ∀ e, decodeEntry ((create plainContents).area p) = some e →
        e.Inside := by
  have hrun : run BlockIterator.step (create plainContents).newIterator [.seekToFirst, .next] =
      some (create plainContents).newIterator.seekToFirst.next := rfl
  refine ⟨_, hrun, by decide +kernel, ?_⟩
  refine (handedOut_inside_iff (by decide) hrun).2.mpr ?_
  intro p hp e he
  have hzero : p = 0 := by
    have hlist : p ∈ [0] := hp
    simpa using hlist
  subst hzero
  obtain rfl : ⟨0, 1, 1, [0x61, 0x62]⟩ = e := some.inj he
  decide

/-- An entry with a key delta of one byte and a value of 2^32 - 1 bytes, and its restart point. -/
def wrappingContents : List UInt8 :=
  [0, 1, 0xff, 0xff, 0xff, 0xff, 0x0f] ++ [0, 0, 0, 0] ++ [1, 0, 0, 0]

/-- The first entry is accepted although its key delta and its value end behind the block. -/
theorem seekToFirst_wrappingContents :
    ∃ it, run BlockIterator.step (create wrappingContents).newIterator [.seekToFirst] = some it ∧
      it.valid = true ∧ 0 ∈ it.decodedAt ∧
      ∃ e, decodeEntry ((create wrappingContents).area 0) = some e ∧ e.nonShared = 1 ∧
        e.valueLength = 2 ^ 32 - 1 ∧ e.rest = [] ∧ ¬ e.Inside :=
  ⟨_, rfl, by decide +kernel, by decide +kernel, ⟨0, 1, 2 ^ 32 - 1, []⟩, by decide +kernel, rfl,
    rfl, rfl, by decide⟩

end Block

end Tension.SSTable
