import Mathlib.Data.String.Basic
import Tension.Core.Run
import Tension.Core.Window
import Tension.Models.BlockCache.RamFileBlockCache

/-!
# Transparency of the block cache

For files that do not change, a read returns what the file has, reports the end of the file
or passes on an error of the fetcher. An exception are reads up to the end of a file for
which the cache holds a block that lies behind the end: the short block at the end is then
taken for inconsistent.
-/

namespace Tension.BlockCache

open Window List Option

namespace RamFileBlockCache

/-! ## Files and blocks -/

section Geometry

variable {F : Type} {c : Config F} {files : F → List UInt8} {filename : F}
variable {offset n pos count : Nat}

/-- The fetcher fails or returns the bytes of the file, which does not change. -/
def Serves (c : Config F) (files : F → List UInt8) : Prop :=
  ∀ m filename offset n, (c.blockFetcher m filename offset n).1 = .ok →
    (c.blockFetcher m filename offset n).2 = window (files filename) offset (offset + n)

/-- An error that the fetcher returned for the file in one of the calls from `before` on and
before `after`. -/
def FetcherError (c : Config F) (filename : F) (before after : Nat) (status : Status) : Prop :=
  status ≠ .ok ∧ ∃ m offset n, before ≤ m ∧ m < after ∧
    (c.blockFetcher m filename offset n).1 = status

theorem FetcherError.mono {before before' after : Nat} {status : Status}
    (h : FetcherError c filename before after status) (hle : before' ≤ before) :
    FetcherError c filename before' after status := by
  obtain ⟨hne, m, offset, n, hm, hm', heq⟩ := h
  exact ⟨hne, m, offset, n, hle.trans hm, hm', heq⟩

/-- What a read may return: an error that the fetcher returned to it, the end of the file, or
the bytes. -/
def Transparent (c : Config F) (files : F → List UInt8) (s s' : RamFileBlockCache F)
    (filename : F) (offset n : Nat) (result : Status × List UInt8) : Prop :=
  FetcherError c filename s.fetches s'.fetches result.1 ∨
    (result.1.code = .outOfRange ∧ (files filename).length ≤ offset ∧ 0 < n) ∨
    result = (.ok, window (files filename) offset (offset + n))

/-- The bytes of a block. -/
def blockOf (c : Config F) (files : F → List UInt8) (k : Key F) : List UInt8 :=
  window (files k.filename) k.pos (k.pos + c.blockSize)

/-- Blocks are cut off at the end of the file. -/
theorem length_blockOf (c : Config F) (files : F → List UInt8) (k : Key F) :
    (blockOf c files k).length = min (k.pos + c.blockSize) (files k.filename).length - k.pos :=
  length_window ..

/-- The position of the block that the file ends in. -/
def lastBlock (c : Config F) (files : F → List UInt8) (filename : F) : Nat :=
  c.blockSize * ((files filename).length / c.blockSize)

/-- A position of a block of the read. -/
structure Position (c : Config F) (offset n pos count : Nat) : Prop where
  aligned : pos = c.blockSize * (pos / c.blockSize)
  start_le : start c offset ≤ pos
  finish_eq : pos + c.blockSize * count = finish c offset n

section

variable (hsize : 0 < c.blockSize)
include hsize

/-- The end of a read is rounded up to a block. -/
theorem finish_spec (offset n : Nat) :
    offset + n ≤ finish c offset n ∧ finish c offset n < offset + n + c.blockSize := by
  have hdiv := Nat.div_add_mod (offset + n) c.blockSize
  have hmod := Nat.mod_lt (offset + n) hsize
  rw [finish]
  split <;> omega

/-- The start of a read is rounded down to a block. -/
theorem start_spec (offset : Nat) :
    start c offset ≤ offset ∧ offset < start c offset + c.blockSize := by
  have hdiv := Nat.div_add_mod offset c.blockSize
  have hmod := Nat.mod_lt offset hsize
  rw [start]
  omega

/-- The blocks of a read are counted. -/
theorem position_start (offset n : Nat) :
    Position c offset n (start c offset) ((finish c offset n - start c offset) / c.blockSize) := by
  have hstart := start_spec hsize offset
  have hfinish := finish_spec hsize offset n
  have haligned : ∃ q, finish c offset n = c.blockSize * q := by
    rw [finish]
    split
    · exact ⟨(offset + n) / c.blockSize + 1, (Nat.mul_succ ..).symm⟩
    · exact ⟨_, rfl⟩
  obtain ⟨q, hq⟩ := haligned
  refine ⟨by rw [start, Nat.mul_div_cancel_left _ hsize], le_rfl, ?_⟩
  have hsub : finish c offset n - start c offset = c.blockSize * (q - offset / c.blockSize) := by
    rw [hq, start, Nat.mul_sub]
  rw [hsub, Nat.mul_div_cancel_left _ hsize]
  omega

/-- The next block of a read. -/
theorem Position.next (h : Position c offset n pos (count + 1)) :
    Position c offset n (pos + c.blockSize) count where
  aligned := by
    rw [Nat.add_div_right _ hsize, Nat.mul_succ, ← h.aligned]
  start_le := h.start_le.trans (Nat.le_add_right ..)
  finish_eq := by rw [← h.finish_eq, Nat.mul_succ]; omega

theorem Position.lt (h : Position c offset n pos (count + 1)) : pos < offset + n := by
  have hfinish := (finish_spec hsize offset n).2
  rw [← h.finish_eq, Nat.mul_succ] at hfinish
  omega

/-- A block that is short does not lie before the last block. -/
theorem lastBlock_le (h : Position c offset n pos count)
    (hshort : (files filename).length < pos + c.blockSize) : lastBlock c files filename ≤ pos := by
  have hlt : (files filename).length / c.blockSize < pos / c.blockSize + 1 := by
    rw [Nat.div_lt_iff_lt_mul hsize, Nat.add_mul, one_mul, mul_comm, ← h.aligned]
    exact hshort
  rw [h.aligned]
  exact Nat.mul_le_mul_left _ (Nat.le_of_lt_succ hlt)

end

/-- The bytes that are copied from a block continue the buffer. -/
theorem copied_eq (file : List UInt8) (offset n pos size : Nat) (hlt : pos < offset + n) :
    let data := window file pos (pos + size)
    window file offset (min pos (offset + n)) ++
      (data.take (if offset + n < pos + data.length then
        data.length - (pos + data.length - (offset + n)) else data.length)).drop (offset - pos) =
      window file offset (min (pos + size) (offset + n)) := by
  intro data
  have hlength : data.length = min (pos + size) file.length - pos := length_window ..
  have hstart : pos + (offset - pos) = max offset (min pos (offset + n)) := by omega
  rw [← window_append file offset (show min pos (offset + n) ≤ min (pos + size) (offset + n) by
    omega)]
  congr 1
  refine (window_block file pos size _ _).trans ?_
  rw [hstart]
  apply window_congr
  split <;> omega

end Geometry

/-! ## The invariant -/

variable {F : Type} [LinearOrder F] {c : Config F} {files : F → List UInt8}
variable {s s' : RamFileBlockCache F} {k : Key F}

/-- The lists have the keys of the map, and blocks that were fetched have their bytes. -/
structure Inv (c : Config F) (files : F → List UInt8) (s : RamFileBlockCache F) : Prop where
  lru : s.lruList.Perm s.blockMap.keys
  lra : s.lraList.Perm s.blockMap.keys
  blocks : ∀ k block, s.blockMap.lookup k = some block → block.state ≠ .fetching ∧
    (block.state = .finished → block.data = blockOf c files k)

/-- A new cache is empty. -/
theorem inv_new : Inv c files (new : RamFileBlockCache F) where
  lru := List.Perm.refl _
  lra := List.Perm.refl _
  blocks k block h := by
    cases h

theorem Inv.tick (hs : Inv c files s) : Inv c files s.tick := { hs with }

theorem exists_lookup (h : k ∈ s.blockMap) : ∃ block, s.blockMap.lookup k = some block :=
  isSome_iff_exists.mp (AList.lookup_isSome.mpr h)

/-! ## Removing blocks -/

/-- `RemoveBlock` keeps the invariant. -/
theorem removeBlock_spec (hs : Inv c files s) (hk : k ∈ s.blockMap) :
    ∃ s', s.removeBlock k = some s' ∧ Inv c files s' ∧ s'.blockMap = s.blockMap.erase k ∧
      s'.fetches = s.fetches := by
  obtain ⟨block, hblock⟩ := exists_lookup hk
  rw [removeBlock, hblock]
  refine ⟨_, rfl, ⟨?_, ?_, ?_⟩, rfl, rfl⟩
  · rw [AList.keys_erase]
    exact hs.lru.erase k
  · rw [AList.keys_erase]
    exact hs.lra.erase k
  · intro k' block' h
    rcases eq_or_ne k' k with rfl | hne
    · rw [AList.lookup_erase] at h
      cases h
    · rw [AList.lookup_erase_ne hne] at h
      exact hs.blocks k' block' h

/-- Several blocks are removed. -/
theorem removeBlocks_spec {keys : List (Key F)} (hkeys : keys.Nodup) (hs : Inv c files s)
    (h : ∀ k ∈ keys, k ∈ s.blockMap) : ∃ s', keys.foldlM removeBlock s = some s' ∧ Inv c files s' ∧
      (∀ k ∈ s'.blockMap, k ∈ s.blockMap ∧ k ∉ keys) ∧ s'.fetches = s.fetches := by
  induction keys generalizing s with
  | nil => exact ⟨s, rfl, hs, fun k hk => ⟨hk, not_mem_nil⟩, rfl⟩
  | cons k keys ih =>
    obtain ⟨hnot, hkeys⟩ := nodup_cons.mp hkeys
    obtain ⟨s₁, hremove, hs₁, hmap, hfetches⟩ := removeBlock_spec hs (h k mem_cons_self)
    have hrest : ∀ k' ∈ keys, k' ∈ s₁.blockMap := by
      intro k' hk'
      rw [hmap, AList.mem_erase]
      exact ⟨fun heq => hnot (heq ▸ hk'), h k' (mem_cons_of_mem _ hk')⟩
    obtain ⟨s₂, hfold, hs₂, hsub, hfetches'⟩ := ih hkeys hs₁ hrest
    refine ⟨s₂, by rw [foldlM_cons, hremove]; exact hfold, hs₂, fun k' hk' => ?_,
      hfetches'.trans hfetches⟩
    obtain ⟨hk₁, hnot'⟩ := hsub k' hk'
    rw [hmap, AList.mem_erase] at hk₁
    exact ⟨hk₁.2, fun hmem => (mem_cons.mp hmem).elim hk₁.1 hnot'⟩

section

variable (hs : Inv c files s)
include hs

/-- `RemoveFile_Locked` removes the blocks of a file. -/
theorem removeFileLocked_spec (filename : F) :
    ∃ s', s.removeFileLocked filename = some s' ∧ Inv c files s' ∧
      (∀ k ∈ s'.blockMap, k ∈ s.blockMap ∧ k.filename ≠ filename) ∧ s'.fetches = s.fetches := by
  have hnodup : (s.blockMap.keys.filter fun k => k.filename = filename).Nodup :=
    s.blockMap.keys_nodup.filter _
  obtain ⟨s', hfold, hs', hsub, hfetches⟩ := removeBlocks_spec hnodup hs
    fun k hk => AList.mem_keys.mpr (mem_filter.mp hk).1
  refine ⟨s', hfold, hs', fun k hk => ⟨(hsub k hk).1, fun heq => (hsub k hk).2 ?_⟩, hfetches⟩
  exact mem_filter.mpr ⟨AList.mem_keys.mp (hsub k hk).1, decide_eq_true heq⟩

/-- `Trim` only removes blocks. -/
theorem trimLoop_spec (n : Nat) :
    ∃ s', trimLoop c n s = some s' ∧ Inv c files s' ∧ (∀ k ∈ s'.blockMap, k ∈ s.blockMap) ∧
      s'.fetches = s.fetches := by
  induction n generalizing s with
  | zero => exact ⟨s, rfl, hs, fun _ => id, rfl⟩
  | succ n ih =>
    rw [trimLoop]
    cases hlast : s.lruList.getLast? with
    | none => exact ⟨s, rfl, hs, fun _ => id, rfl⟩
    | some k =>
      dsimp only
      split
      · exact ⟨s, rfl, hs, fun _ => id, rfl⟩
      have hk : k ∈ s.blockMap := AList.mem_keys.mpr (hs.lru.mem_iff.mp (mem_of_getLast? hlast))
      obtain ⟨s₁, hremove, hs₁, hmap, hfetches⟩ := removeBlock_spec hs hk
      obtain ⟨s₂, htrim, hs₂, hsub, hfetches'⟩ := ih hs₁
      refine ⟨s₂, by rw [hremove, bind_some, htrim], hs₂, fun k' hk' => ?_,
        hfetches'.trans hfetches⟩
      have hk₁ := hsub k' hk'
      rw [hmap, AList.mem_erase] at hk₁
      exact hk₁.2

/-- One pass of `Prune` keeps the invariant. -/
theorem pruneLoop_spec (now : UInt64) (n : Nat) :
    ∃ s', pruneLoop c now n s = some s' ∧ Inv c files s' := by
  induction n generalizing s with
  | zero => exact ⟨s, rfl, hs⟩
  | succ n ih =>
    rw [pruneLoop]
    cases hlast : s.lraList.getLast? with
    | none => exact ⟨s, rfl, hs⟩
    | some k =>
      have hk : k ∈ s.blockMap := AList.mem_keys.mpr (hs.lra.mem_iff.mp (mem_of_getLast? hlast))
      obtain ⟨block, hblock⟩ := exists_lookup hk
      simp only [hblock]
      split
      · exact ⟨s, rfl, hs⟩
      · obtain ⟨s₁, hremove, hs₁, -⟩ := removeFileLocked_spec hs k.filename
        rw [hremove]
        exact ih hs₁

/-! ## One block -/

/-- A block without data is inserted. -/
theorem insertBlock_spec (hk : k ∉ s.blockMap) : Inv c files (s.insertBlock c k) ∧
      ∀ k', k' ∈ (s.insertBlock c k).blockMap ↔ k' = k ∨ k' ∈ s.blockMap := by
  have hkeys : (s.insertBlock c k).blockMap.keys = k :: s.blockMap.keys := by
    rw [insertBlock, AList.keys_insert, erase_of_not_mem fun h => hk (AList.mem_keys.mpr h)]
  refine ⟨⟨hkeys ▸ hs.lru.cons k, hkeys ▸ hs.lra.cons k, fun k' block h => ?_⟩, fun k' => ?_⟩
  · rcases eq_or_ne k' k with rfl | hne
    · rw [insertBlock, AList.lookup_insert] at h
      cases h
      exact ⟨nofun, nofun⟩
    · rw [insertBlock, AList.lookup_insert_ne hne] at h
      exact hs.blocks k' block h
  · rw [insertBlock, AList.mem_insert]

end

/-- `Lookup` returns a block of the map. -/
theorem lookup_spec (hs : Inv c files s) (k : Key F) :
    ∃ s', s.lookup c k = some s' ∧ Inv c files s' ∧ k ∈ s'.blockMap ∧
      (∀ k' ∈ s'.blockMap, k' = k ∨ k' ∈ s.blockMap) ∧ s'.fetches = s.fetches := by
  rw [lookup]
  cases hblock : s.blockMap.lookup k with
  | none =>
    obtain ⟨hinv, hmem⟩ := insertBlock_spec hs (AList.lookup_eq_none.mp hblock)
    exact ⟨_, rfl, hinv, (hmem k).mpr (.inl rfl), fun k' => (hmem k').mp, rfl⟩
  | some block =>
    have hk : k ∈ s.blockMap := AList.lookup_isSome.mp (by rw [hblock, isSome_some])
    dsimp only
    split
    · exact ⟨s, rfl, hs, hk, fun _ => .inr, rfl⟩
    split
    · exact ⟨s.tick, rfl, hs.tick, hk, fun _ => .inr, rfl⟩
    · obtain ⟨s₁, hremove, hs₁, hsub, hfetches⟩ := removeFileLocked_spec hs.tick k.filename
      obtain ⟨hinv, hmem⟩ := insertBlock_spec hs₁ fun h => (hsub k h).2 rfl
      rw [hremove]
      refine ⟨_, rfl, hinv, (hmem k).mpr (.inl rfl), fun k' hk' => ?_, hfetches⟩
      exact ((hmem k').mp hk').imp_right fun h => (hsub k' h).1

/-- A block is replaced in the map. -/
theorem Inv.replace (s' : RamFileBlockCache F) (hs : Inv c files s) (hk : k ∈ s.blockMap)
    {block : Block}
    (hblock : block.state ≠ .fetching ∧ (block.state = .finished → block.data = blockOf c files k))
    (hmap : s'.blockMap = s.blockMap.insert k block) (hlru : s'.lruList.Perm s.lruList)
    (hlra : s'.lraList.Perm s.lraList) :
    Inv c files s' ∧ ∀ k', k' ∈ s'.blockMap ↔ k' ∈ s.blockMap := by
  have hkeys : s.blockMap.keys.Perm s'.blockMap.keys := by
    rw [hmap, AList.keys_insert]
    exact perm_cons_erase (AList.mem_keys.mp hk)
  refine ⟨⟨hlru.trans (hs.lru.trans hkeys), hlra.trans (hs.lra.trans hkeys),
    fun k' block' h => ?_⟩, fun k' => ?_⟩
  · rw [hmap] at h
    rcases eq_or_ne k' k with rfl | hne
    · rw [AList.lookup_insert] at h
      exact some.inj h ▸ hblock
    · rw [AList.lookup_insert_ne hne] at h
      exact hs.blocks k' block' h
  · rw [AList.mem_keys, AList.mem_keys, hkeys.mem_iff]

/-- A fetched block is accounted for. -/
theorem reconcile_spec (block : Block) (hs : Inv c files s) (hk : k ∈ s.blockMap)
    (hstate : block.state = .finished) (hdata : block.data = blockOf c files k) :
    Inv c files (s.reconcile c k block) ∧
      (∀ k', k' ∈ (s.reconcile c k block).blockMap ↔ k' ∈ s.blockMap) ∧
      (s.reconcile c k block).fetches = s.fetches ∧
      ∃ block', (s.reconcile c k block).blockMap.lookup k = some block' ∧
        block'.data = blockOf c files k := by
  have hgood (b : Block) (hb : b.state = .finished) (hd : b.data = blockOf c files k) :
      b.state ≠ .fetching ∧ (b.state = .finished → b.data = blockOf c files k) :=
    ⟨by rw [hb]; exact FetchState.noConfusion, fun _ => hd⟩
  rw [reconcile]
  split
  · have hlra : (k :: s.lraList.erase k).Perm s.lraList :=
      (perm_cons_erase (hs.lra.mem_iff.mpr (AList.mem_keys.mp hk))).symm
    obtain ⟨hinv, hmem⟩ := hs.replace
      { s.tick with
        cacheSize := s.cacheSize + block.data.length.toUInt64
        lraList := k :: s.lraList.erase k
        blockMap := s.blockMap.insert k { block with timestamp := c.nowSeconds s.ticks } }
      hk (hgood { block with timestamp := c.nowSeconds s.ticks } hstate hdata) rfl
      (List.Perm.refl _) hlra
    exact ⟨hinv, hmem, rfl, _, AList.lookup_insert _, hdata⟩
  · obtain ⟨hinv, hmem⟩ := hs.replace { s with blockMap := s.blockMap.insert k block }
      hk (hgood block hstate hdata) rfl (List.Perm.refl _) (List.Perm.refl _)
    exact ⟨hinv, hmem, rfl, _, AList.lookup_insert _, hdata⟩

section

variable (hfiles : Serves c files) (hs : Inv c files s) (hk : k ∈ s.blockMap)
include hfiles hs hk

/-- The fetcher fails, or the block has its bytes. -/
theorem fetch_spec (block : Block) : Inv c files (s.fetch c k block).2 ∧
      (∀ k', k' ∈ (s.fetch c k block).2.blockMap ↔ k' ∈ s.blockMap) ∧
      s.fetches ≤ (s.fetch c k block).2.fetches ∧
      (FetcherError c k.filename s.fetches (s.fetch c k block).2.fetches (s.fetch c k block).1 ∨
        (s.fetch c k block).1 = .ok ∧
          ∃ block', (s.fetch c k block).2.blockMap.lookup k = some block' ∧
            block'.data = blockOf c files k) := by
  rw [fetch]
  have hs' : Inv c files { s with fetches := s.fetches + 1 } := { hs with }
  split
  · rename_i hok
    obtain ⟨hinv, hmem, hfetches, hfound⟩ := reconcile_spec
      { block with
        data := (c.blockFetcher s.fetches k.filename k.pos c.blockSize).2
        state := .finished } hs' hk rfl (hfiles _ _ _ _ hok)
    exact ⟨hinv, hmem, hfetches.symm ▸ Nat.le_succ _, .inr ⟨rfl, hfound⟩⟩
  · rename_i herror
    obtain ⟨hinv, hmem⟩ := hs.replace
      { s with
        fetches := s.fetches + 1
        blockMap := s.blockMap.insert k
          { block with data := replicate c.blockSize 0, state := .error } }
      hk ⟨FetchState.noConfusion, FetchState.noConfusion⟩ rfl (List.Perm.refl _)
      (List.Perm.refl _)
    exact ⟨hinv, hmem, Nat.le_succ _, .inl ⟨herror, s.fetches, _, _, le_rfl, Nat.lt_succ_self _,
      rfl⟩⟩

/-- `MaybeFetch` fails with the fetcher's error or provides the block. -/
theorem maybeFetch_spec : ∃ status s', s.maybeFetch c k = some (status, s') ∧ Inv c files s' ∧
      (∀ k', k' ∈ s'.blockMap ↔ k' ∈ s.blockMap) ∧ s.fetches ≤ s'.fetches ∧
      (FetcherError c k.filename s.fetches s'.fetches status ∨ status = .ok ∧
        ∃ block, s'.blockMap.lookup k = some block ∧ block.data = blockOf c files k) := by
  obtain ⟨block, hblock⟩ := exists_lookup hk
  obtain ⟨hnot, hdata⟩ := hs.blocks k block hblock
  have hfetch := fetch_spec hfiles hs hk block
  rw [maybeFetch, hblock]
  dsimp only
  cases hstate : block.state with
  | fetching => exact absurd hstate hnot
  | finished =>
    exact ⟨.ok, s, rfl, hs, fun _ => Iff.rfl, le_rfl, .inr ⟨rfl, block, hblock, hdata hstate⟩⟩
  | created => exact ⟨_, _, rfl, hfetch⟩
  | error => exact ⟨_, _, rfl, hfetch⟩

end

theorem last_mem {keys : List (Key F)} (h : Key.last keys = some k) : k ∈ keys := by
  induction keys generalizing k with
  | nil => cases h
  | cons k' keys ih =>
    rw [Key.last] at h
    cases hlast : Key.last keys with
    | none =>
      rw [hlast] at h
      exact some.inj h ▸ mem_cons_self
    | some k'' =>
      simp only [hlast] at h
      split at h
      · exact some.inj h ▸ mem_cons_of_mem _ (ih hlast)
      · exact some.inj h ▸ mem_cons_self

/-- The last key that is not behind all keys of a file, if it is behind a key of the file, is a
key of the file. -/
theorem lastKey_spec {k' : Key F} (h : s.lastKey k.filename = some k') (hlt : k < k') :
    k' ∈ s.blockMap ∧ k'.filename = k.filename ∧ k.pos < k'.pos := by
  obtain ⟨hmem, hle⟩ := mem_filter.mp (last_mem h)
  have hle : ¬((⟨k.filename, 2 ^ 64 - 1⟩ : Key F) < k') := of_decide_eq_true hle
  refine ⟨AList.mem_keys.mpr hmem, ?_⟩
  rcases hlt with hlt | ⟨heq, hlt⟩
  · exact absurd (Or.inl hlt) hle
  · exact ⟨heq.symm, hlt⟩

theorem Inv.touch (hs : Inv c files s) (hk : k ∈ s.blockMap) : Inv c files (s.touch k) ∧
    (s.touch k).blockMap = s.blockMap ∧ (s.touch k).fetches = s.fetches := by
  rw [RamFileBlockCache.touch]
  split
  · exact ⟨hs, rfl, rfl⟩
  · have hmem : k ∈ s.lruList := hs.lru.mem_iff.mpr (AList.mem_keys.mp hk)
    exact ⟨⟨(perm_cons_erase hmem).symm.trans hs.lru, hs.lra, hs.blocks⟩, rfl, rfl⟩

/-- The block is refused only if it is short and a later block of its file is cached. -/
theorem updateLRU_spec (hs : Inv c files s) {block : Block}
    (hblock : s.blockMap.lookup k = some block) :
    ∃ status s', s.updateLRU c k = some (status, s') ∧ Inv c files s' ∧
      (∀ k' ∈ s'.blockMap, k' ∈ s.blockMap) ∧ s'.fetches = s.fetches ∧
      (status = .ok ∨ block.data.length < c.blockSize ∧
        ∃ k' ∈ s.blockMap, k'.filename = k.filename ∧ k.pos < k'.pos) := by
  have hk : k ∈ s.blockMap := AList.lookup_isSome.mp (by rw [hblock, isSome_some])
  obtain ⟨htouch, hmap, hfetches⟩ := hs.touch hk
  rw [updateLRU, hblock]
  dsimp only
  split
  · exact ⟨.ok, s, rfl, hs, fun _ => id, rfl, .inl rfl⟩
  split
  · rename_i hlater
    obtain ⟨k', hlast, hlt⟩ := (any_eq_true _ _).mp hlater.2
    exact ⟨_, _, rfl, htouch, fun k' hk' => hmap ▸ hk', hfetches,
      .inr ⟨hlater.1, k', lastKey_spec hlast (of_decide_eq_true hlt)⟩⟩
  · obtain ⟨s', htrim, hs', hsub, hfetches'⟩ := trimLoop_spec htouch (s.touch k).lruList.length
    rw [trim, htrim]
    exact ⟨_, s', rfl, hs', fun k' hk' => hmap ▸ hsub k' hk', hfetches'.trans hfetches, .inl rfl⟩

/-- The block at a key is returned, unless the fetcher fails or the block is taken for
inconsistent. -/
theorem fetchBlock_spec (hfiles : Serves c files) (hs : Inv c files s) (k : Key F) :
    ∃ status data s', s.fetchBlock c k = some (status, data, s') ∧ Inv c files s' ∧
      (∀ k' ∈ s'.blockMap, k' = k ∨ k' ∈ s.blockMap) ∧ s.fetches ≤ s'.fetches ∧
      (FetcherError c k.filename s.fetches s'.fetches status ∨
        status = .ok ∧ data = blockOf c files k ∨
        (blockOf c files k).length < c.blockSize ∧
          ∃ k' ∈ s.blockMap, k'.filename = k.filename ∧ k.pos < k'.pos) := by
  obtain ⟨s₁, hlookup, hs₁, hk, hsub₁, hfetches⟩ := lookup_spec hs k
  obtain ⟨status, s₂, hfetch, hs₂, hsame, hle, herror | ⟨rfl, block, hblock, hdata⟩⟩ :=
    maybeFetch_spec hfiles hs₁ hk
  · refine ⟨status, [], s₂, ?_, hs₂, fun k' hk' => hsub₁ k' ((hsame k').mp hk'),
      hfetches ▸ hle, .inl (hfetches ▸ herror)⟩
    rw [fetchBlock, hlookup]
    dsimp only
    rw [hfetch]
    exact if_pos herror.1
  · obtain ⟨status, s₃, hupdate, hs₃, hsub₃, hfetches', hstatus⟩ := updateLRU_spec hs₂ hblock
    have hsub (k' : Key F) (hk' : k' ∈ s₂.blockMap) : k' = k ∨ k' ∈ s.blockMap :=
      hsub₁ k' ((hsame k').mp hk')
    refine ⟨status, block.data, s₃, ?_, hs₃, fun k' hk' => hsub k' (hsub₃ k' hk'), by omega,
      .inr ?_⟩
    · simp [fetchBlock, hlookup, hfetch, hblock, hupdate]
    · rcases hstatus with rfl | ⟨hshort, k', hk', hfile, hlt⟩
      · exact .inl ⟨rfl, hdata⟩
      · refine .inr ⟨hdata ▸ hshort, k', (hsub k' hk').resolve_left ?_, hfile, hlt⟩
        rintro rfl
        exact absurd hlt (lt_irrefl _)

/-! ## Reads -/

/-- The read ends before the last block of the file, or the cache has no block of the file that
lies behind the blocks of the read. -/
def NoneBehind (c : Config F) (files : F → List UInt8) (s : RamFileBlockCache F) (filename : F)
    (offset n : Nat) : Prop :=
  finish c offset n ≤ lastBlock c files filename ∨ ∀ k ∈ s.blockMap.keys,
    k.filename = filename → k.pos ≤ max (start c offset) (lastBlock c files filename)

/-- Whether a block lies behind a read can be decided. -/
instance decidableNoneBehind (c : Config F) (files : F → List UInt8) (s : RamFileBlockCache F)
    (filename : F) (offset n : Nat) : Decidable (NoneBehind c files s filename offset n) :=
  inferInstanceAs (Decidable (_ ∨ _))

variable {filename : F} {offset n pos count : Nat} {buffer : List UInt8}

omit [LinearOrder F] in
/-- A short block is not taken for inconsistent. -/
theorem NoneBehind.not_later (hsize : 0 < c.blockSize)
    (hpos : Position c offset n pos (count + 1)) (h : NoneBehind c files s filename offset n)
    (hshort : (blockOf c files ⟨filename, pos⟩).length < c.blockSize) :
    ¬∃ k ∈ s.blockMap, k.filename = filename ∧ pos < k.pos := by
  rintro ⟨k, hk, hfile, hlt⟩
  rw [length_blockOf] at hshort
  dsimp only at hshort
  have hlast : lastBlock c files filename ≤ pos := lastBlock_le hsize hpos (by omega)
  have hfinish := hpos.finish_eq
  have hstart := hpos.start_le
  rw [Nat.mul_succ] at hfinish
  rcases h with h | h
  · omega
  · have hle := h k (AList.mem_keys.mp hk) hfile
    omega

/-- The loop returns what the rest of the file has. -/
theorem readLoop_spec [ToString F] (hfiles : Serves c files) (hsize : 0 < c.blockSize)
    (hn : 0 < n) (hs : Inv c files s) (hpos : Position c offset n pos count)
    (hbehind : NoneBehind c files s filename offset n)
    (hbuffer : buffer = window (files filename) offset (min pos (offset + n))) :
    ∃ result s', readLoop c filename offset n count pos buffer s = some (result, s') ∧
      Inv c files s' ∧ Transparent c files s s' filename offset n result := by
  induction count generalizing s pos buffer with
  | zero =>
    have hend : offset + n ≤ pos := by
      have hfinish := (finish_spec hsize offset n).1
      rw [← hpos.finish_eq] at hfinish
      omega
    refine ⟨_, s, rfl, hs, .inr (.inr ?_)⟩
    rw [hbuffer, min_eq_right hend]
  | succ count ih =>
    obtain ⟨status, data, s₁, hfetch, hs₁, hsub, hfetches, hstatus⟩ :=
      fetchBlock_spec hfiles hs ⟨filename, pos⟩
    have hlt := hpos.lt hsize
    rw [readLoop, hfetch]
    dsimp only
    rcases hstatus with herror | ⟨rfl, rfl⟩ | ⟨hshort, hlater⟩
    · rw [if_pos herror.1]
      exact ⟨_, s₁, rfl, hs₁, .inl herror⟩
    · have hlength := length_blockOf c files ⟨filename, pos⟩
      dsimp only at hlength
      rw [if_neg (not_not_intro rfl)]
      split
      · have hoffset := (start_spec hsize offset).2
        have hstart := hpos.start_le
        exact ⟨_, s₁, rfl, hs₁, .inr (.inl ⟨rfl, by omega, hn⟩)⟩
      · have hcopied : buffer ++ _ = _ :=
          hbuffer ▸ copied_eq (files filename) offset n pos c.blockSize hlt
        split
        · refine ⟨_, s₁, rfl, hs₁, .inr (.inr ?_)⟩
          rw [blockOf, hcopied]
          exact congrArg _ (window_congr (by omega) offset)
        · suffices hnext : NoneBehind c files s₁ filename offset n by
            obtain ⟨result, s₂, hloop, hs₂, htransparent⟩ := ih hs₁ (hpos.next hsize) hnext hcopied
            exact ⟨result, s₂, hloop, hs₂, htransparent.imp_left (·.mono hfetches)⟩
          refine hbehind.imp_right fun h k hk hfile => ?_
          rcases hsub k (AList.mem_keys.mpr hk) with rfl | hk
          · refine le_max_of_le_right (hpos.aligned.trans_le ?_)
            exact Nat.mul_le_mul_left _ (Nat.div_le_div_right (by omega))
          · exact h k (AList.mem_keys.mp hk) hfile
    · exact absurd hlater (hbehind.not_later hsize hpos hshort)

/-- A call that must not overflow, and for a read that it does not take the end of the file for
inconsistent. -/
def Regular (c : Config F) (files : F → List UInt8) (s : RamFileBlockCache F) : Move F → Prop
  | .read filename offset n =>
    offset + n + c.blockSize < 2 ^ 64 ∧ (n = 0 ∨ NoneBehind c files s filename offset n)
  | _ => True

instance decidableRegular (c : Config F) (files : F → List UInt8) (s : RamFileBlockCache F) :
    ∀ move, Decidable (Regular c files s move)
  | .read .. => inferInstanceAs (Decidable (_ ∧ _))
  | .removeFile _ | .flush | .prune => isTrue trivial

/-- A regular read is transparent. -/
theorem read_spec [ToString F] (hfiles : Serves c files) (hs : Inv c files s)
    (h : Regular c files s (.read filename offset n)) :
    ∃ result s', s.read c filename offset n = some (result, s') ∧ Inv c files s' ∧
      Transparent c files s s' filename offset n result := by
  obtain ⟨hoverflow, hbehind⟩ := h
  rw [read]
  split
  · refine ⟨_, s, rfl, hs, .inr (.inr ?_)⟩
    rw [window_eq_nil (by omega)]
  · rename_i hn
    split
    · refine ⟨_, _, rfl, { hs with }, ?_⟩
      by_cases hok : (c.blockFetcher s.fetches filename offset n).1 = .ok
      · exact .inr (.inr (Prod.ext hok (hfiles _ _ _ _ hok)))
      · exact .inl ⟨hok, s.fetches, _, _, le_rfl, Nat.lt_succ_self _, rfl⟩
    · have hsize : 0 < c.blockSize := by omega
      have hstart := start_spec hsize offset
      rw [if_neg (by omega)]
      refine readLoop_spec hfiles hsize (by omega) hs (position_start hsize offset n)
        (hbehind.resolve_left hn) ?_
      rw [window_eq_nil (by omega)]

/-- Every regular move keeps the invariant. -/
theorem step_spec [ToString F] (hfiles : Serves c files) (hs : Inv c files s) {move : Move F}
    (h : Regular c files s move) : ∃ s', s.step c move = some s' ∧ Inv c files s' := by
  cases move with
  | read filename offset n =>
    obtain ⟨result, s', hread, hs', -⟩ := read_spec hfiles hs h
    exact ⟨s', by rw [step, hread, map_some], hs'⟩
  | removeFile filename =>
    obtain ⟨s', hremove, hs', -⟩ := removeFileLocked_spec hs filename
    exact ⟨s', hremove, hs'⟩
  | flush =>
    have hnew : Inv c files (new : RamFileBlockCache F) := inv_new
    exact ⟨_, rfl, hnew.lru, hnew.lra, hnew.blocks⟩
  | prune => exact pruneLoop_spec hs.tick _ _

/-- Calls in any order return, and every read that is regular in the state it finds returns an
error of the fetcher, the end of the file or exactly the bytes of the file. -/
theorem read_transparent_of_run [ToString F] (hfiles : Serves c files) {moves : List (Move F)}
    (h : Run.Admissible (step c) (Regular c files) new moves) :
    ∃ s, Run.run (step c) new moves = some s ∧ ∀ filename offset n,
      Regular c files s (.read filename offset n) →
        ∃ result s', s.read c filename offset n = some (result, s') ∧
          Transparent c files s s' filename offset n result := by
  obtain ⟨s, hrun, hs⟩ := Run.run_total (fun _ _ hs hmove => step_spec hfiles hs hmove) inv_new h
  refine ⟨s, hrun, fun filename offset n hregular => ?_⟩
  obtain ⟨result, s', hread, -, htransparent⟩ := read_spec hfiles hs hregular
  exact ⟨result, s', hread, htransparent⟩

/-- A file of five bytes. -/
def fiveBytes (_ : String) : List UInt8 := [1, 2, 3, 4, 5]

/-- Blocks of two bytes of this file, with room for four bytes. Some calls of the fetcher
fail. -/
def twoByteBlocks (failing : List Nat) : Config String where
  blockSize := 2
  maxBytes := 4
  maxStaleness := 0
  blockFetcher m filename offset n :=
    if m ∈ failing then (.unavailable "try again", [])
    else (.ok, window (fiveBytes filename) offset (offset + n))
  nowSeconds _ := 1

theorem serves_twoByteBlocks (failing : List Nat) : Serves (twoByteBlocks failing) fiveBytes := by
  intro m filename offset n h
  rw [twoByteBlocks] at h ⊢
  dsimp only at h ⊢
  split at h
  · cases h
  · rename_i hm
    rw [if_neg hm]

/-- A read fails in the middle, and is repeated up to the end of the file. -/
theorem read_transparent_twoByteBlocks : ∃ s, Run.run (step (twoByteBlocks [1])) new
        [.read "a" 1 7, .read "a" 1 7, .removeFile "b"] = some s ∧
      ∀ filename offset n, Regular (twoByteBlocks [1]) fiveBytes s (.read filename offset n) →
        ∃ result s', s.read (twoByteBlocks [1]) filename offset n = some (result, s') ∧
          Transparent (twoByteBlocks [1]) fiveBytes s s' filename offset n result :=
  read_transparent_of_run (serves_twoByteBlocks [1]) (by decide +kernel)

/-- A read behind the end of the file leaves an empty block in the cache. The last byte of the
file cannot be read any more. -/
theorem read_inconsistent : ∃ s s' result,
    Run.run (step (twoByteBlocks [])) new [.read "a" 10 1] = some s ∧
      s.read (twoByteBlocks []) "a" 4 1 = some (result, s') ∧
      result = (.internal "Block cache contents are inconsistent.", []) ∧
      ¬Transparent (twoByteBlocks []) fiveBytes s s' "a" 4 1 result := by
  refine ⟨_, _, _, rfl, rfl, by decide +kernel, ?_⟩
  rintro (⟨-, m, offset, n, -, -, herror⟩ | ⟨-, hend, -⟩ | hok)
  · have hfetch : ((twoByteBlocks []).blockFetcher m "a" offset n).1 = .ok :=
      congrArg Prod.fst (if_neg not_mem_nil)
    exact absurd (hfetch.symm.trans herror) (by decide +kernel)
  · exact absurd hend (by decide +kernel)
  · exact absurd hok (by decide +kernel)

end RamFileBlockCache

end Tension.BlockCache
