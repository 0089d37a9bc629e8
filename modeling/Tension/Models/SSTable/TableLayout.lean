import Tension.Models.SSTable.BlockCursor
import Tension.Models.SSTable.TableBuilder

/-!
# The layout of a finished table

While entries are added, the file holds data blocks whose index entries are in the index block, one
data block whose index entry is still missing, and the builder holds the entries of the block that
is being filled. The separators divide the keys of successive blocks. When the table is finished,
the footer leads to an index block that leads to all data blocks.
-/

namespace Tension.SSTable

open Io List

/-! ## What a builder has written -/

/-- A data block that was written: its handle and its entries. -/
structure Chunk where
  /-- Where the block is. -/
  handle : BlockHandle
  /-- The entries of the block. -/
  entries : List (List UInt8 × List UInt8)

/-- The block of a chunk is in the file and is a cursor over its entries. -/
structure Chunk.Written (crc : Crc) (snappy : Snappy) (bytes : List UInt8) (c : Chunk) : Prop where
  stored : ∃ raw, Stored crc snappy bytes c.handle raw ∧
    (Block.create raw).newIterator.Shows c.entries []
  nonempty : c.entries ≠ []
  offset_lt : c.handle.offset < 2 ^ 64
  size_lt : c.handle.size < 2 ^ 64

theorem Chunk.Written.append {crc : Crc} {snappy : Snappy} {bytes : List UInt8} {c : Chunk}
    (h : c.Written crc snappy bytes) (more : List UInt8) :
    c.Written crc snappy (bytes ++ more) := by
  obtain ⟨⟨raw, hstored, hshows⟩, hne, hoffset, hsize⟩ := h
  exact ⟨⟨raw, hstored.append more, hshows⟩, hne, hoffset, hsize⟩

namespace TableBuilder

variable {crc : Crc} {snappy : Snappy}

/-- The index entry of a chunk. -/
def indexEntry (c : List UInt8 × Chunk) : List UInt8 × List UInt8 := (c.1, c.2.handle.encode)

/-- The file is small enough for 64-bit offsets and its blocks for 32-bit ones. -/
def Small (b : TableBuilder) : Prop :=
  b.file.length < 2 ^ 64 ∧ ∀ raw ∈ b.rawBlocks, raw.length < 2 ^ 32

/-- The parts of the table: chunks with an index entry, a chunk that waits for one, and the
entries of the data block. -/
structure Holds (crc : Crc) (snappy : Snappy) (b : TableBuilder)
    (chunks : List (List UInt8 × Chunk)) (pending : Option Chunk)
    (cur : List (List UInt8 × List UInt8)) : Prop where
  small : b.Small
  offset : b.offset = b.file.length
  data : b.dataBlock.Built cur
  index : b.indexBlock.Built (chunks.map indexEntry)
  written : ∀ c ∈ chunks, c.2.Written crc snappy b.file
  separated : Cursor.Separated Chunk.entries chunks
  later : ∀ c ∈ chunks, ∀ e ∈ (pending.elim [] Chunk.entries) ++ cur, c.1 < e.1
  pending_eq : b.pendingIndexEntry = pending.isSome
  waits : ∀ c ∈ pending, c.Written crc snappy b.file ∧ b.pendingHandle = c.handle ∧ cur = []

/-- The entries of the parts. -/
def contents (chunks : List (List UInt8 × Chunk)) (pending : Option Chunk)
    (cur : List (List UInt8 × List UInt8)) : List (List UInt8 × List UInt8) :=
  Cursor.entries Chunk.entries chunks ++ (pending.elim [] Chunk.entries ++ cur)

/-- A builder with its entries, between two calls. -/
structure Added (crc : Crc) (snappy : Snappy) (b : TableBuilder)
    (entries : List (List UInt8 × List UInt8)) : Prop where
  parts : ∃ chunks pending cur, b.Holds crc snappy chunks pending cur ∧
    entries = contents chunks pending cur ∧
    (chunks ≠ [] → pending.elim [] Chunk.entries ++ cur ≠ [])
  increasing : Cursor.Increasing entries
  last : ∀ e ∈ entries.getLast?, b.lastKey = e.1
  count : b.numEntries = entries.length

/-- Writing a block stores it. -/
theorem stored_writeBlock (hsnappy : snappy.Lawful) (b : TableBuilder) (raw : List UInt8)
    (hoffset : b.offset = b.file.length) :
    Stored crc snappy (writeBlock crc snappy b raw).2.file (writeBlock crc snappy b raw).1 raw := by
  refine ⟨b.file, (compressBlock snappy b.options.compression raw).1,
    (compressBlock snappy b.options.compression raw).2, [], ?_, ?_,
    uncompressBlock_compressBlock hsnappy _ raw⟩
  · rw [append_nil]
    rfl
  · rw [← hoffset]
    rfl

/-- A builder that has written at least what another one has. -/
def Extends (b b' : TableBuilder) : Prop :=
  (∃ more, b'.file = b.file ++ more) ∧ ∀ raw ∈ b.rawBlocks, raw ∈ b'.rawBlocks

theorem Extends.refl (b : TableBuilder) : b.Extends b := ⟨⟨[], by simp⟩, fun _ h => h⟩

theorem Extends.trans {b₁ b₂ b₃ : TableBuilder} (h : b₁.Extends b₂) (h' : b₂.Extends b₃) :
    b₁.Extends b₃ := by
  obtain ⟨⟨more, hfile⟩, hraw⟩ := h
  obtain ⟨⟨more', hfile'⟩, hraw'⟩ := h'
  exact ⟨⟨more ++ more', by rw [hfile', hfile, append_assoc]⟩,
    fun raw hmem => hraw' raw (hraw raw hmem)⟩

variable {b : TableBuilder} {raw : List UInt8} {chunks : List (List UInt8 × Chunk)}
  {pending : Option Chunk} {cur : List (List UInt8 × List UInt8)} {key : List UInt8}
  {entries : List (List UInt8 × List UInt8)}

theorem Small.of_extends {b' : TableBuilder} (h : b'.Small) (hext : b.Extends b') : b.Small := by
  obtain ⟨⟨more, hfile⟩, hraw⟩ := hext
  obtain ⟨hlength, hblocks⟩ := h
  rw [hfile, length_append] at hlength
  exact ⟨by omega, fun raw hmem => hblocks raw (hraw raw hmem)⟩

section

variable (b : TableBuilder)

theorem extends_writeBlock (raw : List UInt8) : b.Extends (writeBlock crc snappy b raw).2 :=
  ⟨⟨_, rfl⟩, fun _ h => mem_cons_of_mem _ h⟩

theorem extends_flush : b.Extends (flush crc snappy b) := by
  rw [flush]
  split
  · exact .refl b
  · exact @extends_writeBlock crc snappy b b.dataBlock.finish.1

theorem flushBefore_eq_or (key value : List UInt8) :
    flushBefore crc snappy b key value = flush crc snappy b ∨
      flushBefore crc snappy b key value = b := by
  rw [flushBefore]
  split
  · exact .inl rfl
  · exact .inr rfl

theorem flushAfter_eq_or :
    flushAfter crc snappy b = flush crc snappy b ∨ flushAfter crc snappy b = b := by
  rw [flushAfter]
  split
  · exact .inl rfl
  · exact .inr rfl

theorem extends_flushBefore (key value : List UInt8) :
    b.Extends (flushBefore crc snappy b key value) := by
  rcases @flushBefore_eq_or crc snappy b key value with h | h
  · rw [h]
    exact extends_flush b
  · rw [h]
    exact .refl b

theorem extends_addPendingEntry (key : List UInt8) : b.Extends (b.addPendingEntry key) := by
  rw [addPendingEntry]
  split
  · exact .refl b
  · exact .refl b

theorem extends_addLastEntry : b.Extends b.addLastEntry := by
  rw [addLastEntry]
  split
  · exact .refl b
  · exact .refl b

theorem extends_flushAfter : b.Extends (flushAfter crc snappy b) := by
  rcases @flushAfter_eq_or crc snappy b with h | h
  · rw [h]
    exact extends_flush b
  · rw [h]
    exact .refl b

end

theorem extends_add (b : TableBuilder) (key value : List UInt8) :
    b.Extends (add crc snappy b key value) :=
  ((extends_flushBefore b key value).trans (extends_addPendingEntry _ key)).trans
    (extends_flushAfter (addEntry _ key value))

section

variable (hoffset : b.offset = b.file.length)
  (hsmall : (writeBlock crc snappy b raw).2.file.length < 2 ^ 64)
include hoffset hsmall

theorem offset_writeBlock :
    (writeBlock crc snappy b raw).2.offset = (writeBlock crc snappy b raw).2.file.length := by
  have hlength : (writeBlock crc snappy b raw).2.file.length = b.file.length +
      ((compressBlock snappy b.options.compression raw).1.length + kBlockTrailerSize) := by
    simp [writeBlock, writeRawBlock]
  have hnext : (writeBlock crc snappy b raw).2.offset = (b.offset +
      ((compressBlock snappy b.options.compression raw).1.length + kBlockTrailerSize)) % 2 ^ 64 :=
    rfl
  rw [hnext, hoffset, ← hlength, Nat.mod_eq_of_lt hsmall]

/-- The handle of a block that was written. -/
theorem handle_writeBlock_lt : (writeBlock crc snappy b raw).1.offset < 2 ^ 64 ∧
      (writeBlock crc snappy b raw).1.size < 2 ^ 64 := by
  have hlength : (writeBlock crc snappy b raw).2.file.length = b.file.length +
      ((compressBlock snappy b.options.compression raw).1.length + kBlockTrailerSize) := by
    simp [writeBlock, writeRawBlock]
  have hhandle : (writeBlock crc snappy b raw).1 =
      ⟨b.offset, (compressBlock snappy b.options.compression raw).1.length⟩ := rfl
  rw [hhandle]
  simp only
  omega

end

section

variable (hsnappy : snappy.Lawful) (hb : b.Holds crc snappy chunks pending cur)
include hsnappy hb

/-- `Flush` moves the entries of the data block to a chunk that waits for its index entry. -/
theorem Holds.flush (hsmall : (flush crc snappy b).Small) :
    ∃ pending', (flush crc snappy b).Holds crc snappy chunks pending' [] ∧
      pending'.elim [] Chunk.entries = pending.elim [] Chunk.entries ++ cur ∧
      (flush crc snappy b).lastKey = b.lastKey ∧
      (flush crc snappy b).numEntries = b.numEntries := by
  have hempty := hb.data.isEmpty_eq
  rw [TableBuilder.flush, hempty] at hsmall ⊢
  cases cur with
  | nil => exact ⟨pending, hb, by simp, rfl, rfl⟩
  | cons e cur =>
    have hpending : pending = none := by
      cases pending with
      | none => rfl
      | some c => cases (hb.waits c rfl).2.2
    subst hpending
    have hraw : b.dataBlock.finish.1.length < 2 ^ 32 := hsmall.2 _ mem_cons_self
    obtain ⟨hchecked, hshows⟩ := hb.data.finish hraw
    obtain ⟨more, hmore⟩ := (@extends_writeBlock crc snappy b b.dataBlock.finish.1).1
    obtain ⟨hoffset, hsize⟩ := @handle_writeBlock_lt crc snappy b b.dataBlock.finish.1 hb.offset
      hsmall.1
    refine ⟨some ⟨(writeBlock crc snappy b b.dataBlock.finish.1).1, e :: cur⟩, ?_, rfl, rfl, rfl⟩
    refine ⟨hsmall, offset_writeBlock hb.offset hsmall.1, BlockBuilder.built_reset hchecked,
      hb.index, ?_, hb.separated, ?_, rfl, ?_⟩
    · intro c hc
      have hwritten := (hb.written c hc).append more
      rwa [← hmore] at hwritten
    · intro c hc e' he'
      exact hb.later c hc e' (by simpa using he')
    · intro c hc
      cases hc
      exact ⟨⟨⟨_, stored_writeBlock hsnappy b _ hb.offset, hshows⟩, by simp, hoffset, hsize⟩, rfl,
        rfl⟩

/-- The data block is flushed or not. -/
theorem Holds.flush_or {b' : TableBuilder} (hb' : b' = TableBuilder.flush crc snappy b ∨ b' = b)
    (hsmall : b'.Small) : ∃ pending' cur', b'.Holds crc snappy chunks pending' cur' ∧
      pending'.elim [] Chunk.entries ++ cur' = pending.elim [] Chunk.entries ++ cur ∧
      b'.lastKey = b.lastKey ∧ b'.numEntries = b.numEntries := by
  rcases hb' with rfl | rfl
  · obtain ⟨pending', hholds, hsame, hlast, hnum⟩ := hb.flush hsnappy hsmall
    exact ⟨pending', [], hholds, by rw [append_nil, hsame], hlast, hnum⟩
  · exact ⟨pending, cur, hb, rfl, rfl, rfl⟩

end

/-- The entry of a waiting chunk is added to the index. -/
theorem Holds.addIndexEntry {c : Chunk} (hb : b.Holds crc snappy chunks (some c) cur)
    {separator : List UInt8} (hsep : ∀ e ∈ c.entries, e.1 ≤ separator) :
    (b.addIndexEntry separator).Holds crc snappy (chunks ++ [(separator, c)]) none [] := by
  obtain ⟨hsmall, hoffset, hdata, hindex, hwritten, hseparated, hlater, -, hwaits⟩ := hb
  obtain ⟨hc, hhandle, rfl⟩ := hwaits c rfl
  refine ⟨hsmall, hoffset, hdata, ?_, ?_, ⟨?_, ?_⟩, by simp, rfl, by simp⟩
  · rw [map_append, map_singleton, indexEntry, ← hhandle]
    exact hindex.add separator b.pendingHandle.encode
  · exact forall_mem_append.mpr ⟨hwritten, forall_mem_singleton.mpr hc⟩
  · intro c' hc' e he
    rcases mem_append.mp hc' with hold | hnew
    · exact hseparated.1 c' hold e he
    · rw [mem_singleton.mp hnew] at he ⊢
      exact hsep e he
  · rw [pairwise_append]
    refine ⟨hseparated.2, pairwise_singleton _ _, ?_⟩
    intro c' hc' c'' hc'' e he
    rw [mem_singleton.mp hc''] at he
    exact hlater c' hc' e (mem_append_left _ he)

theorem contents_addIndexEntry (chunks : List (List UInt8 × Chunk)) (separator : List UInt8)
    (c : Chunk) : contents (chunks ++ [(separator, c)]) none [] = contents chunks (some c) [] := by
  simp [contents, Cursor.entries]

/-- An entry is added to the data block. -/
theorem Holds.addEntry (hb : b.Holds crc snappy chunks none cur) (hkey : ∀ c ∈ chunks, c.1 < key)
    (value : List UInt8) :
    (b.addEntry key value).Holds crc snappy chunks none (cur ++ [(key, value)]) := by
  obtain ⟨hsmall, hoffset, hdata, hindex, hwritten, hseparated, hlater, hpending, -⟩ := hb
  refine ⟨hsmall, hoffset, hdata.add key value, hindex, hwritten, hseparated, ?_, hpending, by simp⟩
  intro c hc e he
  rcases mem_append.mp he with hnil | hmem
  · cases hnil
  · rcases mem_append.mp hmem with hold | hnew
    · exact hlater c hc e (mem_append_right _ hold)
    · rw [mem_singleton.mp hnew]
      exact hkey c hc

section

variable (hsnappy : snappy.Lawful) (hb : b.Added crc snappy entries)
  (hkey : ∀ e ∈ entries, e.1 < key)
include hsnappy hb hkey

/-- Before an entry is added, no chunk waits and every separator is smaller than its key. -/
theorem Added.prepare (value : List UInt8) (hsmall : (flushBefore crc snappy b key value).Small) :
    ∃ chunks cur,
      ((flushBefore crc snappy b key value).addPendingEntry key).Holds crc snappy chunks none cur ∧
      contents chunks none cur = entries ∧ (∀ c ∈ chunks, c.1 < key) ∧
      ((flushBefore crc snappy b key value).addPendingEntry key).numEntries = b.numEntries := by
  obtain ⟨⟨chunks, pending, cur, hholds, hentries, htail⟩, hincreasing, hlast, hcount⟩ := hb
  obtain ⟨pending', cur', hholds', hsame, hlastKey, hnum⟩ := hholds.flush_or hsnappy
    (flushBefore_eq_or b key value) hsmall
  generalize flushBefore crc snappy b key value = b' at *
  have hentries' : entries = contents chunks pending' cur' := by
    rw [hentries, contents, contents, hsame]
  have hbelow : ∀ c ∈ chunks, c.1 < key := by
    intro c hc
    obtain ⟨e, he⟩ := exists_mem_of_ne_nil _ (htail (ne_nil_of_mem hc))
    have hmem : e ∈ entries := by
      rw [hentries]
      exact mem_append_right _ he
    exact (hholds.later c hc e he).trans (hkey e hmem)
  cases pending' with
  | none =>
    have hskip : b'.addPendingEntry key = b' := by
      rw [addPendingEntry, hholds'.pending_eq]
      rfl
    rw [hskip]
    exact ⟨chunks, cur', hholds', hentries'.symm, hbelow, hnum⟩
  | some c =>
    obtain ⟨hwritten, -, rfl⟩ := hholds'.waits c rfl
    have hmem : ∀ e ∈ c.entries, e ∈ entries := by
      intro e he
      rw [hentries']
      exact mem_append_right _ (mem_append_left _ he)
    obtain ⟨e, he⟩ := exists_mem_of_ne_nil _ hwritten.nonempty
    obtain ⟨z, hz⟩ : ∃ z, entries.getLast? = some z :=
      ⟨_, getLast?_eq_some_getLast (ne_nil_of_mem (hmem e he))⟩
    have hlt : b'.lastKey < key := by
      rw [hlastKey, hlast z hz]
      exact hkey z (mem_of_getLast? hz)
    obtain ⟨hle, hsep⟩ := findShortestSeparator_spec hlt
    have hadd : b'.addPendingEntry key =
        b'.addIndexEntry (findShortestSeparator b'.lastKey key) := by
      rw [addPendingEntry, hholds'.pending_eq]
      rfl
    rw [hadd]
    refine ⟨_, [], hholds'.addIndexEntry fun e he => ?_, ?_, ?_, hnum⟩
    · refine le_trans ?_ hle
      rw [hlastKey, hlast z hz]
      exact hincreasing.le_of_getLast? (hmem e he) hz
    · rw [contents_addIndexEntry, hentries']
    · exact forall_mem_append.mpr ⟨hbelow, forall_mem_singleton.mpr hsep⟩

/-- `Add` adds an entry with a larger key. -/
theorem Added.add (value : List UInt8) (hsmall : (add crc snappy b key value).Small) :
    (add crc snappy b key value).Added crc snappy (entries ++ [(key, value)]) := by
  rw [TableBuilder.add] at hsmall ⊢
  have hsmall₁ := hsmall.of_extends (extends_flushAfter _)
  have hsmall₀ : (flushBefore crc snappy b key value).Small :=
    Small.of_extends hsmall₁ (extends_addPendingEntry _ key)
  obtain ⟨chunks, cur, hholds, hcontents, hbelow, hnum⟩ := hb.prepare hsnappy hkey value hsmall₀
  have hentry := hholds.addEntry hbelow value
  obtain ⟨pending', cur', hholds', hsame, hlastKey, hnum'⟩ := hentry.flush_or hsnappy
    (flushAfter_eq_or _) hsmall
  refine ⟨⟨chunks, pending', cur', hholds', ?_, ?_⟩, ?_, ?_, ?_⟩
  · rw [contents, hsame, ← hcontents, contents]
    simp
  · rw [hsame]
    simp
  · refine pairwise_append.mpr ⟨hb.increasing, pairwise_singleton _ _, ?_⟩
    intro e he e' he'
    rw [mem_singleton.mp he']
    exact hkey e he
  · intro e he
    rw [getLast?_concat] at he
    rw [hlastKey, ← Option.some.inj he]
    rfl
  · rw [hnum', length_append, ← hb.count, ← hnum]
    rfl

end

theorem added_create (options : Options) : (create options).Added crc snappy [] := by
  refine ⟨⟨[], none, [], ?_, rfl, by simp⟩, List.Pairwise.nil, by simp, rfl⟩
  exact ⟨⟨by simp [create], by simp [create]⟩, rfl, BlockBuilder.built_create _,
    BlockBuilder.built_create _, by simp, ⟨by simp, List.Pairwise.nil⟩, by simp, rfl, by simp⟩

/-- Entries with increasing keys are added one after another. -/
theorem added_addAll (hsnappy : snappy.Lawful) (options : Options)
    (hincreasing : Cursor.Increasing entries)
    (hsmall : (addAll crc snappy (create options) entries).Small) :
    (addAll crc snappy (create options) entries).Added crc snappy entries := by
  induction entries using reverseRecOn with
  | nil => exact added_create options
  | append_singleton entries e ih =>
    have hstep : addAll crc snappy (create options) (entries ++ [e]) =
        add crc snappy (addAll crc snappy (create options) entries) e.1 e.2 := by
      rw [addAll, foldl_append]
      rfl
    rw [hstep] at hsmall ⊢
    obtain ⟨hfirst, -, hlast⟩ := pairwise_append.mp hincreasing
    exact (ih hfirst (hsmall.of_extends (extends_add _ _ _))).add hsnappy
      (fun e' he' => hlast e' he' e mem_cons_self) e.2 hsmall

/-! ## The finished table -/

/-- Writing another block keeps the parts. -/
theorem Holds.writeBlock (hb : b.Holds crc snappy chunks pending cur)
    (hsmall : (writeBlock crc snappy b raw).2.Small) :
    (writeBlock crc snappy b raw).2.Holds crc snappy chunks pending cur := by
  obtain ⟨more, hmore⟩ := (@extends_writeBlock crc snappy b raw).1
  refine { hb with
    small := hsmall, offset := offset_writeBlock hb.offset hsmall.1, written := ?_, waits := ?_ }
  · intro c hc
    rw [hmore]
    exact (hb.written c hc).append more
  · intro c hc
    obtain ⟨hwritten, hhandle, hcur⟩ := hb.waits c hc
    rw [hmore]
    exact ⟨hwritten.append more, hhandle, hcur⟩

/-- After the last index entry no chunk waits. -/
theorem Holds.addLastEntry (hb : b.Holds crc snappy chunks pending [])
    (hlast : ∀ e ∈ pending.elim [] Chunk.entries, e.1 ≤ b.lastKey) :
    ∃ chunks', b.addLastEntry.Holds crc snappy chunks' none [] ∧
      contents chunks' none [] = contents chunks pending [] := by
  rw [TableBuilder.addLastEntry, hb.pending_eq]
  cases pending with
  | none => exact ⟨chunks, hb, rfl⟩
  | some c =>
    exact ⟨_, hb.addIndexEntry fun e he => (hlast e he).trans (le_findShortSuccessor b.lastKey),
      contents_addIndexEntry chunks _ c⟩

end TableBuilder

/-- The bytes of a finished table: the footer leads to the index block, which has an entry for
every chunk. -/
structure TableLayout (crc : Crc) (snappy : Snappy) (bytes : List UInt8)
    (chunks : List (List UInt8 × Chunk)) : Prop where
  footer : ∃ body footer raw, bytes = body ++ Footer.encode footer ∧
    footer.metaindexHandle.offset < 2 ^ 64 ∧ footer.metaindexHandle.size < 2 ^ 64 ∧
    footer.indexHandle.offset < 2 ^ 64 ∧ footer.indexHandle.size < 2 ^ 64 ∧
    Stored crc snappy bytes footer.indexHandle raw ∧
    (Block.create raw).newIterator.Shows (chunks.map TableBuilder.indexEntry) []
  written : ∀ c ∈ chunks, c.2.Written crc snappy bytes
  separated : Cursor.Separated Chunk.entries chunks

namespace TableBuilder

variable {crc : Crc} {snappy : Snappy}

variable (hsnappy : snappy.Lawful)
include hsnappy

/-- The index block and the footer complete the layout. -/
theorem Holds.writeIndex {b : TableBuilder} {chunks : List (List UInt8 × Chunk)}
    (hb : b.Holds crc snappy chunks none []) {metaindex : BlockHandle}
    (hoffset : metaindex.offset < 2 ^ 64) (hsize : metaindex.size < 2 ^ 64)
    (hsmall : (writeFooter (writeIndex crc snappy b).2
      ⟨metaindex, (writeIndex crc snappy b).1⟩).Small) :
    TableLayout crc snappy (writeFooter (writeIndex crc snappy b).2
        ⟨metaindex, (writeIndex crc snappy b).1⟩).file chunks ∧
      (writeIndex crc snappy b).2.indexBlock.checked = true := by
  have hsmall' : (TableBuilder.writeBlock crc snappy b b.indexBlock.finish.1).2.Small :=
    hsmall.of_extends ⟨⟨_, rfl⟩, fun _ h => h⟩
  have hraw : b.indexBlock.finish.1.length < 2 ^ 32 := hsmall'.2 _ mem_cons_self
  obtain ⟨hchecked, hshows⟩ := hb.index.finish hraw
  obtain ⟨hoffset', hsize'⟩ := @handle_writeBlock_lt crc snappy b b.indexBlock.finish.1 hb.offset
    hsmall'.1
  have hholds := hb.writeBlock hsmall'
  refine ⟨⟨⟨_, _, _, rfl, hoffset, hsize, hoffset', hsize', ?_, hshows⟩, ?_, hb.separated⟩,
    hchecked⟩
  · exact (stored_writeBlock hsnappy b _ hb.offset).append _
  · intro c hc
    exact (hholds.written c hc).append _

/-- `Finish` completes the layout of the entries that were added. -/
theorem added_finish {b : TableBuilder} {entries : List (List UInt8 × List UInt8)}
    (hsmall : (finish crc snappy b).Small) (hadded : b.Small → b.Added crc snappy entries) :
    ∃ chunks, TableLayout crc snappy (finish crc snappy b).file chunks ∧
      Cursor.entries Chunk.entries chunks = entries ∧
      (finish crc snappy b).dataBlock.checked = true ∧
      (finish crc snappy b).indexBlock.checked = true := by
  obtain ⟨b₁, hb₁⟩ : ∃ b₁, b₁ = { flush crc snappy b with closed := true } := ⟨_, rfl⟩
  have hfinish : finish crc snappy b =
      writeFooter (writeIndex crc snappy (writeMetaindex crc snappy b₁).2.addLastEntry).2
        ⟨(writeMetaindex crc snappy b₁).1,
          (writeIndex crc snappy (writeMetaindex crc snappy b₁).2.addLastEntry).1⟩ := by
    rw [hb₁]
    rfl
  rw [hfinish] at hsmall ⊢
  have hsmall₂ : (writeMetaindex crc snappy b₁).2.addLastEntry.Small :=
    hsmall.of_extends ((extends_writeBlock _ _).trans ⟨⟨_, rfl⟩, fun _ h => h⟩)
  have hsmall₁ : (writeMetaindex crc snappy b₁).2.Small :=
    hsmall₂.of_extends (extends_addLastEntry _)
  have hsmall₀ : b₁.Small := hsmall₁.of_extends (extends_writeBlock _ _)
  have hflush : (flush crc snappy b).Small := by rwa [hb₁] at hsmall₀
  obtain ⟨⟨chunks, pending, cur, hholds, hentries, -⟩, hincreasing, hlast, -⟩ :=
    hadded (hflush.of_extends (extends_flush b))
  obtain ⟨pending', hholds', hsame, hlastKey, -⟩ := hholds.flush hsnappy hflush
  have hholds₁ : b₁.Holds crc snappy chunks pending' [] := by
    rw [hb₁]
    exact ⟨hholds'.1, hholds'.2, hholds'.3, hholds'.4, hholds'.5, hholds'.6, hholds'.7, hholds'.8,
      hholds'.9⟩
  have hentries' : entries = contents chunks pending' [] := by
    rw [hentries, contents, contents, hsame, append_nil]
  have hkeys : ∀ e ∈ pending'.elim [] Chunk.entries,
      e.1 ≤ (writeMetaindex crc snappy b₁).2.lastKey := by
    intro e he
    have hmem : e ∈ entries := by
      rw [hentries']
      exact mem_append_right _ (mem_append_left _ he)
    obtain ⟨z, hz⟩ : ∃ z, entries.getLast? = some z :=
      ⟨_, getLast?_eq_some_getLast (ne_nil_of_mem hmem)⟩
    have hkey : (writeMetaindex crc snappy b₁).2.lastKey = z.1 := by
      rw [← hlast z hz, ← hlastKey, hb₁]
      rfl
    rw [hkey]
    exact hincreasing.le_of_getLast? hmem hz
  obtain ⟨chunks', hholds₂, hcontents⟩ := (hholds₁.writeBlock hsmall₁).addLastEntry hkeys
  obtain ⟨hoffset, hsize⟩ := handle_writeBlock_lt hholds₁.offset hsmall₁.1
  obtain ⟨hlayout, hchecked⟩ := hholds₂.writeIndex hsnappy hoffset hsize hsmall
  refine ⟨chunks', hlayout, ?_, hholds₂.data.checked_of_nil, hchecked⟩
  rw [hentries', ← hcontents, contents]
  simp

/-- A finished table has the layout for its entries, and no `CHECK` has failed. -/
theorem build_layout (options : Options) {entries : List (List UInt8 × List UInt8)}
    (hincreasing : Cursor.Increasing entries) (hsmall : (build crc snappy options entries).Small) :
    ∃ chunks, TableLayout crc snappy (build crc snappy options entries).file chunks ∧
      Cursor.entries Chunk.entries chunks = entries ∧
      (build crc snappy options entries).dataBlock.checked = true ∧
      (build crc snappy options entries).indexBlock.checked = true := by
  rw [build] at hsmall ⊢
  obtain ⟨b, hb⟩ : ∃ b, b = addAll crc snappy (create options) entries := ⟨_, rfl⟩
  rw [← hb] at hsmall ⊢
  exact added_finish hsnappy hsmall fun hsmall₀ => hb ▸ added_addAll hsnappy options hincreasing
    (hb ▸ hsmall₀)

end TableBuilder

end Tension.SSTable
