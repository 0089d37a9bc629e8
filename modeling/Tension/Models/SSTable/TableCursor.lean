import Tension.Models.SSTable.Table
import Tension.Models.SSTable.TableLayout

/-!
# A table is a cursor over its entries

The iterator of a table that was built from entries with increasing keys moves as a position in
the list of entries does, whatever calls move it. A point lookup reads one data block and hands
out the first entry whose key is not smaller, if this block has one.
-/

namespace Tension.SSTable

open Io Run List Option
open TableBuilder (build indexEntry)

/-! ## Iterators of one block -/

namespace BlockIterator

/-- What an iterator shows determines the rest of its entries. -/
theorem Shows.rest_eq {it : BlockIterator}
    {entries entries' rest rest' : List (List UInt8 × List UInt8)}
    (h : it.Shows entries rest) (h' : it.Shows entries' rest') : rest = rest' := by
  induction rest generalizing it rest' with
  | nil =>
    have hvalid := h.valid_eq.symm.trans h'.valid_eq
    cases rest' with
    | nil => rfl
    | cons e' rest' => cases hvalid
  | cons e rest ih =>
    have hvalid := h.valid_eq.symm.trans h'.valid_eq
    cases rest' with
    | nil => cases hvalid
    | cons e' rest' => rw [← h.entry_eq, ← h'.entry_eq, ih h.next h'.next]

/-- The index iterator goes to the first chunk whose separator is not smaller. -/
theorem Shows.seek_index {it : BlockIterator} {chunks : List (List UInt8 × Chunk)}
    {rest : List (List UInt8 × List UInt8)} (h : it.Shows (chunks.map indexEntry) rest)
    (hseparated : Cursor.Separated Chunk.entries chunks)
    (hne : ∀ c ∈ chunks, c.2.entries ≠ []) (target : List UInt8) :
    (it.seek target).Shows (chunks.map indexEntry)
      ((Cursor.seek chunks target).map indexEntry) := by
  have hsorted : Cursor.Increasing (chunks.map indexEntry) :=
    pairwise_map.mpr (hseparated.increasing_separators hne)
  have hmap : Cursor.seek (chunks.map indexEntry) target =
      (Cursor.seek chunks target).map indexEntry :=
    Cursor.seek_map (fun c : Chunk => c.handle.encode) chunks target
  rw [← hmap]
  exact h.seek hsorted target

end BlockIterator

/-! ## The iterator with two levels -/

namespace TwoLevelIterator

/-- The block function yields iterators over the chunks. -/
def Serves (blockFunction : List UInt8 → BlockIterator) (chunks : List (List UInt8 × Chunk)) :
    Prop :=
  ∀ c ∈ chunks, (blockFunction c.2.handle.encode).Shows c.2.entries [] ∧ c.2.entries ≠ []

/-- The index iterator is at the first chunk of `idx`, and a data iterator belongs to the handle it
was opened with. -/
structure Holds (it : TwoLevelIterator) (chunks idx : List (List UInt8 × Chunk)) : Prop where
  index : it.indexIter.Shows (chunks.map indexEntry) (idx.map indexEntry)
  suffix : idx <:+ chunks
  ownStatus : it.ownStatus = .ok
  data : ∀ d ∈ it.dataIter, ∃ c ∈ chunks, it.dataBlockHandle = c.2.handle.encode ∧
    ∃ rest, d.Shows c.2.entries rest

/-- The data iterator shows the rest of the chunk at which the index iterator is. -/
structure Within (it : TwoLevelIterator) (chunks : List (List UInt8 × Chunk))
    (c : List UInt8 × Chunk) (idx : List (List UInt8 × Chunk))
    (rest : List (List UInt8 × List UInt8)) : Prop where
  holds : it.Holds chunks (c :: idx)
  handle : it.dataBlockHandle = c.2.handle.encode
  data : ∃ d, it.dataIter = some d ∧ d.Shows c.2.entries rest

/-- The iterator between two calls: at the first entry of `rest`. -/
def At (it : TwoLevelIterator) (chunks : List (List UInt8 × Chunk))
    (rest : List (List UInt8 × List UInt8)) : Prop :=
  (rest = [] ∧ it.dataIter = none ∧ ∃ idx, it.Holds chunks idx) ∨
    ∃ c idx shown, it.Within chunks c idx shown ∧ shown ≠ [] ∧
      rest = shown ++ Cursor.entries Chunk.entries idx

variable {blockFunction : List UInt8 → BlockIterator} {chunks : List (List UInt8 × Chunk)}

variable {it : TwoLevelIterator} {idx : List (List UInt8 × Chunk)} {c : List UInt8 × Chunk}
  {rest : List (List UInt8 × List UInt8)} {fuel : Nat}

theorem Holds.status_data (h : it.Holds chunks idx) : ∀ d ∈ it.dataIter, d.status = .ok := by
  intro d hd
  obtain ⟨c, -, -, rest, hshows⟩ := h.data d hd
  exact hshows.status_eq

/-- Replacing a data iterator that reports no error keeps the status. -/
theorem setDataIterator_eq (h : ∀ d ∈ it.dataIter, d.status = .ok)
    (d : Option BlockIterator) : it.setDataIterator d = { it with dataIter := d } := by
  rw [setDataIterator]
  split
  · next old hold =>
    have hok : ¬ (it.ownStatus.code = .ok ∧ old.status.code ≠ .ok) := by
      rw [h old hold]
      simp
    rw [saveError, if_neg hok]
  · rfl

/-- `InitDataBlock` behind the last chunk. -/
theorem Holds.initDataBlock_nil (h : it.Holds chunks []) :
    (it.initDataBlock blockFunction).Holds chunks [] ∧
      (it.initDataBlock blockFunction).dataIter = none := by
  have hvalid : it.indexIter.valid = false := h.index.valid_eq
  rw [initDataBlock, hvalid, setDataIterator_eq h.status_data]
  exact ⟨{ h with data := by simp }, rfl⟩

/-- `InitDataBlock` opens the block of the chunk, or keeps it. -/
theorem Holds.initDataBlock_cons (hserves : Serves blockFunction chunks)
    (h : it.Holds chunks (c :: idx)) :
    ∃ rest, (it.initDataBlock blockFunction).Within chunks c idx rest := by
  have hmem : c ∈ chunks := h.suffix.subset mem_cons_self
  have hvalid : it.indexIter.valid = true := h.index.valid_eq
  have hvalue : it.indexIter.value = c.2.handle.encode := congrArg Prod.snd h.index.entry_eq
  rw [initDataBlock, hvalid, if_neg (by simp), hvalue]
  split
  · next hsame =>
    obtain ⟨d, hd⟩ := isSome_iff_exists.mp hsame.1
    obtain ⟨c', hmem', hhandle, rest, hshows⟩ := h.data d hd
    have hentries : c'.2.entries = c.2.entries := by
      have hopen := (hserves c' hmem').1
      rw [← hhandle, ← hsame.2] at hopen
      exact hopen.seekToFirst.rest_eq (hserves c hmem).1.seekToFirst
    rw [hentries] at hshows
    exact ⟨rest, h, hsame.2.symm, d, hd, hshows⟩
  · have hstatus : ∀ d ∈ { it with dataBlockHandle := c.2.handle.encode }.dataIter,
        d.status = .ok := h.status_data
    obtain ⟨hshows, -⟩ := hserves c hmem
    rw [setDataIterator_eq hstatus]
    refine ⟨[], { h with data := ?_ }, rfl, _, rfl, hshows⟩
    intro d hd
    cases hd
    exact ⟨c, hmem, rfl, [], hshows⟩

/-- A call for the data iterator. -/
theorem Within.onData {rest' : List (List UInt8 × List UInt8)} (h : it.Within chunks c idx rest)
    {f : BlockIterator → BlockIterator}
    (hf : ∀ d, d.Shows c.2.entries rest → (f d).Shows c.2.entries rest') :
    (it.onData f).Within chunks c idx rest' := by
  obtain ⟨hholds, hhandle, d, hd, hshows⟩ := h
  have hdata : (it.onData f).dataIter = some (f d) := by
    rw [TwoLevelIterator.onData, hd]
    rfl
  refine ⟨{ hholds with data := ?_ }, hhandle, f d, hdata, hf d hshows⟩
  intro d' hd'
  rw [hdata] at hd'
  cases hd'
  exact ⟨c, hholds.suffix.subset mem_cons_self, hhandle, rest', hf d hshows⟩

theorem Within.valid_eq (h : it.Within chunks c idx rest) : it.valid = !rest.isEmpty := by
  obtain ⟨-, -, d, hd, hshows⟩ := h
  rw [TwoLevelIterator.valid, hd, elim_some, hshows.valid_eq]

theorem Holds.initDataBlock_nil_onData (h : it.Holds chunks [])
    (blockFunction : List UInt8 → BlockIterator) (f : BlockIterator → BlockIterator) :
    ((it.initDataBlock blockFunction).onData f).Holds chunks [] ∧
      ((it.initDataBlock blockFunction).onData f).dataIter = none := by
  obtain ⟨hholds, hdata⟩ := @initDataBlock_nil blockFunction chunks it h
  have hnone : ((it.initDataBlock blockFunction).onData f).dataIter = none := by
    rw [TwoLevelIterator.onData, hdata]
    rfl
  refine ⟨{ hholds with data := ?_ }, hnone⟩
  rw [hnone]
  simp

/-- Behind the last chunk the loop stops. -/
theorem Holds.skip_nil (h : it.Holds chunks []) (hdata : it.dataIter = none) (hfuel : 0 < fuel) :
    (skipEmptyDataBlocksForward blockFunction fuel it).At chunks [] := by
  obtain ⟨fuel, rfl⟩ : ∃ k, fuel = k + 1 := ⟨fuel - 1, by omega⟩
  have hvalid : it.valid = false := by rw [TwoLevelIterator.valid, hdata]; rfl
  have hindex : it.indexIter.valid = false := h.index.valid_eq
  rw [skipEmptyDataBlocksForward, hvalid, hindex, setDataIterator_eq h.status_data]
  exact .inl ⟨rfl, rfl, [], { h with data := by simp }⟩

/-- The loop stops at an entry, at the first entry of the next chunk or behind the last one. -/
theorem Within.skip (hserves : Serves blockFunction chunks) (h : it.Within chunks c idx rest)
    (hfuel : 2 < fuel) : (skipEmptyDataBlocksForward blockFunction fuel it).At chunks
      (rest ++ Cursor.entries Chunk.entries idx) := by
  obtain ⟨fuel, rfl⟩ : ∃ k, fuel = k + 2 := ⟨fuel - 2, by omega⟩
  rw [skipEmptyDataBlocksForward, h.valid_eq]
  cases rest with
  | cons e rest => exact .inr ⟨c, idx, e :: rest, h, by simp, rfl⟩
  | nil =>
    have hindex : it.indexIter.valid = true := h.holds.index.valid_eq
    rw [if_neg (by simp), hindex, if_neg (by simp)]
    have hnext : Holds { it with indexIter := it.indexIter.next } chunks idx :=
      { h.holds with
        index := h.holds.index.next, suffix := (suffix_cons c idx).trans h.holds.suffix }
    cases idx with
    | nil =>
      obtain ⟨hholds, hdata⟩ := hnext.initDataBlock_nil_onData blockFunction
        BlockIterator.seekToFirst
      exact hholds.skip_nil hdata (by omega)
    | cons c' idx =>
      obtain ⟨rest, hwithin⟩ := hnext.initDataBlock_cons hserves
      have hfirst : (it.nextBlock blockFunction).Within chunks c' idx c'.2.entries :=
        hwithin.onData fun d hd => hd.seekToFirst
      have hne := (hserves c' (h.holds.suffix.subset (by simp))).2
      rw [skipEmptyDataBlocksForward, hfirst.valid_eq, if_pos (by simpa using hne)]
      exact .inr ⟨c', idx, _, hfirst, hne, rfl⟩

/-- The entries from a position in the first chunk on. -/
def entered (within : List (List UInt8 × List UInt8) → List (List UInt8 × List UInt8)) :
    List (List UInt8 × Chunk) → List (List UInt8 × List UInt8)
  | [] => []
  | c :: idx => within c.2.entries ++ Cursor.entries Chunk.entries idx

theorem entered_seek (h : Cursor.Separated Chunk.entries chunks) (target : List UInt8) :
    entered (fun l => Cursor.seek l target) (Cursor.seek chunks target) =
      Cursor.seek (Cursor.entries Chunk.entries chunks) target := by
  rw [Cursor.seek_entries h]
  cases Cursor.seek chunks target with
  | nil => rfl
  | cons c idx => rfl

/-- A call that moves the index iterator to a chunk and the data iterator inside of it. -/
theorem Holds.enter (hserves : Serves blockFunction chunks) (h : it.Holds chunks idx)
    (within : List (List UInt8 × List UInt8) → List (List UInt8 × List UInt8))
    {f : BlockIterator → BlockIterator}
    (hf : ∀ c ∈ idx.head?, ∀ d rest, BlockIterator.Shows d c.2.entries rest →
      (f d).Shows c.2.entries (within c.2.entries)) (hfuel : 2 < fuel) :
    (skipEmptyDataBlocksForward blockFunction fuel
      ((it.initDataBlock blockFunction).onData f)).At chunks (entered within idx) := by
  cases idx with
  | nil =>
    obtain ⟨hholds, hdata⟩ := h.initDataBlock_nil_onData blockFunction f
    exact hholds.skip_nil hdata (by omega)
  | cons c idx =>
    obtain ⟨rest, hwithin⟩ := h.initDataBlock_cons hserves
    exact (hwithin.onData fun d hd => hf c rfl d rest hd).skip hserves hfuel

theorem two_lt_blockBound (it : TwoLevelIterator) : 2 < it.blockBound := by
  rw [blockBound]
  split
  · omega
  · omega

theorem At.holds (h : it.At chunks rest) : ∃ idx, it.Holds chunks idx := by
  rcases h with ⟨-, -, hholds⟩ | ⟨c, idx, shown, hwithin, -⟩
  · exact hholds
  · exact ⟨_, hwithin.holds⟩

section

variable (hserves : Serves blockFunction chunks)
include hserves

/-- `SeekToFirst` goes to the first entry. -/
theorem At.seekToFirst (h : it.At chunks rest) :
    (it.seekToFirst blockFunction).At chunks (Cursor.entries Chunk.entries chunks) := by
  obtain ⟨idx, hholds⟩ := h.holds
  have hindex : Holds { it with indexIter := it.indexIter.seekToFirst } chunks chunks :=
    ⟨hholds.index.seekToFirst, suffix_rfl, hholds.ownStatus, hholds.data⟩
  have hat := hindex.enter hserves (fun l => l)
    (fun c _ d rest hd => hd.seekToFirst) it.two_lt_blockBound
  cases chunks with
  | nil => exact hat
  | cons c chunks => exact hat

/-- `Seek` goes to the first entry whose key is not smaller. -/
theorem At.seek (hseparated : Cursor.Separated Chunk.entries chunks)
    (hincreasing : Cursor.Increasing (Cursor.entries Chunk.entries chunks))
    (h : it.At chunks rest) (target : List UInt8) : (it.seek blockFunction target).At chunks
      (Cursor.seek (Cursor.entries Chunk.entries chunks) target) := by
  obtain ⟨idx, hholds⟩ := h.holds
  have hshows := hholds.index.seek_index hseparated (fun c hc => (hserves c hc).2) target
  have hindex : Holds { it with indexIter := it.indexIter.seek target } chunks
      (Cursor.seek chunks target) :=
    ⟨hshows, Cursor.seek_suffix chunks target, hholds.ownStatus, hholds.data⟩
  have hdata : ∀ c ∈ (Cursor.seek chunks target).head?, ∀ d rest,
      BlockIterator.Shows d c.2.entries rest →
      (d.seek target).Shows c.2.entries (Cursor.seek c.2.entries target) := by
    intro c hc d rest hd
    have hmem := (Cursor.seek_suffix chunks target).subset (mem_of_mem_head? hc)
    exact hd.seek (hincreasing.of_entries c hmem) target
  have hat := hindex.enter hserves (fun l => Cursor.seek l target) hdata it.two_lt_blockBound
  rwa [entered_seek hseparated] at hat

/-- `Next` goes to the following entry. -/
theorem At.next {e : List UInt8 × List UInt8} (h : it.At chunks (e :: rest)) :
    (it.next blockFunction).At chunks rest := by
  rcases h with ⟨hnil, -⟩ | ⟨c, idx, shown, hwithin, hne, hrest⟩
  · cases hnil
  · obtain ⟨e', shown, rfl⟩ := exists_cons_of_ne_nil hne
    obtain ⟨rfl, rfl⟩ := cons.inj hrest
    exact (hwithin.onData fun d hd => hd.next).skip hserves it.two_lt_blockBound

end

/-- What the accessors of an iterator say of a position in the list of entries. -/
def Agrees (it : TwoLevelIterator) (rest : List (List UInt8 × List UInt8)) : Prop :=
  it.valid = !rest.isEmpty ∧ (∀ e ∈ rest.head?, it.key = e.1 ∧ it.value = e.2) ∧ it.status = .ok

theorem At.agrees (h : it.At chunks rest) : it.Agrees rest := by
  obtain ⟨idx, hholds⟩ := h.holds
  have hstatus : it.status = .ok := by
    rw [TwoLevelIterator.status, hholds.index.status_eq, if_neg (by simp)]
    split
    · next d hd => rw [hholds.status_data d hd, if_neg (by simp), hholds.ownStatus]
    · exact hholds.ownStatus
  rcases h with ⟨rfl, hnone, -⟩ | ⟨c, idx', shown, hwithin, hne, rfl⟩
  · exact ⟨by rw [TwoLevelIterator.valid, hnone]; rfl, by simp, hstatus⟩
  obtain ⟨e, shown, rfl⟩ := exists_cons_of_ne_nil hne
  obtain ⟨d, hd, hshows⟩ := hwithin.data
  refine ⟨hwithin.valid_eq, ?_, hstatus⟩
  intro e' he'
  obtain rfl : e = e' := by simpa using he'
  rw [TwoLevelIterator.key, TwoLevelIterator.value, hd]
  exact Prod.mk.inj hshows.entry_eq

end TwoLevelIterator

/-! ## Opening a table -/

variable {crc : Crc} {snappy : Snappy}

namespace Table

/-- A file with the layout of a table is opened. -/
theorem openTable_of_layout {file : RandomAccessFile} {chunks : List (List UInt8 × Chunk)}
    (h : TableLayout crc snappy file.contents chunks) :
    ∃ table, openTable crc snappy file file.contents.length = .ok table ∧ table.file = file ∧
      table.indexBlock.newIterator.Shows (chunks.map indexEntry) [] := by
  obtain ⟨body, footer, raw, hbytes, h₁, h₂, h₃, h₄, hstored, hshows⟩ := h.footer
  have hlength : file.contents.length = body.length + Footer.kEncodedLength := by
    rw [hbytes, length_append, Footer.length_encode]
  have hdrop : file.contents.drop (file.contents.length - Footer.kEncodedLength) =
      footer.encode := by
    rw [hlength, Nat.add_sub_cancel, hbytes, drop_left]
  have hread : file.read (file.contents.length - Footer.kEncodedLength) Footer.kEncodedLength =
      (.ok, footer.encode) := by
    rw [RandomAccessFile.read_of_le (by rw [hdrop, Footer.length_encode]), hdrop,
      take_of_length_le (Footer.length_encode footer).le]
  refine ⟨⟨file, footer.metaindexHandle, .create raw⟩, ?_, rfl, hshows⟩
  rw [openTable, if_neg (by omega)]
  simp [hread, Footer.decodeFrom_encode h₁ h₂ h₃ h₄, hstored.readBlock]

/-- The blocks of the chunks are found by their handles. -/
theorem serves_blockReader {table : Table} {chunks : List (List UInt8 × Chunk)}
    (h : TableLayout crc snappy table.file.contents chunks) :
    TwoLevelIterator.Serves (blockReader crc snappy table) chunks := by
  intro c hc
  obtain ⟨⟨raw, hstored, hshows⟩, hne, hoffset, hsize⟩ := h.written c hc
  have hhandle := BlockHandle.decodeFrom_encode hoffset hsize []
  rw [append_nil] at hhandle
  refine ⟨?_, hne⟩
  simp only [blockReader, hhandle, hstored.readBlock]
  exact hshows

end Table

/-- The moves of a position in a list of entries. -/
def cursorStep (entries rest : List (List UInt8 × List UInt8)) :
    IterCall → Option (List (List UInt8 × List UInt8))
  | .seekToFirst => some entries
  | .seek target => some (Cursor.seek entries target)
  | .next =>
    match rest with
    | [] => none
    | _ :: rest => some rest

/-- One call moves the iterator as it moves the position. -/
theorem TwoLevelIterator.At.step {blockFunction : List UInt8 → BlockIterator}
    {chunks : List (List UInt8 × Chunk)} (hserves : Serves blockFunction chunks)
    (hseparated : Cursor.Separated Chunk.entries chunks)
    (hincreasing : Cursor.Increasing (Cursor.entries Chunk.entries chunks))
    {it : TwoLevelIterator} {rest : List (List UInt8 × List UInt8)} (h : it.At chunks rest)
    (call : IterCall) : Option.Rel (fun it rest => it.At chunks rest) (it.step blockFunction call)
      (cursorStep (Cursor.entries Chunk.entries chunks) rest call) := by
  cases call with
  | seekToFirst => exact .some (h.seekToFirst hserves)
  | seek target => exact .some (h.seek hserves hseparated hincreasing target)
  | next =>
    have hvalid := h.agrees.1
    rw [TwoLevelIterator.step, hvalid]
    cases rest with
    | nil => exact .none
    | cons e rest => exact .some (h.next hserves)

namespace Table

/-- The lookup reads the block of one chunk. -/
theorem internalGet_eq {table : Table} {chunks : List (List UInt8 × Chunk)}
    (hlayout : TableLayout crc snappy table.file.contents chunks)
    (hindex : table.indexBlock.newIterator.Shows (chunks.map indexEntry) [])
    (hincreasing : Cursor.Increasing (Cursor.entries Chunk.entries chunks)) (k : List UInt8) :
    internalGet crc snappy table k =
      (.ok, ((Cursor.seek chunks k).head?.elim [] fun c =>
        (Cursor.seek c.2.entries k).head?.toList)) := by
  have hserves := serves_blockReader hlayout
  have hshows := hindex.seek_index hlayout.separated (fun c hc => (hserves c hc).2) k
  have hsuffix := Cursor.seek_suffix chunks k
  simp only [internalGet, hshows.status_eq]
  cases hseek : Cursor.seek chunks k with
  | nil =>
    rw [hseek] at hshows
    have hvalid : (BlockIterator.seek k table.indexBlock.newIterator).valid = false :=
      hshows.valid_eq
    rw [hvalid]
    rfl
  | cons c rest =>
    rw [hseek] at hshows hsuffix
    have hmem : c ∈ chunks := hsuffix.subset mem_cons_self
    have hvalid : (BlockIterator.seek k table.indexBlock.newIterator).valid = true :=
      hshows.valid_eq
    have hvalue : (BlockIterator.seek k table.indexBlock.newIterator).value =
        c.2.handle.encode := congrArg Prod.snd hshows.entry_eq
    have hblock := (hserves c hmem).1.seek (hincreasing.of_entries c hmem) k
    rw [hvalid, hvalue, hblock.status_eq, hblock.valid_eq]
    cases hfound : Cursor.seek c.2.entries k with
    | nil => simp [hfound]
    | cons e found =>
      rw [hfound] at hblock
      have hentry := hblock.entry_eq
      simp [hfound, hentry]

/-! ## Tables that were built -/

section Built

variable (hsnappy : snappy.Lawful) (options : Options) {entries : List (List UInt8 × List UInt8)}
  (hincreasing : Cursor.Increasing entries)
  (hblocks : ∀ raw ∈ (build crc snappy options entries).rawBlocks, raw.length < 2 ^ 32)
  {file : RandomAccessFile} (hfile : file.contents = (build crc snappy options entries).file)
include hsnappy hincreasing hblocks hfile

/-- A file that was built has the layout of its entries. -/
theorem exists_layout :
    ∃ chunks, TableLayout crc snappy file.contents chunks ∧
      Cursor.entries Chunk.entries chunks = entries ∧
      (build crc snappy options entries).dataBlock.checked = true ∧
      (build crc snappy options entries).indexBlock.checked = true := by
  have hlength := file.length_lt
  rw [hfile] at hlength ⊢
  exact TableBuilder.build_layout hsnappy options hincreasing ⟨by omega, hblocks⟩

/-- A table that was built from entries with increasing keys and whose blocks are smaller than
2^32 bytes is opened, and its iterator is a cursor over the entries: every sequence of calls is
allowed for the one if it is for the other, and leaves both at the same place. -/
theorem build_cursor :
    (build crc snappy options entries).dataBlock.checked = true ∧
      (build crc snappy options entries).indexBlock.checked = true ∧
      ∃ table, openTable crc snappy file file.contents.length = .ok table ∧
        ∀ calls, Option.Rel TwoLevelIterator.Agrees
          (run (TwoLevelIterator.step (blockReader crc snappy table)) table.newIterator calls)
          (run (cursorStep entries) [] calls) := by
  obtain ⟨chunks, hlayout, rfl, hdata, hindex⟩ :=
    exists_layout hsnappy options hincreasing hblocks hfile
  obtain ⟨table, hopen, rfl, hshows⟩ := openTable_of_layout hlayout
  refine ⟨hdata, hindex, table, hopen, fun calls => ?_⟩
  have hserves := serves_blockReader hlayout
  have hstart : table.newIterator.At chunks [] :=
    .inl ⟨rfl, rfl, [], hshows, nil_suffix, rfl, by simp [newIterator, TwoLevelIterator.create]⟩
  have hrun := run_rel (R := fun it rest => TwoLevelIterator.At it chunks rest)
    (fun it rest call hit => hit.step hserves hlayout.separated hincreasing call) hstart calls
  generalize run (TwoLevelIterator.step (blockReader crc snappy table)) table.newIterator calls = x,
    run (cursorStep (Cursor.entries Chunk.entries chunks)) [] calls = y at hrun ⊢
  cases hrun with
  | some hat => exact .some hat.agrees
  | none => exact .none

/-- A table that was built from entries with increasing keys and whose blocks are smaller than
2^32 bytes answers every lookup with OK. A key that was added is handed to the saver once with its
value; for any other key the saver is not called, or called once with the smallest larger key. -/
theorem build_internalGet :
    ∃ table, openTable crc snappy file file.contents.length = .ok table ∧
      ∀ k, (internalGet crc snappy table k).1 = .ok ∧
        (∀ v, (k, v) ∈ entries → (internalGet crc snappy table k).2 = [(k, v)]) ∧
        ((∀ v, (k, v) ∉ entries) →
          (internalGet crc snappy table k).2 = [] ∨
            ∃ e ∈ entries, (internalGet crc snappy table k).2 = [e] ∧ k < e.1 ∧
              ∀ e' ∈ entries, k < e'.1 → e.1 ≤ e'.1) := by
  obtain ⟨chunks, hlayout, rfl, -⟩ := exists_layout hsnappy options hincreasing hblocks hfile
  obtain ⟨table, hopen, rfl, hshows⟩ := openTable_of_layout hlayout
  refine ⟨table, hopen, fun k => ?_⟩
  obtain ⟨found, hfound, ⟨tail, hprefix⟩, hnonempty⟩ :=
    Cursor.seek_chunk hlayout.separated hincreasing k
  rw [internalGet_eq hlayout hshows hincreasing k, hfound]
  refine ⟨rfl, ?_, ?_⟩
  · intro v hv
    obtain ⟨e, found, rfl⟩ := exists_cons_of_ne_nil (hnonempty (k, v) hv rfl)
    obtain ⟨rest, hrest⟩ := Cursor.seek_eq_cons_of_mem hincreasing hv
    rw [← hprefix] at hrest
    rw [(cons.inj hrest).1]
    rfl
  · intro hnot
    cases found with
    | nil => exact .inl rfl
    | cons e found =>
      have hseek := hprefix.symm
      have hmem : e ∈ Cursor.entries Chunk.entries chunks :=
        (Cursor.seek_suffix _ k).subset (by rw [hseek]; exact mem_cons_self)
      have hne : k ≠ e.1 := by
        rintro rfl
        exact hnot e.2 hmem
      refine .inr ⟨e, hmem, rfl, lt_of_le_of_ne (Cursor.le_of_seek_eq_cons hseek) hne, ?_⟩
      intro e' he' hlt
      exact Cursor.le_of_mem_of_seek_eq_cons hincreasing hseek he' hlt.le

end Built

/-- A `Snappy` that is not supported. -/
def noSnappy : Snappy := ⟨fun _ => none, fun _ => none, fun _ => none⟩

/-- Three entries, of which each data block holds at most two. -/
def threeEntries : List (List UInt8 × List UInt8) :=
  [([0x61], [1]), ([0x61, 0x62], []), ([0x64], [2, 3])]

/-- The table of the three entries. -/
def threeEntryTable : TableBuilder :=
  .build Crc.reference noSnappy ⟨20, 2, .snappyCompression⟩ threeEntries

/-- The file of the three entries. -/
def threeEntryFile : RandomAccessFile where
  contents := threeEntryTable.file
  eofMessage := "EOF"
  length_lt := by decide +kernel

/-- Calls on the iterator of a table of three entries. -/
theorem build_cursor_threeEntries :
    ∃ table, openTable Crc.reference noSnappy threeEntryFile threeEntryFile.contents.length =
        .ok table ∧
      Option.Rel TwoLevelIterator.Agrees
        (run (TwoLevelIterator.step (blockReader Crc.reference noSnappy table)) table.newIterator
          [.seek [0x61, 0x61], .next, .next])
        (some []) := by
  have hsnappy : noSnappy.Lawful := fun raw c h => by cases h
  obtain ⟨-, -, table, hopen, hcalls⟩ := @build_cursor Crc.reference noSnappy hsnappy
    ⟨20, 2, .snappyCompression⟩ threeEntries (by unfold Cursor.Increasing; decide)
    (by decide +kernel) threeEntryFile rfl
  exact ⟨table, hopen, hcalls [.seek [0x61, 0x61], .next, .next]⟩

/-- A lookup in the table of three entries. -/
theorem build_internalGet_threeEntries :
    ∃ table, openTable Crc.reference noSnappy threeEntryFile threeEntryFile.contents.length =
        .ok table ∧
      (internalGet Crc.reference noSnappy table [0x61, 0x62]) = (.ok, [([0x61, 0x62], [])]) := by
  have hsnappy : noSnappy.Lawful := fun raw c h => by cases h
  obtain ⟨table, hopen, hget⟩ := @build_internalGet Crc.reference noSnappy hsnappy
    ⟨20, 2, .snappyCompression⟩ threeEntries (by unfold Cursor.Increasing; decide)
    (by decide +kernel) threeEntryFile rfl
  obtain ⟨hstatus, hadded, -⟩ := hget [0x61, 0x62]
  exact ⟨table, hopen, Prod.ext hstatus (hadded [] (by decide))⟩

end Table

end Tension.SSTable
