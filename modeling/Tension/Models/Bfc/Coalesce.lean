import Mathlib.Data.List.Chain
import Tension.Models.Bfc.Heap

/-!
# Freeing

A chunk that is freed is merged with its free neighbours. No two free chunks are adjacent
before, so that its new neighbours are in use afterwards.
-/

namespace Tension.Bfc

open List Option Function

namespace BFCAllocator

variable {s s' : BFCAllocator} {chain : Nat → List ChunkHandle} {free : List ChunkHandle}
  {r : AllocationRegion} {l m : List ChunkHandle} {h p x : ChunkHandle}

/-- No two adjacent chunks are free. -/
def Coalesced (s : BFCAllocator) (l : List ChunkHandle) : Prop :=
  l.IsChain fun x y => ¬ (s.Free x ∧ s.Free y)

theorem Coalesced.congr (hc : s.Coalesced l) (hf : ∀ x ∈ l, s'.Free x ↔ s.Free x) :
    s'.Coalesced l := by
  refine List.IsChain.imp_of_mem_imp ?_ hc
  intro x y hx hy hne
  rwa [hf x hx, hf y hy]

/-- What adjacency says about a chunk and its neighbours. -/
theorem coalesced_append_cons : s.Coalesced (l ++ h :: m) ↔ s.Coalesced l ∧ s.Coalesced m ∧
      (∀ x ∈ l.getLast?, ¬ (s.Free x ∧ s.Free h)) ∧ ∀ y ∈ m.head?, ¬ (s.Free h ∧ s.Free y) := by
  rw [Coalesced, isChain_append, isChain_cons]
  simp only [head?_cons, mem_def, some.injEq, forall_eq']
  tauto

/-- All regions are coalesced. -/
def AllCoalesced (s : BFCAllocator) (chain : Nat → List ChunkHandle) : Prop :=
  ∀ r ∈ s.regionManager, s.Coalesced (chain r.ptr)

section

variable (hs : SameRegions s s')
include hs

theorem SameRegions.exists_mem (hr : r ∈ s'.regionManager) :
    ∃ r' ∈ s.regionManager, r'.ptr = r.ptr := by
  have hmem : r.ptr ∈ s'.regionManager.map AllocationRegion.ptr := mem_map_of_mem hr
  rw [hs] at hmem
  exact mem_map.mp hmem

theorem SameRegions.trans {s'' : BFCAllocator} (hs' : SameRegions s' s'') : SameRegions s s'' :=
  Eq.trans hs' hs

theorem SameRegions.symm : SameRegions s' s := Eq.symm hs

end

theorem SamePlace.trans {s'' : BFCAllocator} (hp : SamePlace s s' x) (hp' : SamePlace s' s'' x) :
    SamePlace s s'' x :=
  ⟨hp'.1.trans hp.1, hp'.2.trans hp.2⟩

/-- The other regions stay coalesced if only the chain of one changes. -/
theorem AllCoalesced.update (hc : s.AllCoalesced chain) (hs : SameRegions s s') {base : Nat}
    (hf : ∀ r ∈ s.regionManager, r.ptr ≠ base → ∀ x ∈ chain r.ptr, s'.Free x ↔ s.Free x)
    (hl : s'.Coalesced l) : s'.AllCoalesced (Function.update chain base l) := by
  intro r hr
  by_cases he : r.ptr = base
  · rw [he, update_self]
    exact hl
  · rw [update_of_ne he]
    obtain ⟨r', hr', hptr⟩ := hs.exists_mem hr
    have hold := hc r' hr'
    rw [hptr] at hold
    refine hold.congr fun x hx => ?_
    exact hf r' hr' (hptr ▸ he) x (hptr ▸ hx)

/-- Every chunk in use belongs to a region. -/
def UsedLive (s : BFCAllocator) (chain : Nat → List ChunkHandle) : Prop :=
  ∀ x, ¬ s.Free x → s.Live chain x

section

variable (hs : SameRegions s s') {l' : List ChunkHandle}
include hs

/-- The chunks of the new chain belong to a region. -/
theorem SameRegions.live_update (hr : r ∈ s.regionManager) (hx : x ∈ l') :
    s'.Live (Function.update chain r.ptr l') x := by
  obtain ⟨r', hr', hptr⟩ := hs.symm.exists_mem hr
  exact ⟨r', hr', by rwa [hptr, update_self]⟩

/-- A chunk stays in its region unless it leaves the chain that changes. -/
theorem Live.update {base : Nat} (hx : s.Live chain x) (hmem : x ∈ chain base → x ∈ l') :
    s'.Live (Function.update chain base l') x := by
  obtain ⟨r, hr, hxr⟩ := hx
  by_cases he : r.ptr = base
  · exact he ▸ hs.live_update hr (hmem (he ▸ hxr))
  · obtain ⟨r', hr', hptr⟩ := hs.symm.exists_mem hr
    exact ⟨r', hr', by rwa [hptr, update_of_ne he]⟩

/-- The chunks in use stay in their regions if only free chunks leave the chain of one region. -/
theorem UsedLive.update (hu : s.UsedLive chain) (hr : r ∈ s.regionManager)
    (hnew : ∀ x, ¬ s'.Free x → s.Free x → x ∈ l') (hmem : ∀ x ∈ chain r.ptr, ¬ s'.Free x → x ∈ l') :
    s'.UsedLive (Function.update chain r.ptr l') := by
  intro x hx
  by_cases hfree : s.Free x
  · exact hs.live_update hr (hnew x hx hfree)
  · exact (hu x hfree).update hs fun hxr => hmem x hxr hx

end

/-! ## The neighbours -/

/-- The steps that join two free chunks, one of which, `z`, has been taken out of its bin. -/
theorem Heap.joinFree {y z w : ChunkHandle} (hh : s.Heap chain free [z]) (hr : r ∈ s.regionManager)
    (hc : chain r.ptr = l ++ h :: y :: m) (hfree : s.Free h) (hyfree : s.Free y)
    (hw : [w, z].Perm [h, y]) :
    ∃ s₁ s₂, s.removeFreeChunkFromBin w = some s₁ ∧ s₁.merge h y = some s₂ ∧
      s₂.Heap (Function.update chain r.ptr (l ++ h :: m)) (y :: free) [h] ∧ SameRegions s s₂ ∧
      ∀ x, SamePlace s s₂ x := by
  have ht := hh.layout.tiled r hr
  rw [hc] at ht
  have hnodup : [h, y].Nodup := by
    refine nodup_cons.mpr ⟨fun hmem => ht.of_nodup.2.1 ?_, nodup_singleton y⟩
    rw [mem_singleton.mp hmem]
    exact mem_cons_self
  have hboth : ∀ x ∈ [h, y], s.Live chain x ∧ s.Free x := forall_mem_cons.mpr
    ⟨⟨⟨r, hr, by simp [hc]⟩, hfree⟩, forall_mem_singleton.mpr ⟨⟨r, hr, by simp [hc]⟩, hyfree⟩⟩
  obtain ⟨hlive, hwfree⟩ := hboth w (hw.subset mem_cons_self)
  obtain ⟨s₁, hremove, hb₁, hre⟩ := hh.binned.removeFreeChunkFromBin hh.layout hlive hwfree
    (nodup_cons.mp (hw.nodup_iff.mpr hnodup)).1
  have hh₁ : s₁.Heap chain free [w, z] :=
    ⟨hre.layout hh.layout, hb₁, hre.nextAllocationId ▸ hh.nextId⟩
  obtain ⟨s₂, hmerge, hh₂, hregions, hplace⟩ := hh₁.merge (hre.regionManager ▸ hr) hc hw
    ((hre.free_congr h).mpr hfree) ((hre.free_congr y).mpr hyfree)
  exact ⟨s₁, s₂, hremove, hmerge, hh₂, .trans (by rw [SameRegions, hre.regionManager]) hregions,
    fun x => (hre.samePlace x).trans (hplace x)⟩

/-- The chunk `p` has taken over `h` and those of its neighbours that are free, and `l'` and `m'`
are left around it. -/
structure Merged (s : BFCAllocator) (l : List ChunkHandle) (h : ChunkHandle)
    (m l' : List ChunkHandle) (p : ChunkHandle) (m' : List ChunkHandle) : Prop where
  free : s.Free p
  before : l' = l ∧ p = h ∧ (∀ y ∈ l.getLast?, ¬ s.Free y) ∨ l = l' ++ [p]
  after : m' = m ∧ (∀ y ∈ m.head?, ¬ s.Free y) ∨ ∃ y, m = y :: m' ∧ s.Free y

section

variable {l' m' : List ChunkHandle} (hm : s.Merged l h m l' p m')
include hm

theorem Merged.congr (hf : ∀ x, s'.Free x ↔ s.Free x) : s'.Merged l h m l' p m' where
  free := (hf p).mpr hm.free
  before := by simpa only [hf] using hm.before
  after := by simpa only [hf] using hm.after

/-- A chunk in use stays in the chain. -/
theorem Merged.mem (hx : x ∈ l ++ h :: m) (hne : x ≠ h) (hused : ¬ s.Free x) :
    x ∈ l' ++ p :: m' := by
  rcases mem_append.mp hx with hx | hx
  · rcases hm.before with ⟨rfl, -⟩ | rfl
    · simp [hx]
    · rw [append_cons]
      exact mem_append_left m' hx
  · rcases hm.after with ⟨rfl, -⟩ | ⟨y, rfl, hy⟩
    · simp [(mem_cons.mp hx).resolve_left hne]
    · rcases mem_cons.mp ((mem_cons.mp hx).resolve_left hne) with rfl | hx
      · exact absurd hy hused
      · simp [hx]

/-- The chunks around are in use if no two free ones were adjacent. -/
theorem Merged.coalesced (hc : s'.Coalesced (l ++ h :: m))
    (hf : ∀ x ∈ l ++ m, s.Free x ↔ s'.Free x) : s.Coalesced (l' ++ p :: m') := by
  obtain ⟨hcl, hcm, -, -⟩ := coalesced_append_cons.mp hc
  replace hcl : s.Coalesced l := hcl.congr fun x hx => hf x (by simp [hx])
  replace hcm : s.Coalesced m := hcm.congr fun x hx => hf x (by simp [hx])
  have hafter : s.Coalesced m' ∧ ∀ y ∈ m'.head?, ¬ s.Free y := by
    rcases hm.after with ⟨rfl, hhead⟩ | ⟨y, rfl, hy⟩
    · exact ⟨hcm, hhead⟩
    · obtain ⟨hhead, hcm⟩ := isChain_cons.mp hcm
      exact ⟨hcm, fun z hz hzfree => hhead z hz ⟨hy, hzfree⟩⟩
  have hbefore : s.Coalesced l' ∧ ∀ y ∈ l'.getLast?, ¬ s.Free y := by
    rcases hm.before with ⟨rfl, -, hlast⟩ | rfl
    · exact ⟨hcl, hlast⟩
    · obtain ⟨hcl, -, hlast, -⟩ := coalesced_append_cons.mp hcl
      exact ⟨hcl, fun z hz hzfree => hlast z hz ⟨hzfree, hm.free⟩⟩
  refine coalesced_append_cons.mpr ⟨hbefore.1, hafter.1, ?_, ?_⟩
  · exact fun x hx hboth => hbefore.2 x hx hboth.1
  · exact fun y hy hboth => hafter.2 y hy hboth.2

end

section

variable (hh : s.Heap chain free [h]) (hr : r ∈ s.regionManager) (hc : chain r.ptr = l ++ h :: m)
  (hfree : s.Free h)
include hh hr hc

/-- What the tests on the neighbours of a chunk read. -/
theorem Heap.tiled_of_mem : s.Tiled r (l ++ h :: m) ∧ (∀ x ∈ l ++ h :: m, x < s.chunks.length) ∧
    s.Heap (Function.update chain r.ptr (l ++ h :: m)) free [h] := by
  refine ⟨?_, fun x hx => hh.layout.lt_of_live ⟨r, hr, hc ▸ hx⟩, ?_⟩
  · rw [← hc]
    exact hh.layout.tiled r hr
  · rw [← hc, update_eq_self]
    exact hh

include hfree

/-- `FreeAndMaybeCoalesce` merges the next chunk if it is free. -/
theorem Heap.coalesceNext : ∃ s' free' m', s.coalesceNext h = some s' ∧
      s'.Heap (Function.update chain r.ptr (l ++ h :: m')) free' [h] ∧ SameRegions s s' ∧
      (∀ x, SamePlace s s' x) ∧
      (m' = m ∧ (∀ y ∈ m.head?, ¬ s.Free y) ∨ ∃ y, m = y :: m' ∧ s.Free y) := by
  obtain ⟨ht, hlt, hsame⟩ := hh.tiled_of_mem hr hc
  rw [BFCAllocator.coalesceNext, chunkFromHandle_eq (hlt h (by simp))]
  simp only [bind_eq_bind, bind_some, ht.next_eq]
  cases m with
  | nil =>
    refine ⟨s, free, [], rfl, hsame, rfl, fun x => ⟨rfl, rfl⟩, .inl ⟨rfl, nofun⟩⟩
  | cons y m =>
    simp only [head?_cons, chunkFromHandle_eq (hlt y (by simp)), bind_some]
    by_cases hy : s.Free y
    · obtain ⟨s₁, s₂, hremove, hmerge, hh₂, hregions, hplace⟩ :=
        hh.joinFree hr hc hfree hy (.swap h y [])
      refine ⟨s₂, y :: free, m, ?_, hh₂, hregions, hplace, .inr ⟨y, rfl, hy⟩⟩
      rw [if_neg fun hused => not_free_iff.mpr hused hy, hremove]
      exact hmerge
    · rw [if_pos (not_free_iff.mp hy)]
      refine ⟨s, free, y :: m, rfl, hsame, rfl, fun x => ⟨rfl, rfl⟩, .inl ⟨rfl, ?_⟩⟩
      rintro _ ⟨⟩
      exact hy

/-- `FreeAndMaybeCoalesce` merges into the previous chunk if it is free. -/
theorem Heap.coalescePrev : ∃ p s' free' l', s.coalescePrev h = some (p, s') ∧
      s'.Heap (Function.update chain r.ptr (l' ++ p :: m)) free' [p] ∧ SameRegions s s' ∧
      (∀ x, SamePlace s s' x) ∧ s.Free p ∧
      (l' = l ∧ p = h ∧ (∀ y ∈ l.getLast?, ¬ s.Free y) ∨ l = l' ++ [p]) := by
  obtain ⟨ht, hlt, hsame⟩ := hh.tiled_of_mem hr hc
  rw [BFCAllocator.coalescePrev, chunkFromHandle_eq (hlt h (by simp))]
  simp only [bind_eq_bind, bind_some, ht.prev_eq]
  cases hlast : l.getLast? with
  | none =>
    refine ⟨h, s, free, l, rfl, hsame, rfl, fun x => ⟨rfl, rfl⟩, hfree, .inl ⟨rfl, rfl, nofun⟩⟩
  | some p =>
    obtain ⟨l', rfl⟩ : ∃ l', l = l' ++ [p] := ⟨l.dropLast, (dropLast_append_getLast? p hlast).symm⟩
    simp only [chunkFromHandle_eq (hlt p (by simp)), bind_some]
    by_cases hp : s.Free p
    · have hc' : chain r.ptr = l' ++ p :: h :: m := by simp [hc]
      obtain ⟨s₁, s₂, hremove, hmerge, hh₂, hregions, hplace⟩ :=
        hh.joinFree hr hc' hp hfree (.refl _)
      refine ⟨p, s₂, h :: free, l', ?_, hh₂, hregions, hplace, hp, .inr rfl⟩
      rw [if_neg fun hused => not_free_iff.mpr hused hp, hremove]
      simp [hmerge]
    · rw [if_pos (not_free_iff.mp hp)]
      refine ⟨h, s, free, l' ++ [p], rfl, hsame, rfl, fun x => ⟨rfl, rfl⟩, hfree,
        .inl ⟨rfl, rfl, ?_⟩⟩
      rintro _ ⟨⟩
      exact hp

/-- A chunk that is free but in no bin is merged with its free neighbours and put in a bin. -/
theorem Heap.coalesce : ∃ p s₂ s₃ s' free' l' m', s.coalesceNext h = some s₂ ∧
    s₂.coalescePrev h = some (p, s₃) ∧ s₃.insertFreeChunkIntoBin p = some s' ∧
    s'.Heap (Function.update chain r.ptr (l' ++ p :: m')) free' [] ∧ SameRegions s s' ∧
    (∀ x, SamePlace s s' x) ∧ s.Merged l h m l' p m' := by
  obtain ⟨s₂, free₂, m', hnext, hh₂, hregions₂, hplace₂, hm⟩ := hh.coalesceNext hr hc hfree
  obtain ⟨r₂, hr₂, hptr₂⟩ := hregions₂.symm.exists_mem hr
  have hc₂ : update chain r.ptr (l ++ h :: m') r₂.ptr = l ++ h :: m' := by
    rw [hptr₂, update_self]
  obtain ⟨p, s₃, free₃, l', hprev, hh₃, hregions₃, hplace₃, hp, hl⟩ :=
    hh₂.coalescePrev hr₂ hc₂ ((hplace₂ h).free_iff.mpr hfree)
  rw [hptr₂, update_idem] at hh₃
  have hregions := hregions₂.trans hregions₃
  obtain ⟨s₄, hinsert, hb₄, hre⟩ := hh₃.binned.insertFreeChunkIntoBin hh₃.layout
    (hregions.live_update hr (by simp)) ((hplace₃ p).free_iff.mpr hp) not_mem_nil
  refine ⟨p, s₂, s₃, s₄, free₃, l', m', hnext, hprev, hinsert,
    ⟨hre.layout hh₃.layout, hb₄, hre.nextAllocationId ▸ hh₃.nextId⟩, ?_, fun x => ?_,
    (hplace₂ p).free_iff.mp hp, ?_, hm⟩
  · rw [SameRegions, hre.regionManager]
    exact hregions
  · exact ((hplace₂ x).trans (hplace₃ x)).trans (hre.samePlace x)
  · simpa only [(hplace₂ _).free_iff] using hl

end

/-! ## The whole operation -/

/-- A chunk in use starts at the address. -/
def InUseAt (s : BFCAllocator) (chain : Nat → List ChunkHandle) (p : Nat) : Prop :=
  ∃ h, s.Live chain h ∧ ¬ s.Free h ∧ (s.chunk h).ptr = p

/-- The state in which a chunk counts as free but is not yet in a bin. -/
def markFree (s : BFCAllocator) (h : ChunkHandle) : BFCAllocator :=
  { s.modifyChunk h fun c => { c with allocationId := -1 } with
    stats := { s.stats with bytesInUse := s.stats.bytesInUse - (s.chunk h).size } }

theorem chunk_markFree (hh : h < s.chunks.length) : (s.markFree h).chunk x =
      if x = h then { s.chunk h with allocationId := -1 } else s.chunk x :=
  chunk_modifyChunk hh

/-- The bins stay correct if no chunk is moved and the pending chunks count for the change. -/
theorem Heap.transfer {P P' : List ChunkHandle} (hh : s.Heap chain free P)
    (hregions : s'.regionManager = s.regionManager)
    (hlist : s'.freeChunksList = s.freeChunksList) (hlen : s'.chunks.length = s.chunks.length)
    (hbins : s'.bins = s.bins) (hid : 0 < s'.nextAllocationId)
    (hblock : ∀ x, s'.block x = s.block x) (hnum : ∀ x, (s'.chunk x).binNum = (s.chunk x).binNum)
    (hmem : ∀ x, s'.Free x ∧ x ∉ P' ↔ s.Free x ∧ x ∉ P) : s'.Heap chain free P' := by
  refine ⟨hh.layout.congr hregions hlist hlen hblock, ?_, hid⟩
  refine hh.binned.transfer hbins hnum (fun x => ?_) fun x _ => ?_
  · rw [Binnable, Binnable, Live, Live, hregions, hmem]
  · exact ⟨congrArg Block.size (hblock x), congrArg Block.start (hblock x)⟩

theorem Heap.markFree (hh : s.Heap chain free []) (hlive : s.Live chain h) (hused : ¬ s.Free h) :
    (s.markFree h).Heap chain free [h] := by
  refine hh.transfer rfl rfl length_modifyChunk rfl hh.nextId
    (fun x => chunk_modifyChunk_congr Chunk.block fun _ => rfl)
    (fun x => chunk_modifyChunk_congr Chunk.binNum fun _ => rfl) fun x => ?_
  by_cases hx : x = h
  · simp [hx, hused]
  · simp [Free, chunk_markFree (hh.layout.lt_of_live hlive), hx]

/-- `FreeAndMaybeCoalesce`. -/
theorem Heap.freeAndMaybeCoalesce (hh : s.Heap chain free []) (hcoal : s.AllCoalesced chain)
    (hlive : s.Live chain h) (hused : ¬ s.Free h) :
    ∃ s' chain' free', s.freeAndMaybeCoalesce h = some s' ∧ s'.Heap chain' free' [] ∧
      s'.AllCoalesced chain' ∧
      (∀ q, q ≠ (s.chunk h).ptr → s.InUseAt chain q → s'.InUseAt chain' q) ∧
      (s.UsedLive chain → s'.UsedLive chain') := by
  obtain ⟨r, hr, hmem⟩ := id hlive
  obtain ⟨l, m, hc⟩ := append_of_mem hmem
  have hlt := hh.layout.lt_of_live hlive
  have hchunk : ∀ x, x ≠ h → (s.markFree h).chunk x = s.chunk x := fun x hx => by
    rw [chunk_markFree hlt, if_neg hx]
  have hfree : (s.markFree h).Free h := by rw [Free, chunk_markFree hlt, if_pos rfl]
  obtain ⟨p, s₂, s₃, s', free', l', m', hnext, hprev, hinsert, hh', hregions, hplace, hmerged⟩ :=
    (hh.markFree hlive hused).coalesce hr hc hfree
  replace hregions : SameRegions s s' := hregions
  replace hmerged := hmerged.congr fun x => (hplace x).free_iff
  replace hfree : s'.Free h := (hplace h).free_iff.mpr hfree
  have hfree_iff : ∀ x, x ≠ h → (s'.Free x ↔ s.Free x) := fun x hx => by
    rw [(hplace x).free_iff, Free, hchunk x hx, Free]
  have hstay : ∀ x ∈ chain r.ptr, ¬ s'.Free x → x ∈ l' ++ p :: m' := fun x hx hxused =>
    hmerged.mem (hc ▸ hx) (fun he => hxused (he ▸ hfree)) hxused
  refine ⟨s', _, free', ?_, hh', hcoal.update hregions ?_ ?_, ?_,
    fun hu => hu.update hregions hr ?_ hstay⟩
  · have hnum : (s.chunk h).binNum = none := hh.binned.binNum_none fun hb => hused hb.2.1
    rw [BFCAllocator.freeAndMaybeCoalesce, chunkFromHandle_eq hlt]
    simp only [bind_eq_bind, bind_some, not_free_iff.mp hused, hnum]
    change ((s.markFree h).coalesceNext h).bind _ = _
    rw [hnext]
    simp [hprev, hinsert]
  · intro r' hr' hne x hx
    refine hfree_iff x ?_
    rintro rfl
    exact hne (congrArg AllocationRegion.ptr (hh.layout.eq_of_mem hr' hr hx hmem))
  · refine hmerged.coalesced (hc ▸ hcoal r hr) fun x hx => hfree_iff x ?_
    have ht := hh.layout.tiled r hr
    rw [hc] at ht
    rintro rfl
    exact (mem_append.mp hx).elim ht.of_nodup.1 ht.of_nodup.2.1
  · rintro q hq ⟨x, hx, hxused, rfl⟩
    have hxh : x ≠ h := by
      rintro rfl
      exact hq rfl
    have hxused' : ¬ s'.Free x := fun hxfree => hxused ((hfree_iff x hxh).mp hxfree)
    refine ⟨x, hx.update hregions fun hxr => hstay x hxr hxused', hxused', ?_⟩
    rw [(hplace x).1, hchunk x hxh]
  · intro x hxused hxfree
    by_cases hxh : x = h
    · exact absurd (hxh ▸ hfree) hxused
    · exact absurd ((hfree_iff x hxh).mpr hxfree) hxused

/-- A step carries over that the regions are coalesced, what is in use at which address, and that
the chunks in use belong to regions. -/
structure Carries (s : BFCAllocator) (chain : Nat → List ChunkHandle) (s' : BFCAllocator)
    (chain' : Nat → List ChunkHandle) : Prop where
  coalesced : s.AllCoalesced chain → s'.AllCoalesced chain'
  inUse : ∀ q, s.InUseAt chain q → s'.InUseAt chain' q
  usedLive : s.UsedLive chain → s'.UsedLive chain'

/-- A step that leaves every chunk in its place. -/
theorem carries_of_samePlace (hregions : s'.regionManager = s.regionManager)
    (hplace : ∀ x, SamePlace s s' x) : Carries s chain s' chain := by
  have hlive : ∀ x, s'.Live chain x ↔ s.Live chain x := fun x => by rw [Live, Live, hregions]
  refine ⟨fun hcoal r hr => ?_, ?_, fun hu x hx => ?_⟩
  · rw [hregions] at hr
    exact (hcoal r hr).congr fun x _ => (hplace x).free_iff
  · rintro q ⟨x, hx, hxused, hq⟩
    exact ⟨x, (hlive x).mpr hx, by rwa [(hplace x).free_iff], (hplace x).1.trans hq⟩
  · rw [(hplace x).free_iff] at hx
    exact (hlive x).mpr (hu x hx)

end BFCAllocator

end Tension.Bfc
