import Tension.Models.Bfc.Accounting

/-!
# Allocating

A free chunk that is large enough is taken out of its bin, cut if it is much larger than
needed, and marked as in use. If there is none, a new region is added as one free chunk.
-/

namespace Tension.Bfc

open List Option Function

theorem roundedBytes_dvd (n : Nat) : 256 ∣ roundedBytes n := Nat.dvd_mul_right 256 _

theorem le_roundedBytes {n : Nat} (hn : n + 255 < 2 ^ 64) : n ≤ roundedBytes n := by
  rw [roundedBytes, kMinAllocationSize_eq, toSizeT_of_lt (by omega)]
  omega

namespace BFCAllocator

variable {s s' : BFCAllocator} {chain : Nat → List ChunkHandle} {free : List ChunkHandle}
  {r : AllocationRegion} {l m : List ChunkHandle} {h n x : ChunkHandle} {k numBytes : Nat}

/-! ## Marking -/

theorem chunk_markInUse (hh : h < s.chunks.length) :
    (s.markInUse h numBytes).chunk x = if x = h then
      { s.chunk h with requestedSize := numBytes, allocationId := s.nextAllocationId }
      else s.chunk x :=
  chunk_modifyChunk hh

/-- A chunk that is handed out stays out of the bins. -/
theorem Heap.markInUse (numBytes : Nat) (hh : s.Heap chain free [h]) (hlive : s.Live chain h) :
    (s.markInUse h numBytes).Heap chain free [] ∧ ¬ (s.markInUse h numBytes).Free h := by
  have hlt := hh.layout.lt_of_live hlive
  have hid := hh.nextId
  have hused : ¬ (s.markInUse h numBytes).Free h := by
    rw [Free, chunk_markInUse hlt, if_pos rfl]
    dsimp only
    omega
  refine ⟨hh.transfer rfl rfl length_modifyChunk rfl (Int.lt_add_one_of_le hid.le)
    (fun x => chunk_modifyChunk_congr Chunk.block fun _ => rfl)
    (fun x => chunk_modifyChunk_congr Chunk.binNum fun _ => rfl) fun x => ?_, hused⟩
  by_cases hx : x = h
  · simp [hx, hused]
  · simp [Free, chunk_markInUse hlt, hx]

/-! ## Finding a chunk -/

/-- What the search finds is in a bin and large enough. -/
theorem findFit_some {binNum b : Nat} (hf : s.findFit binNum k = some (b, h)) :
    h ∈ s.bins b ∧ k ≤ (s.chunk h).size := by
  obtain ⟨b', -, hb⟩ := exists_of_findSome?_eq_some hf
  obtain ⟨h', hfind, he⟩ := map_eq_some_iff.mp hb
  cases he
  exact ⟨mem_of_find?_eq_some hfind, by simpa using find?_some hfind⟩

/-- A chunk is split only if something remains. -/
theorem lt_of_splits {size : Nat} (hs : splits size k = true) (hk : 0 < k) (hle : k ≤ size)
    (hsize : size ≤ 2 ^ 39) : k < size := by
  have hpos : 0 < kMaxInternalFragmentation := by decide
  simp only [splits, Bool.or_eq_true, decide_eq_true_eq] at hs
  rw [toSizeT_of_lt (by omega), subSizeT_of_le hle (by omega)] at hs
  omega

theorem Coalesced.mono (hc : s.Coalesced l) (hf : ∀ x ∈ l, s'.Free x → s.Free x) :
    s'.Coalesced l := by
  refine List.IsChain.imp_of_mem_imp ?_ hc
  intro x y hx hy hne hboth
  exact hne ⟨hf x hx hboth.1, hf y hy hboth.2⟩

/-- The rest of a chunk that is handed out has a next chunk that is in use. -/
theorem coalesced_of_split (hc : s.Coalesced (l ++ h :: m)) (hfree : s.Free h)
    (hf : ∀ x ∈ l ++ m, s'.Free x ↔ s.Free x) (hused : ¬ s'.Free h) :
    s'.Coalesced (l ++ h :: n :: m) := by
  obtain ⟨hcl, hcm, -, hhead⟩ := coalesced_append_cons.mp hc
  refine coalesced_append_cons.mpr ⟨?_, ?_, fun x _ hboth => hused hboth.2,
    fun y _ hboth => hused hboth.1⟩
  · exact hcl.congr fun x hx => hf x (by simp [hx])
  · refine isChain_cons.mpr ⟨fun y hy hboth => ?_, ?_⟩
    · have hym : y ∈ m := mem_of_head? hy
      exact hhead y hy ⟨hfree, (hf y (by simp [hym])).mp hboth.2⟩
    · exact hcm.congr fun x hx => hf x (by simp [hx])

/-- What an allocation leaves: the chunks in use stay where they are. -/
structure Allocated (s : BFCAllocator) (chain : Nat → List ChunkHandle) (s' : BFCAllocator)
    (chain' : Nat → List ChunkHandle) (free' : List ChunkHandle) : Prop where
  heap : s'.Heap chain' free' []
  coalesced : s'.AllCoalesced chain'
  inUse : ∀ q, s.InUseAt chain q → s'.InUseAt chain' q

/-- What an allocation leaves, that the chunks in use still belong to regions, and that the
statistics still count them. -/
structure Kept (s : BFCAllocator) (chain : Nat → List ChunkHandle) (s' : BFCAllocator)
    (chain' : Nat → List ChunkHandle) (free' : List ChunkHandle) : Prop extends
    Allocated s chain s' chain' free' where
  usedLive : s.UsedLive chain → s'.UsedLive chain'
  accounted : s.UsedLive chain → s.Accounted → s'.Accounted

theorem Kept.trans {s'' : BFCAllocator} {chain' chain'' : Nat → List ChunkHandle}
    {free' free'' : List ChunkHandle} (hk : Kept s chain s' chain' free')
    (hk' : Kept s' chain' s'' chain'' free'') : Kept s chain s'' chain'' free'' :=
  ⟨⟨hk'.heap, hk'.coalesced, fun q hq => hk'.inUse q (hk.inUse q hq)⟩,
    fun hu => hk'.usedLive (hk.usedLive hu),
    fun hu ha => hk'.accounted (hk.usedLive hu) (hk.accounted hu ha)⟩

/-- The chunk is in use, at the address and with the size. -/
structure HandedOut (s : BFCAllocator) (chain : Nat → List ChunkHandle) (h : ChunkHandle)
    (p size : Nat) : Prop where
  live : s.Live chain h
  used : ¬ s.Free h
  ptr_eq : (s.chunk h).ptr = p
  size_eq : (s.chunk h).size = size

section

variable (numBytes : Nat) (hh : s.Heap chain free [h]) (hcoal : s.AllCoalesced chain)
  (hlive : s.Live chain h) (hfree : s.Free h)
include hh hcoal hlive hfree

/-- The chunk is marked as in use as it is. -/
theorem Heap.takeWhole : Kept s chain (s.markInUse h numBytes) chain free ∧
      (s.markInUse h numBytes).HandedOut chain h (s.chunk h).ptr (s.chunk h).size := by
  have hlt := hh.layout.lt_of_live hlive
  obtain ⟨hh', hused⟩ := hh.markInUse numBytes hlive
  have hchunk : ∀ x, x ≠ h → (s.markInUse h numBytes).chunk x = s.chunk x := fun x hx => by
    rw [chunk_markInUse hlt, if_neg hx]
  refine ⟨⟨⟨hh', fun r hr => (hcoal r hr).mono fun x _ hx => ?_, ?_⟩, fun hu x hx => ?_,
    fun _ ha => ha.markInUse hlt hfree hh.nextId numBytes⟩, hlive, hused, ?_, ?_⟩
  · by_cases he : x = h
    · subst he
      exact hfree
    · rwa [Free, hchunk x he] at hx
  · rintro q ⟨x, hxlive, hxused, hq⟩
    have he : x ≠ h := by
      rintro rfl
      exact hxused hfree
    exact ⟨x, hxlive, by rwa [Free, hchunk x he], by rwa [hchunk x he]⟩
  · by_cases he : x = h
    · exact he ▸ hlive
    · rw [Free, hchunk x he] at hx
      exact hu x hx
  · rw [chunk_markInUse hlt, if_pos rfl]
  · rw [chunk_markInUse hlt, if_pos rfl]

/-- The chunk is cut before its beginning is marked as in use. -/
theorem Heap.takeSplit (hk : 0 < k) (hlt : k < (s.chunk h).size) (hdvd : 256 ∣ k) :
    ∃ s' chain' free', s.splitChunk h k = some s' ∧ (s'.chunk h).ptr = (s.chunk h).ptr ∧
      Kept s chain (s'.markInUse h numBytes) chain' free' ∧
      (s'.markInUse h numBytes).HandedOut chain' h (s.chunk h).ptr k := by
  obtain ⟨r, hr, hmem⟩ := hlive
  obtain ⟨l, m, hc⟩ := append_of_mem hmem
  obtain ⟨n, s₁, free₁, hsplit, hh₁, hregions, hndead, hnfree, hplace, hsize⟩ :=
    hh.splitChunk hr hc hfree hk hlt hdvd
  have hne : ∀ x, s.Live chain x → x ≠ n := by
    rintro x hx rfl
    exact hndead hx
  have hhn := hne h ⟨r, hr, hmem⟩
  have hlive₁ : s₁.Live (update chain r.ptr (l ++ h :: n :: m)) h :=
    hregions.live_update hr (by simp)
  have hltlen := hh₁.layout.lt_of_live hlive₁
  obtain ⟨hh₂, hused⟩ := hh₁.markInUse numBytes hlive₁
  have hchunk : ∀ x, x ≠ h → (s₁.markInUse h numBytes).chunk x = s₁.chunk x := fun x hx => by
    rw [chunk_markInUse hltlen, if_neg hx]
  have hfree₂ : ∀ x, x ≠ n → x ≠ h → ((s₁.markInUse h numBytes).Free x ↔ s.Free x) := by
    intro x hxn hxh
    rw [Free, hchunk x hxh]
    exact (hplace x hxn).free_iff
  have ht := hh.layout.tiled r hr
  rw [hc] at ht
  obtain ⟨hhl, hhm, -⟩ := ht.of_nodup
  have hcold := hcoal r hr
  rw [hc] at hcold
  have hregions₂ : SameRegions s (s₁.markInUse h numBytes) := hregions
  have hstay : ∀ x ∈ chain r.ptr, x ∈ l ++ h :: n :: m := by
    intro x hx
    simp only [hc, mem_append, mem_cons] at hx ⊢
    tauto
  refine ⟨s₁, _, free₁, hsplit, (hplace h hhn).1, ⟨⟨hh₂, hcoal.update hregions₂ ?_ ?_, ?_⟩,
    fun hu => hu.update hregions₂ hr ?_ fun x hx _ => hstay x hx, fun hu ha => ?_⟩, hlive₁, hused,
    ?_, ?_⟩
  · intro r' hr' hptr x hx
    refine hfree₂ x (hne x ⟨r', hr', hx⟩) ?_
    rintro rfl
    exact hptr (congrArg AllocationRegion.ptr (hh.layout.eq_of_mem hr' hr hx hmem))
  · refine coalesced_of_split hcold hfree (fun x hx => hfree₂ x (hne x ⟨r, hr, ?_⟩) ?_) hused
    · rw [hc]
      exact (sublist_cons_self h m).append_left l |>.subset hx
    · rintro rfl
      exact (mem_append.mp hx).elim hhl hhm
  · rintro q ⟨x, hx, hxused, hq⟩
    have hxh : x ≠ h := by
      rintro rfl
      exact hxused hfree
    refine ⟨x, hx.update hregions₂ (hstay x), by rwa [hfree₂ x (hne x hx) hxh], ?_⟩
    rw [hchunk x hxh, (hplace x (hne x hx)).1, hq]
  · intro x hxused hxfree
    by_cases hxh : x = h
    · simp [hxh]
    · by_cases hxn : x = n
      · simp [hxn]
      · exact absurd ((hfree₂ x hxn hxh).mpr hxfree) hxused
  · exact (ha.congr (congrArg Prod.fst (record_splitChunk (hh.spareFree hu) hsplit))).markInUse
      hltlen
      ((hplace h hhn).free_iff.mpr hfree) hh₁.nextId numBytes
  · rw [chunk_markInUse hltlen, if_pos rfl]
    exact (hplace h hhn).1
  · rw [chunk_markInUse hltlen, if_pos rfl]
    exact hsize

end

/-- The size of a chunk of `size` bytes after a request of `k` bytes has taken it. -/
def takenSize (size k : Nat) : Nat := if splits size k then k else size

theorem le_takenSize {size : Nat} (hle : k ≤ size) : k ≤ takenSize size k := by
  rw [takenSize]
  split
  · exact le_rfl
  · exact hle

/-- `FindChunkPtr`. -/
theorem Heap.findChunkPtr (hh : s.Heap chain free []) (hcoal : s.AllCoalesced chain)
    (hk : 0 < k) (hdvd : 256 ∣ k) (binNum numBytes : Nat) :
    ∃ ptr s' chain' free', s.findChunkPtr binNum k numBytes = some (ptr, s') ∧
      Kept s chain s' chain' free' ∧
      (∀ b h, s.findFit binNum k = some (b, h) → ptr = some (s.chunk h).ptr ∧
        s'.HandedOut chain' h (s.chunk h).ptr (takenSize (s.chunk h).size k)) ∧
      (s.findFit binNum k = none → ptr = none ∧ s' = s ∧ chain' = chain ∧ free' = free) := by
  rw [BFCAllocator.findChunkPtr]
  cases hfit : s.findFit binNum k with
  | none =>
    exact ⟨none, s, chain, free, rfl, ⟨⟨hh, hcoal, fun _ hq => hq⟩, fun hu => hu,
      fun _ ha => ha⟩, by simp, fun _ => ⟨rfl, rfl, rfl, rfl⟩⟩
  | some p =>
    obtain ⟨b, h⟩ := p
    obtain ⟨hmem, hle⟩ := findFit_some hfit
    obtain ⟨hlive, hfree, -⟩ := (hh.binned.mem_iff b h).mp hmem
    obtain ⟨s₁, hremove, hb₁, hre⟩ := hh.binned.removeFreeChunkIterFromBin hh.layout hmem
    have hh₁ : s₁.Heap chain free [h] :=
      ⟨hre.layout hh.layout, hb₁, hre.nextAllocationId ▸ hh.nextId⟩
    have hcarries : Carries s chain s₁ chain := carries_of_samePlace hre.regionManager hre.samePlace
    have hcoal₁ := hcarries.coalesced hcoal
    have hlive₁ : s₁.Live chain h := (hre.live_congr h).mpr hlive
    have hfree₁ : s₁.Free h := (hre.free_congr h).mpr hfree
    have hptr₁ : (s₁.chunk h).ptr = (s.chunk h).ptr := (hre.samePlace h).1
    have haccounted : s.Accounted → s₁.Accounted := fun ha =>
      ha.congr (congrArg Prod.fst (record_removeFreeChunkIterFromBin hremove))
    have hlift : ∀ {s₂ chain' free'}, Kept s₁ chain s₂ chain' free' →
        Kept s chain s₂ chain' free' := fun hkept =>
      ⟨⟨hkept.heap, hkept.coalesced, fun q hq => hkept.inUse q (hcarries.inUse q hq)⟩,
        fun hu => hkept.usedLive (hcarries.usedLive hu),
        fun hu ha => hkept.accounted (hcarries.usedLive hu) (haccounted ha)⟩
    simp only [hremove, bind_eq_bind, bind_some]
    by_cases hs : splits (s₁.chunk h).size k = true
    · obtain ⟨r, hr, hr'⟩ := hlive₁
      have hrange := ((hh₁.layout.tiled r hr).mem_range hr')
      have hsize := (hh₁.layout.sized r hr).le
      rw [AllocationRegion.endPtr] at hrange
      rw [← hre.size] at hle
      have hlt := lt_of_splits hs hk hle (by omega)
      obtain ⟨s₂, chain', free', hsplit, hptr, hkept, hout⟩ :=
        hh₁.takeSplit numBytes hcoal₁ ⟨r, hr, hr'⟩ hfree₁ hk hlt hdvd
      refine ⟨some (s₂.chunk h).ptr, s₂.markInUse h numBytes, chain', free', ?_, hlift hkept, ?_,
        by simp⟩
      · rw [if_pos hs, hsplit]
        rfl
      · rintro b' h' ⟨⟩
        rw [hptr, hptr₁, takenSize, ← hre.size, if_pos hs]
        rw [hptr₁] at hout
        exact ⟨rfl, hout⟩
    · obtain ⟨hkept, hout⟩ := hh₁.takeWhole numBytes hcoal₁ hlive₁ hfree₁
      refine ⟨some (s₁.chunk h).ptr, s₁.markInUse h numBytes, chain, free, ?_, hlift hkept, ?_,
        by simp⟩
      · rw [if_neg hs]
      · rintro b' h' ⟨⟩
        rw [hptr₁, takenSize, ← hre.size, if_neg hs]
        rw [hptr₁] at hout
        exact ⟨rfl, hout⟩

/-! ## New regions -/

variable {p bytes bytes' : Nat}

section

variable (hl : s.Layout chain free (some n)) (hf : RegionManager.Fresh s.regionManager p bytes)
  (hs : (AllocationRegion.create p bytes).Sized)
include hl

theorem Layout.chunk_withRegion_of_ne (hx : x ≠ n) : (s.withRegion n p bytes).chunk x = s.chunk x :=
  (chunk_withRegion ((hl.valid n).mpr (.inl rfl))).trans (if_neg hx)

theorem Layout.free_withRegion : (s.withRegion n p bytes).Free n := by
  rw [Free, chunk_withRegion ((hl.valid n).mpr (.inl rfl)), if_pos rfl]

include hf hs

/-- The chunk of a new region is in no bin yet. -/
theorem Binned.withRegion (hb : s.Binned chain []) :
    (s.withRegion n p bytes).Binned (update chain p [n]) [n] := by
  have hdead := (hl.spare_dead n rfl).2
  refine hb.transfer rfl (fun x => chunk_modifyChunk_congr Chunk.binNum fun _ => rfl) (fun x => ?_)
    fun x hx => ?_
  · rw [Binnable, Binnable, hl.live_withRegion hf hs]
    by_cases hx : x = n
    · subst hx
      simp [hdead]
    · rw [Free, hl.chunk_withRegion_of_ne hx, Free]
      simp [hx]
  · rw [hl.chunk_withRegion_of_ne fun he => hdead (he ▸ hx.1)]
    exact ⟨rfl, rfl⟩

/-- A new region leaves the chunks of the other regions in their places. -/
theorem Layout.carries_withRegion :
    Carries s chain (s.withRegion n p bytes) (update chain p [n]) := by
  have hfree : ∀ x, x ≠ n → ((s.withRegion n p bytes).Free x ↔ s.Free x) := fun x hx => by
    rw [Free, hl.chunk_withRegion_of_ne hx, Free]
  have hne : ∀ x, s.Live chain x → x ≠ n := by
    rintro x hx rfl
    exact (hl.spare_dead x rfl).2 hx
  refine ⟨fun hcoal r hr => ?_, ?_, fun hu x hx => ?_⟩
  · rcases (hl.mem_withRegion hf hs).mp hr with rfl | hmem
    · rw [AllocationRegion.write_ptr, AllocationRegion.create, update_self]
      exact isChain_singleton _
    · rw [update_of_ne (hl.ptr_ne_of_fresh hf hs hmem)]
      exact (hcoal r hmem).congr fun x hx => hfree x (hne x ⟨r, hmem, hx⟩)
  · rintro q ⟨x, hx, hxused, hq⟩
    refine ⟨x, (hl.live_withRegion hf hs).mpr (.inr hx), by rwa [hfree x (hne x hx)], ?_⟩
    rw [hl.chunk_withRegion_of_ne (hne x hx), hq]
  · rw [hl.live_withRegion hf hs]
    by_cases hxn : x = n
    · exact .inl hxn
    · exact .inr (hu x (by rwa [hfree x hxn] at hx))

/-- `Extend` puts the chunk of a new region in its bin. -/
theorem Layout.addRegion_eq {s₀ : BFCAllocator} (halloc : s₀.allocateChunk = some (n, s))
    (hregions : s.regionManager = s₀.regionManager) :
    s₀.addRegion p bytes = (s.withRegion n p bytes).insertFreeChunkIntoBin n := by
  have hord := hl.ordered.addAllocationRegion hl.sized hf
  have hsized : ∀ r ∈ RegionManager.addAllocationRegion p bytes s.regionManager, r.Sized := by
    intro r hr
    rcases RegionManager.mem_addAllocationRegion.mp hr with rfl | hr
    · exact hs
    · exact hl.sized r hr
  have hset := hord.setHandle_eq (p := p) (v := some n) hsized
    (RegionManager.mem_addAllocationRegion.mpr (.inl rfl)) le_rfl (Nat.lt_add_of_pos_right hs.pos)
  rw [show (p - (AllocationRegion.create p bytes).ptr) / 256 = 0 by
    simp [AllocationRegion.create], hregions] at hset
  rw [BFCAllocator.addRegion, allocateChunk_withRegions, halloc]
  simp only [bind_eq_bind, map_some, bind_some, modifyChunk, hset]
  rw [BFCAllocator.withRegion, hregions]
  rfl

end

/-- A new region becomes one free chunk. -/
theorem Heap.addRegion (hh : s.Heap chain free []) (hcoal : s.AllCoalesced chain)
    (hf : RegionManager.Fresh s.regionManager p bytes)
    (hs : (AllocationRegion.create p bytes).Sized) :
    ∃ s' chain' free', s.addRegion p bytes = some s' ∧ Kept s chain s' chain' free' := by
  obtain ⟨n, s₁, free₁, halloc, hl₁, hb₁, hsame⟩ := hh.allocateChunk
  have hcarries₁ : Carries s chain s₁ chain := carries_of_samePlace hsame.regionManager fun x => by
    rw [SamePlace, hsame.chunk]
    exact ⟨rfl, rfl⟩
  rw [← hsame.regionManager] at hf
  have hl₂ := hl₁.withRegion hf hs
  have hcarries₂ := hl₁.carries_withRegion hf hs
  obtain ⟨s₃, hinsert, hb₃, hre⟩ := (hb₁.withRegion hl₁ hf hs).insertFreeChunkIntoBin hl₂
    ((hl₁.live_withRegion hf hs).mpr (.inl rfl)) hl₁.free_withRegion not_mem_nil
  have hcarries₃ : Carries (s₁.withRegion n p bytes) (update chain p [n]) s₃ (update chain p [n]) :=
    carries_of_samePlace hre.regionManager hre.samePlace
  have hadd := (hl₁.addRegion_eq hf hs halloc hsame.regionManager).trans hinsert
  have hnext : 0 < s₃.nextAllocationId := by
    rw [hre.nextAllocationId]
    exact hsame.nextAllocationId ▸ hh.nextId
  exact ⟨s₃, _, free₁, hadd, ⟨⟨hre.layout hl₂, hb₃, hnext⟩,
    hcarries₃.coalesced (hcarries₂.coalesced (hcarries₁.coalesced hcoal)),
    fun q hq => hcarries₃.inUse q (hcarries₂.inUse q (hcarries₁.inUse q hq))⟩,
    fun hu => hcarries₃.usedLive (hcarries₂.usedLive (hcarries₁.usedLive hu)),
    fun hu ha => ha.congr (congrArg Prod.fst (record_addRegion (hh.spareFree hu) hadd))⟩

/-! ## Growing -/

theorem le_of_growRegion {fuel curr curr' : Nat} {b b' : Bool}
    (hg : growRegion k fuel curr b = some (curr', b')) : k ≤ curr' := by
  fun_induction growRegion k fuel curr b with
  | case1 => cases hg
  | case2 _ _ hlt =>
    cases hg
    exact not_lt.mp hlt
  | case3 _ _ _ _ ih => exact ih hg
  | case4 _ _ _ hlt =>
    cases hg
    exact not_lt.mp hlt

variable {scale : Nat → Nat} {answers : List (Option Nat)}

theorem le_of_backpedal {memAddr : Nat}
    (hb : backpedal scale k answers bytes = some (bytes', some memAddr)) : k ≤ bytes' := by
  fun_induction backpedal scale k answers bytes with
  | case1 => simp at hb
  | case2 => cases hb
  | case3 _ _ hlt => exact (Prod.mk.inj (some.inj hb)).1 ▸ not_lt.mp hlt
  | case4 _ _ _ _ ih => exact ih hb

/-- A region is large enough for the request. -/
theorem le_of_requestRegion {q : Request} (havail : k ≤ s.availableBytes)
    (hq : s.requestRegion scale k answers = some q) (hp : q.memAddr = some p) : k ≤ q.bytes := by
  rw [requestRegion, bind_eq_bind, bind_eq_some_iff] at hq
  obtain ⟨⟨curr, increased⟩, hgrow, hq⟩ := hq
  have hle : k ≤ min curr s.availableBytes := le_min (le_of_growRegion hgrow) havail
  cases answers with
  | nil => cases hq
  | cons a answers =>
    cases a with
    | some p =>
      cases hq
      exact hle
    | none =>
      dsimp only at hq
      split at hq
      · cases hq
        cases hp
      · obtain ⟨⟨bytes, memAddr⟩, hback, hq⟩ := bind_eq_some_iff.mp hq
        cases hq
        obtain rfl : memAddr = some p := hp
        exact le_of_backpedal hback

/-- The answers let `Extend` finish, and a region that they give is fresh memory in units
of 256 bytes. -/
structure Answered (s : BFCAllocator) (scale : Nat → Nat) (k : Nat) (answers : List (Option Nat))
    (q : Request) : Prop where
  request : s.requestRegion scale k answers = some q
  fresh : ∀ p, q.memAddr = some p → RegionManager.Fresh s.regionManager p q.bytes
  dvd : ∀ p, q.memAddr = some p → 256 ∣ q.bytes

/-- `Extend`. -/
theorem Heap.extend (hh : s.Heap chain free []) (hcoal : s.AllCoalesced chain) (hk : 0 < k)
    (hreq : k ≤ s.availableBytes → ∃ q, s.Answered scale k answers q ∧
      ∀ p, q.memAddr = some p → q.bytes ≤ 2 ^ 39) :
    ∃ b s' chain' free', s.extend scale k answers = some (b, s') ∧
      Kept s chain s' chain' free' := by
  rw [BFCAllocator.extend]
  by_cases havail : s.availableBytes < k
  · rw [if_pos havail]
    exact ⟨false, s, chain, free, rfl, ⟨hh, hcoal, fun _ hq => hq⟩, fun hu => hu, fun _ ha => ha⟩
  rw [if_neg havail]
  obtain ⟨q, hq, hsmall⟩ := hreq (not_lt.mp havail)
  simp only [hq.request, bind_eq_bind, bind_some]
  -- the fields that govern growth are not part of the heap
  have hgrown : ∀ curr started total, Kept s chain { s with
      currRegionAllocationBytes := curr
      startedBackpedal := started
      totalRegionAllocatedBytes := total } chain free := fun _ _ _ =>
    ⟨⟨hh.transfer rfl rfl rfl rfl hh.nextId (fun _ => rfl) (fun _ => rfl) fun _ => Iff.rfl,
      fun r hr => (hcoal r hr).congr fun _ _ => Iff.rfl, fun _ hq => hq⟩, fun hu => hu,
      fun _ ha => ha.congr rfl⟩
  cases hp : q.memAddr with
  | none => exact ⟨false, _, chain, free, rfl, hgrown _ _ _⟩
  | some p =>
    have hpos : 0 < q.bytes := hk.trans_le (le_of_requestRegion (not_lt.mp havail) hq.request hp)
    have hkept₁ := hgrown (if q.increasedAllocation then q.currRegionAllocationBytes
      else toSizeT (q.currRegionAllocationBytes * 2)) q.startedBackpedal
      (toSizeT (s.totalRegionAllocatedBytes + q.bytes))
    obtain ⟨s₂, chain', free', hadd, hkept⟩ := hkept₁.heap.addRegion hkept₁.coalesced
      (hq.fresh p hp) ⟨hpos, hq.dvd p hp, hsmall p hp⟩
    refine ⟨true, s₂, chain', free', ?_, hkept₁.trans hkept⟩
    dsimp only
    rw [hadd]
    rfl

/-! ## The whole operation -/

/-- What is assumed of an allocation: if it has to extend the heap, then the `SubAllocator`
gives an answer. -/
def AllocationAnswered (s : BFCAllocator) (scale : Nat → Nat) (numBytes : Nat)
    (answers : List (Option Nat)) (Q : Request → Prop) : Prop :=
  s.findFit (binNumForSize (roundedBytes numBytes)) (roundedBytes numBytes) = none →
    roundedBytes numBytes ≤ s.availableBytes →
      ∃ q, s.Answered scale (roundedBytes numBytes) answers q ∧ Q q

/-- The region can be indexed by an `int`. -/
def Request.Indexable (q : Request) : Prop := ∀ p, q.memAddr = some p → q.bytes ≤ 2 ^ 39

variable (hh : s.Heap chain free []) (hcoal : s.AllCoalesced chain)
include hh hcoal

/-- A pointer that `FindChunkPtr` returns is a chunk in use that is large enough. -/
theorem Heap.findChunkPtr_handedOut (hk : 0 < k) (hdvd : 256 ∣ k) (binNum numBytes : Nat) :
    ∃ ptr s' chain' free', s.findChunkPtr binNum k numBytes = some (ptr, s') ∧
      Kept s chain s' chain' free' ∧
      (∀ q, ptr = some q → ∃ h size, s'.HandedOut chain' h q size ∧ k ≤ size) ∧
      (ptr = none → s' = s ∧ chain' = chain ∧ free' = free ∧ s.findFit binNum k = none) := by
  obtain ⟨ptr, s', chain', free', hfind, hkept, hsome, hnone⟩ :=
    hh.findChunkPtr hcoal hk hdvd binNum numBytes
  refine ⟨ptr, s', chain', free', hfind, hkept, ?_, ?_⟩
  · rintro q rfl
    cases hfit : s.findFit binNum k with
    | none => cases (hnone hfit).1
    | some found =>
      obtain ⟨hptr, hout⟩ := hsome found.1 found.2 hfit
      cases hptr
      exact ⟨_, _, hout, le_takenSize (findFit_some hfit).2⟩
  · rintro rfl
    cases hfit : s.findFit binNum k with
    | none =>
      obtain ⟨-, hs, hchain, hfree⟩ := hnone hfit
      exact ⟨hs, hchain, hfree, rfl⟩
    | some found => cases (hsome found.1 found.2 hfit).1

/-- `AllocateRawInternal`. -/
theorem Heap.allocateRawInternal (hpos : 0 < numBytes) (hle : numBytes + 255 < 2 ^ 64)
    (hreq : s.AllocationAnswered scale numBytes answers Request.Indexable) :
    ∃ ptr s' chain' free', s.allocateRawInternal scale numBytes answers = some (ptr, s') ∧
      Kept s chain s' chain' free' ∧
      ∀ q, ptr = some q → ∃ h size, s'.HandedOut chain' h q size ∧
        roundedBytes numBytes ≤ size := by
  have hk : 0 < roundedBytes numBytes := hpos.trans_le (le_roundedBytes hle)
  have hdvd := roundedBytes_dvd numBytes
  obtain ⟨ptr, s₁, chain₁, free₁, hfind, hkept, hptr, hnone⟩ := hh.findChunkPtr_handedOut hcoal hk
    hdvd (binNumForSize (roundedBytes numBytes)) numBytes
  rw [BFCAllocator.allocateRawInternal, if_neg hpos.ne']
  simp only [hfind, bind_eq_bind, bind_some]
  cases ptr with
  | some q => exact ⟨some q, s₁, chain₁, free₁, rfl, hkept, hptr⟩
  | none =>
    obtain ⟨rfl, rfl, rfl, hfit⟩ := hnone rfl
    obtain ⟨b, s₂, chain₂, free₂, hextend, hkept₂⟩ := hh.extend hcoal hk (hreq hfit)
    simp only [hextend]
    cases b with
    | false => exact ⟨none, s₂, chain₂, free₂, rfl, hkept₂, nofun⟩
    | true =>
      obtain ⟨ptr, s₃, chain₃, free₃, hfind₃, hkept₃, hptr₃, -⟩ :=
        hkept₂.heap.findChunkPtr_handedOut hkept₂.coalesced hk hdvd
          (binNumForSize (roundedBytes numBytes)) numBytes
      exact ⟨ptr, s₃, chain₃, free₃, hfind₃, hkept₂.trans hkept₃, hptr₃⟩

end BFCAllocator

end Tension.Bfc
