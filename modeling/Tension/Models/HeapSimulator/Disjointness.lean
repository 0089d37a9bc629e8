import Mathlib.Data.List.TakeWhile
import Tension.Core.Precedence
import Tension.Models.HeapSimulator.LazyBestFitHeap

/-!
# Disjointness of simultaneously live buffers

Free chunks and the ranges of live buffers partition the heap. A buffer that has no range yet
gets one behind everything that was assigned before. Buffers are therefore only assigned
common addresses if one of them is freed before the other one is allocated.
-/

namespace Tension.HeapSimulator

open FreeChunks Precedence List Option

/-! ## Sequences of calls -/

/-- The buffer that a call allocates. -/
def Op.allocated : Op → Option Nat
  | .alloc buffer _ => some buffer
  | .free _ _ => none

/-- The buffer that a call frees. -/
def Op.freed : Op → Option Nat
  | .alloc _ _ => none
  | .free buffer _ => some buffer

/-- Every buffer is allocated once, and later freed once with the same size. -/
structure Balanced (ops : List Op) : Prop where
  allocatedOnce : (ops.filterMap Op.allocated).Nodup
  freedOnce : (ops.filterMap Op.freed).Nodup
  later : ∀ b n, Op.free b n ∈ ops → Before (.alloc b n) (.free b n) ops
  freed : ∀ b n, Op.alloc b n ∈ ops → Op.free b n ∈ ops

/-- The lifetimes of two buffers overlap: each one is allocated before the other one is freed. -/
def Overlap (ops : List Op) (a b : Nat) : Prop :=
  (∃ n m, Before (.alloc a n) (.free b m) ops) ∧ ∃ n m, Before (.alloc b m) (.free a n) ops

theorem Overlap.symm {ops : List Op} {a b : Nat} (h : Overlap ops a b) : Overlap ops b a := by
  obtain ⟨⟨n, m, hab⟩, n', m', hba⟩ := h
  exact ⟨⟨m', n', hba⟩, m, n, hab⟩

/-- A buffer is freed before another one is allocated. -/
def Precedes (ops : List Op) (a b : Nat) : Prop :=
  ∃ n m, Before (.free a n) (.alloc b m) ops

/-- A buffer is allocated and not freed. -/
def Live (ops : List Op) (b : Nat) : Prop := (∃ n, Op.alloc b n ∈ ops) ∧ ∀ n, Op.free b n ∉ ops

variable {pre post ops : List Op} {a b n : Nat} {op : Op}

theorem Precedes.concat (h : Precedes pre a b) (op : Op) : Precedes (pre ++ [op]) a b := by
  obtain ⟨n, m, h⟩ := h
  exact ⟨n, m, before_concat.mpr (.inl h)⟩

theorem live_alloc (hfresh : ∀ m, Op.alloc b m ∉ pre) (hunfreed : ∀ m, Op.free b m ∉ pre)
    (n a : Nat) : Live (pre ++ [.alloc b n]) a ↔ Live pre a ∨ a = b := by
  simp only [Live, mem_append, mem_singleton, reduceCtorEq, or_false, Op.alloc.injEq]
  constructor
  · rintro ⟨⟨m, hm | ⟨rfl, -⟩⟩, hfree⟩
    · exact .inl ⟨⟨m, hm⟩, hfree⟩
    · exact .inr rfl
  · rintro (⟨⟨m, hm⟩, hfree⟩ | rfl)
    · exact ⟨⟨m, .inl hm⟩, hfree⟩
    · exact ⟨⟨n, .inr ⟨rfl, rfl⟩⟩, hunfreed⟩

theorem live_free (n a : Nat) : Live (pre ++ [.free b n]) a ↔ Live pre a ∧ a ≠ b := by
  simp only [Live, mem_append, mem_singleton, reduceCtorEq, or_false, Op.free.injEq, not_or]
  constructor
  · rintro ⟨halloc, hfree⟩
    exact ⟨⟨halloc, fun m => (hfree m).1⟩, fun hab => (hfree n).2 ⟨hab, rfl⟩⟩
  · rintro ⟨⟨halloc, hfree⟩, hne⟩
    exact ⟨halloc, fun m => ⟨hfree m, fun h => hne h.1⟩⟩

theorem Live.not_precedes (h : Live pre a) (b : Nat) : ¬Precedes pre a b :=
  fun ⟨_, _, hbefore⟩ => h.2 _ hbefore.left_mem

namespace Balanced

/-- What occurs once does not occur before or after. -/
theorem not_mem_of_nodup {f : Op → Option Nat} (h : ((pre ++ op :: post).filterMap f).Nodup)
    (hop : f op = some b) {op' : Op} (hop' : f op' = some b) : op' ∉ pre ∧ op' ∉ post := by
  rw [filterMap_append, filterMap_cons_some hop, nodup_append] at h
  obtain ⟨-, hcons, hdisjoint⟩ := h
  refine ⟨fun hmem => ?_, fun hmem => ?_⟩
  · exact hdisjoint b (mem_filterMap.mpr ⟨op', hmem, hop'⟩) b mem_cons_self rfl
  · exact (nodup_cons.mp hcons).1 (mem_filterMap.mpr ⟨op', hmem, hop'⟩)

theorem alloc_fresh (h : Balanced (pre ++ .alloc b n :: post)) (m : Nat) :
    Op.alloc b m ∉ pre ∧ Op.alloc b m ∉ post :=
  not_mem_of_nodup h.allocatedOnce rfl rfl

theorem free_fresh (h : Balanced (pre ++ .free b n :: post)) (m : Nat) :
    Op.free b m ∉ pre ∧ Op.free b m ∉ post :=
  not_mem_of_nodup h.freedOnce rfl rfl

theorem alloc_mem (h : Balanced (pre ++ .free b n :: post)) : .alloc b n ∈ pre := by
  obtain ⟨-, hpost⟩ := h.free_fresh n
  have hlater := h.later b n (mem_append_right _ mem_cons_self)
  rw [before_append, ← singleton_append, before_append] at hlater
  rcases hlater with hlater | (hlater | hlater | ⟨hmem, -⟩) | ⟨hmem, -⟩
  · exact hlater.left_mem
  · exact absurd hlater not_before_singleton
  · exact absurd hlater.right_mem hpost
  · cases mem_singleton.mp hmem
  · exact hmem

variable (h : Balanced ops)
include h

/-- No call occurs twice. -/
theorem nodup : ops.Nodup := by
  have ha := pairwise_filterMap.mp h.allocatedOnce
  have hf := pairwise_filterMap.mp h.freedOnce
  refine (ha.and hf).imp ?_
  rintro x y ⟨hax, hfx⟩ rfl
  cases x with
  | alloc b n => exact hax b rfl b rfl rfl
  | free b n => exact hfx b rfl b rfl rfl

/-- A buffer is allocated with one size. -/
theorem alloc_unique {m : Nat} (hn : Op.alloc b n ∈ ops) (hm : Op.alloc b m ∈ ops) : n = m := by
  obtain ⟨pre, post, rfl⟩ := append_of_mem hn
  obtain ⟨hpre, hpost⟩ := h.alloc_fresh m
  rcases mem_append.mp hm with hm | hm
  · exact absurd hm hpre
  · rcases mem_cons.mp hm with hm | hm
    · exact (Op.alloc.inj hm).2.symm
    · exact absurd hm hpost

/-- Buffers whose lifetimes overlap do not precede each other. -/
theorem not_precedes (hab : Overlap ops a b) : ¬Precedes ops a b := by
  rintro ⟨n, m, hbefore⟩
  obtain ⟨-, n', m', hbefore'⟩ := hab
  obtain rfl := h.alloc_unique hbefore.right_mem hbefore'.left_mem
  have hn : Op.alloc a n ∈ ops := (h.later a n hbefore.left_mem).left_mem
  have hn' : Op.alloc a n' ∈ ops := (h.later a n' hbefore'.right_mem).left_mem
  obtain rfl := h.alloc_unique hn hn'
  exact hbefore.asymm h.nodup hbefore'

end Balanced

/-- An address lies in the range of an allocation. -/
def Allocation.Has (allocation : Allocation) (p : Nat) : Prop :=
  ∃ o, allocation.offset = some o ∧ o ≤ p ∧ p < o + allocation.size

namespace LazyBestFitHeap

variable {alignment : Nat} {s s' : LazyBestFitHeap}

/-! ## Free chunks -/

theorem orderChunkByIncreasingSize_total {c d : Chunk} (h : c ≠ d) :
    orderChunkByIncreasingSize c d = true ∨ orderChunkByIncreasingSize d c = true := by
  cases c
  cases d
  simp only [orderChunkByIncreasingSize, ne_eq, Chunk.mk.injEq] at *
  split <;> split <;> simp only [decide_eq_true_eq] <;> omega

@[simp] theorem addFreeChunk_zero (s : LazyBestFitHeap) (offset : Nat) :
    s.addFreeChunk offset 0 = s := if_pos rfl

theorem addFreeChunk_spec (hs : Separated s.free) (offset size : Nat)
    (h : ∀ p, offset ≤ p → p < offset + size → ¬Covers s.free p) :
    Separated (s.addFreeChunk offset size).free ∧
      (∀ p, Covers (s.addFreeChunk offset size).free p ↔
        Covers s.free p ∨ offset ≤ p ∧ p < offset + size) ∧
      (s.addFreeChunk offset size).chunkMap = s.chunkMap ∧
      (s.addFreeChunk offset size).heapSize = s.heapSize := by
  rw [addFreeChunk]
  split
  · exact ⟨hs, fun p => (or_iff_left (by omega)).symm, rfl, rfl⟩
  rename_i hsize
  have hpos : 0 < (⟨offset, size⟩ : Chunk).size := Nat.pos_of_ne_zero hsize
  have hdisjoint (c : Chunk) (hc : c ∈ s.free) : Chunk.Disjoint ⟨offset, size⟩ c :=
    Chunk.disjoint_of_forall hpos (hs.pos c hc) fun p hp hp' => h p hp.1 hp.2 ⟨c, hc, hp'⟩
  obtain ⟨hsep, hcovers, -⟩ := coalesce_spec hs hpos hdisjoint
  have hperm : (OrderedSet.insert orderChunkByIncreasingSize
      (coalesce s.free ⟨offset, size⟩).1 (coalesce s.free ⟨offset, size⟩).2).Perm
        ((coalesce s.free ⟨offset, size⟩).1 :: (coalesce s.free ⟨offset, size⟩).2) := by
    refine OrderedSet.insert_perm fun d hd => orderChunkByIncreasingSize_total ?_
    rintro rfl
    have hapart := (separated_cons.mp hsep).2.1 _ hd
    simp only [Chunk.Apart, Chunk.chunkEnd] at hapart
    omega
  refine ⟨hsep.perm hperm.symm, fun p => ?_, rfl, rfl⟩
  rw [covers_perm hperm, hcovers p, or_comm]
  rfl

/-! ## The invariant -/

/-- An address lies in the range that a buffer was assigned. -/
def Holds (s : LazyBestFitHeap) (b p : Nat) : Prop :=
  ∃ allocation, s.chunkMap.lookup b = some allocation ∧ allocation.Has p

/-- The heap after a sequence of calls. Free chunks and ranges of live buffers partition the
heap, and ranges have common addresses only if one buffer is freed before the other one is
allocated. -/
structure Inv (alignment : Nat) (pre : List Op) (s : LazyBestFitHeap) : Prop where
  mapped : ∀ b n, Op.alloc b n ∈ pre ↔ ∃ o, s.chunkMap.lookup b = some ⟨o, n⟩
  lazy : ∀ b n, s.chunkMap.lookup b = some ⟨none, n⟩ → 0 < n ∧ ∀ m, Op.free b m ∉ pre
  aligned : ∀ b o n, s.chunkMap.lookup b = some ⟨some o, n⟩ →
    alignment ∣ o ∧ o + n ≤ s.heapSize
  separated : Separated s.free
  inside : ∀ p, Covers s.free p → p < s.heapSize
  covered : ∀ p < s.heapSize, Covers s.free p ∨ ∃ b, Live pre b ∧ s.Holds b p
  apart : ∀ p b, Covers s.free p → Live pre b → ¬s.Holds b p
  disjoint : ∀ a b p, a ≠ b → ¬Precedes pre a b → ¬Precedes pre b a → s.Holds a p → ¬s.Holds b p

theorem inv_new : Inv alignment [] new where
  mapped b n := by
    exact ⟨nofun, nofun⟩
  lazy b n h := by
    cases h
  aligned b o n h := by
    cases h
  separated := separated_nil
  inside p h := by
    obtain ⟨c, hc, -⟩ := h
    cases hc
  covered p h := absurd h (Nat.not_lt_zero p)
  apart p b h := by
    obtain ⟨c, hc, -⟩ := h
    cases hc
  disjoint a b p _ _ _ h := by
    obtain ⟨allocation, hlookup, -⟩ := h
    cases hlookup

theorem holds_congr {p : Nat} (h : s'.chunkMap.lookup a = s.chunkMap.lookup a) :
    s'.Holds a p ↔ s.Holds a p := by
  rw [Holds, Holds, h]

theorem holds_of_lookup {allocation : Allocation} {p : Nat}
    (h : s.chunkMap.lookup b = some allocation) : s.Holds b p ↔ allocation.Has p := by
  rw [Holds, h]
  exact ⟨fun ⟨_, h, hp⟩ => some.inj h ▸ hp, fun hp => ⟨allocation, rfl, hp⟩⟩

namespace Inv

variable (hs : Inv alignment pre s)
include hs

theorem holds_lt {p : Nat} (h : s.Holds b p) : p < s.heapSize := by
  obtain ⟨⟨offset, size⟩, hlookup, o, rfl, -, hlt⟩ := h
  have hle := (hs.aligned b o size hlookup).2
  exact lt_of_lt_of_le hlt hle

theorem chunkEnd_le {c : Chunk} (hc : c ∈ s.free) : c.chunkEnd ≤ s.heapSize := by
  have hpos := hs.separated.pos c hc
  have hlast := hs.inside (c.chunkEnd - 1) ⟨c, hc, by simp only [Chunk.Has, Chunk.chunkEnd]; omega⟩
  omega

theorem alloc_mem {p : Nat} (h : s.Holds b p) : ∃ n, Op.alloc b n ∈ pre := by
  obtain ⟨⟨offset, size⟩, hlookup, -⟩ := h
  exact ⟨size, (hs.mapped b size).mpr ⟨offset, hlookup⟩⟩

section

variable (hmap : ∀ a, a ≠ b → s'.chunkMap.lookup a = s.chunkMap.lookup a)
include hmap

/-- The ranges are aligned if that of the one buffer that changes is. -/
theorem aligned_of_update {allocation : Allocation}
    (hlookup : s'.chunkMap.lookup b = some allocation) (haligned : ∀ o,
      allocation.offset = some o → alignment ∣ o ∧ o + allocation.size ≤ s'.heapSize)
    (hsize : s.heapSize ≤ s'.heapSize) (a o n : Nat)
    (h : s'.chunkMap.lookup a = some ⟨some o, n⟩) : alignment ∣ o ∧ o + n ≤ s'.heapSize := by
  rcases eq_or_ne a b with rfl | hab
  · rw [hlookup] at h
    cases h
    exact haligned o rfl
  · obtain ⟨hdvd, hle⟩ := hs.aligned a o n (hmap a hab ▸ h)
    exact ⟨hdvd, hle.trans hsize⟩

/-- The ranges are disjoint if that of the one buffer that changes is disjoint from the others. -/
theorem disjoint_of_update {op : Op} (hpair : ∀ a p, a ≠ b → ¬Precedes (pre ++ [op]) a b →
      s.Holds a p → ¬s'.Holds b p) (a a' p : Nat) (hne : a ≠ a')
    (hprec : ¬Precedes (pre ++ [op]) a a') (hprec' : ¬Precedes (pre ++ [op]) a' a)
    (ha : s'.Holds a p) : ¬s'.Holds a' p := by
  intro ha'
  rcases eq_or_ne a b with rfl | hab
  · exact hpair a' p hne.symm hprec' ((holds_congr (hmap a' hne.symm)).mp ha') ha
  · replace ha := (holds_congr (hmap a hab)).mp ha
    rcases eq_or_ne a' b with rfl | hab'
    · exact hpair a p hab hprec ha ha'
    · exact hs.disjoint a a' p hne (fun h => hprec (h.concat _)) (fun h => hprec' (h.concat _)) ha
        ((holds_congr (hmap a' hab')).mp ha')

end

/-- A buffer is freed. If it had a range, the range is free; otherwise it gets a range behind the
heap, and all addresses up to the end of the range are free. -/
theorem free (hlive : Live pre b) {o n : Nat} (hlookup : s'.chunkMap.lookup b = some ⟨some o, n⟩)
    (hmap : ∀ a, a ≠ b → s'.chunkMap.lookup a = s.chunkMap.lookup a) (hmem : Op.alloc b n ∈ pre)
    (hsep : Separated s'.free) (haligned : alignment ∣ o ∧ o + n ≤ s'.heapSize)
    (hsize : s.heapSize ≤ s'.heapSize) (hrange : ∀ p, s'.Holds b p → s.Holds b p ∨ s.heapSize ≤ p)
    (hfree : ∀ p, Covers s'.free p ↔ Covers s.free p ∨ s.Holds b p ∨
      s.heapSize ≤ p ∧ p < s'.heapSize) : Inv alignment (pre ++ [.free b n]) s' := by
  have hother (a : Nat) (ha : a ≠ b) (p : Nat) : s'.Holds a p ↔ s.Holds a p :=
    holds_congr (hmap a ha)
  constructor
  case mapped =>
    intro a m
    simp only [mem_append, mem_singleton, reduceCtorEq, or_false]
    rcases eq_or_ne a b with rfl | hab
    · obtain ⟨o', hold⟩ := (hs.mapped a n).mp hmem
      simp [hs.mapped, hold, hlookup]
    · rw [hmap a hab, ← hs.mapped a m]
  case lazy =>
    intro a m h
    simp only [mem_append, mem_singleton, Op.free.injEq, not_or]
    rcases eq_or_ne a b with rfl | hab
    · rw [hlookup] at h
      cases h
    · obtain ⟨hpos, hnot⟩ := hs.lazy a m (hmap a hab ▸ h)
      exact ⟨hpos, fun k => ⟨hnot k, fun h => hab h.1⟩⟩
  case aligned =>
    refine hs.aligned_of_update hmap hlookup ?_ hsize
    rintro _ ⟨⟩
    exact haligned
  case separated => exact hsep
  case inside =>
    intro p hp
    rcases (hfree p).mp hp with hp | hp | hp
    · exact lt_of_lt_of_le (hs.inside p hp) hsize
    · exact lt_of_lt_of_le (hs.holds_lt hp) hsize
    · exact hp.2
  case covered =>
    intro p hp
    rcases lt_or_ge p s.heapSize with hlt | hge
    · rcases hs.covered p hlt with hc | ⟨a, ha, hhold⟩
      · exact .inl ((hfree p).mpr (.inl hc))
      · rcases eq_or_ne a b with rfl | hab
        · exact .inl ((hfree p).mpr (.inr (.inl hhold)))
        · exact .inr ⟨a, (live_free n a).mpr ⟨ha, hab⟩, (hother a hab p).mpr hhold⟩
    · exact .inl ((hfree p).mpr (.inr (.inr ⟨hge, hp⟩)))
  case apart =>
    intro p a hp ha hhold
    obtain ⟨ha, hab⟩ := (live_free n a).mp ha
    have hhold := (hother a hab p).mp hhold
    rcases (hfree p).mp hp with hp | hp | hp
    · exact hs.apart p a hp ha hhold
    · exact hs.disjoint a b p hab (ha.not_precedes b) (hlive.not_precedes a) hhold hp
    · exact absurd (hs.holds_lt hhold) (Nat.not_lt.mpr hp.1)
  case disjoint =>
    refine hs.disjoint_of_update hmap fun a p hab hprec hp hb => ?_
    rcases hrange p hb with hb | hle
    · exact hs.disjoint a b p hab (fun h => hprec (h.concat _)) (hlive.not_precedes a) hp hb
    · exact absurd (hs.holds_lt hp) (Nat.not_lt.mpr hle)

end Inv

/-! ## Calls -/

theorem roundUpToNearest_spec (value : Nat) {divisor : Nat} (h : 0 < divisor) :
    value ≤ roundUpToNearest value divisor ∧ divisor ∣ roundUpToNearest value divisor := by
  have hdiv := Nat.div_add_mod value divisor
  have hmod := Nat.mod_lt value h
  refine ⟨?_, Nat.dvd_mul_left ..⟩
  rw [Nat.mul_comm] at hdiv
  rw [roundUpToNearest, Nat.add_mul]
  split <;> omega

section

variable (s : LazyBestFitHeap) (b : Nat) (allocation : Allocation)

@[simp] theorem emplace_free : (s.emplace b allocation).free = s.free := by
  rw [emplace]
  split <;> rfl

@[simp] theorem emplace_heapSize : (s.emplace b allocation).heapSize = s.heapSize := by
  rw [emplace]
  split <;> rfl

end

variable (offset : Option Nat)

/-- The entry of a new buffer. Buffers of size zero keep the entry that they got first. -/
def entry (size : Nat) : Allocation :=
  if size = 0 then ⟨some 0, 0⟩ else ⟨offset, size⟩

@[simp] theorem entry_size (size : Nat) : (entry offset size).size = size := by
  rw [entry]
  split
  · rename_i h
    rw [h]
  · rfl

theorem entry_has (size p : Nat) :
    (entry offset size).Has p ↔ ∃ o, offset = some o ∧ o ≤ p ∧ p < o + size := by
  rw [entry, Allocation.Has]
  split
  · simp only [some.injEq]
    exact ⟨fun h => by omega, fun ⟨o, _, h⟩ => by omega⟩
  · rfl

theorem entry_lazy {offset : Option Nat} {size : Nat} (h : (entry offset size).offset = none) :
    0 < size := by
  rw [entry] at h
  split at h
  · cases h
  · omega

theorem entry_aligned {offset : Option Nat} {size bound : Nat}
    (h : ∀ o, offset = some o → alignment ∣ o ∧ o + size ≤ bound) (o : Nat)
    (ho : (entry offset size).offset = some o) :
    alignment ∣ o ∧ o + (entry offset size).size ≤ bound := by
  rw [entry_size]
  rw [entry] at ho
  split at ho
  · cases ho
    exact ⟨Nat.dvd_zero _, by omega⟩
  · exact h o ho

@[simp] theorem emplaceEmpty_free (s : LazyBestFitHeap) (b n : Nat) :
    (s.emplaceEmpty b n).free = s.free := by
  rw [emplaceEmpty]
  split
  · exact emplace_free ..
  · rfl

@[simp] theorem emplaceEmpty_heapSize (s : LazyBestFitHeap) (b n : Nat) :
    (s.emplaceEmpty b n).heapSize = s.heapSize := by
  rw [emplaceEmpty]
  split
  · exact emplace_heapSize ..
  · rfl

/-- The entry that a new buffer has after both calls of `emplace`. -/
theorem emplace_entry {t : LazyBestFitHeap} (hb : b ∉ s.chunkMap) (offset : Option Nat)
    (ht : t.chunkMap = (s.emplaceEmpty b n).chunkMap) :
    (t.emplace b ⟨offset, n⟩).chunkMap = s.chunkMap.insert b (entry offset n) := by
  rw [emplaceEmpty] at ht
  rw [entry]
  split at ht
  · rename_i hn
    rw [emplace, if_neg hb] at ht
    rw [emplace, ht, if_pos ((AList.mem_insert _).mpr (.inl rfl)), ht, if_pos hn]
  · rename_i hn
    rw [emplace, ht, if_neg hb, if_neg hn]

theorem mem_of_bestFit {free : List Chunk} {c : Chunk} (h : bestFit alignment n free = some c) :
    c ∈ free ∧ roundUpToNearest c.offset alignment + n ≤ c.chunkEnd :=
  ⟨(dropWhile_sublist _).subset (mem_of_find?_eq_some h),
    of_decide_eq_true (show fits alignment n c = true from find?_some h)⟩

/-- No free chunk has room for the buffer. -/
theorem not_fits_of_bestFit {free : List Chunk} {c : Chunk} (halignment : 0 < alignment)
    (h : bestFit alignment n free = none) (hc : c ∈ free) :
    c.chunkEnd < roundUpToNearest c.offset alignment + n := by
  rw [← takeWhile_append_dropWhile
    (l := free)] at hc
  rcases mem_append.mp hc with hc | hc
  · have hsmall : orderChunkByIncreasingSize c ⟨0, n⟩ = true :=
      mem_takeWhile_imp (p := fun c => orderChunkByIncreasingSize c ⟨0, n⟩) hc
    have hround := (roundUpToNearest_spec c.offset halignment).1
    rw [orderChunkByIncreasingSize] at hsmall
    rw [Chunk.chunkEnd]
    split at hsmall <;> simp only [decide_eq_true_eq] at hsmall <;> omega
  · have hnot := find?_eq_none.mp h c hc
    rw [fits, decide_eq_true_eq] at hnot
    omega

/-- A buffer is new to the heap. -/
structure Fresh (alignment : Nat) (pre : List Op) (s : LazyBestFitHeap) (b : Nat) : Prop where
  inv : Inv alignment pre s
  not_allocated : ∀ m, Op.alloc b m ∉ pre
  not_freed : ∀ m, Op.free b m ∉ pre

theorem Fresh.not_mem (h : Fresh alignment pre s b) : b ∉ s.chunkMap := by
  intro hmem
  obtain ⟨⟨o, m⟩, hlookup⟩ := isSome_iff_exists.mp (AList.lookup_isSome.mpr hmem)
  exact h.not_allocated m ((h.inv.mapped b m).mpr ⟨o, hlookup⟩)

theorem Fresh.ne_of_live (h : Fresh alignment pre s b) (ha : Live pre a) : a ≠ b := by
  obtain ⟨n, hn⟩ := ha.1
  rintro rfl
  exact h.not_allocated n hn

/-- The range of a new buffer is taken out of a free chunk, and the parts of the chunk before and
behind it are given back. -/
theorem Fresh.carve (h : Fresh alignment pre s b) {c : Chunk} (hc : c ∈ s.free) {n o e : Nat}
    (ho : c.offset ≤ o) (hoe : o ≤ e) (he : e ≤ c.chunkEnd) :
    let t := { s.emplaceEmpty b n with free := (s.emplaceEmpty b n).free.erase c }
    let t' := ((t.emplace b ⟨some o, n⟩).addFreeChunk c.offset (o - c.offset)).addFreeChunk e
      (c.chunkEnd - e)
    Separated t'.free ∧ (∀ p, Covers t'.free p ↔ Covers s.free p ∧ ¬(o ≤ p ∧ p < e)) ∧
      t'.chunkMap = s.chunkMap.insert b (entry (some o) n) ∧ t'.heapSize = s.heapSize := by
  intro t t'
  have ht : (t.emplace b ⟨some o, n⟩).free = s.free.erase c := by
    rw [emplace_free]
    exact congrArg (·.erase c) (emplaceEmpty_free s b n)
  have hheap : (t.emplace b ⟨some o, n⟩).heapSize = s.heapSize :=
    (emplace_heapSize ..).trans (emplaceEmpty_heapSize s b n)
  obtain ⟨herase, hcovers⟩ := h.inv.separated.erase hc
  rw [← ht] at herase hcovers
  have hhas (p : Nat) : c.Has p ↔ c.offset ≤ p ∧ p < c.chunkEnd := Iff.rfl
  obtain ⟨hsep₁, hcovers₁, hmap₁, hsize₁⟩ := addFreeChunk_spec herase c.offset (o - c.offset)
    fun p hp hp' h => ((hcovers p).mp h).2 ⟨hp, by omega⟩
  obtain ⟨hsep₂, hcovers₂, hmap₂, hsize₂⟩ := addFreeChunk_spec hsep₁ e (c.chunkEnd - e)
    fun p hp hp' h => by
      rw [hcovers₁ p, hcovers p, hhas p] at h
      omega
  refine ⟨hsep₂, fun p => ?_, (hmap₂.trans hmap₁).trans (emplace_entry h.not_mem (some o) rfl),
    (hsize₂.trans hsize₁).trans hheap⟩
  have hcovered : c.Has p → Covers s.free p := fun hp => ⟨c, hc, hp⟩
  rw [hcovers₂ p, hcovers₁ p, hcovers p]
  rw [hhas p] at hcovered ⊢
  constructor
  · rintro ((⟨h, hnot⟩ | h) | h)
    · exact ⟨h, by omega⟩
    · exact ⟨hcovered (by omega), by omega⟩
    · exact ⟨hcovered (by omega), by omega⟩
  · rintro ⟨h, hnot⟩
    by_cases hp : c.offset ≤ p ∧ p < c.chunkEnd
    · omega
    · exact .inl (.inl ⟨h, hp⟩)

section

variable (h : Fresh alignment pre s b) {allocation : Allocation}
  (hmap : s'.chunkMap = s.chunkMap.insert b allocation)
include hmap

theorem lookup_of_insert : s'.chunkMap.lookup b = some allocation ∧
    ∀ a, a ≠ b → s'.chunkMap.lookup a = s.chunkMap.lookup a := by
  rw [hmap]
  exact ⟨AList.lookup_insert _, fun a ha => AList.lookup_insert_ne ha⟩

include h

/-- The map has the new buffer with its size. -/
theorem Fresh.mapped_insert (a n : Nat) : Op.alloc a n ∈ pre ++ [.alloc b allocation.size] ↔
    ∃ o, s'.chunkMap.lookup a = some ⟨o, n⟩ := by
  obtain ⟨heq, hne⟩ := lookup_of_insert hmap
  rw [mem_append, mem_singleton, Op.alloc.injEq]
  rcases eq_or_ne a b with rfl | hab
  · rw [heq, or_iff_right (h.not_allocated n)]
    exact ⟨fun ⟨_, hn⟩ => ⟨allocation.offset, by rw [hn]⟩,
      fun ⟨_, h⟩ => ⟨rfl, by rw [some.inj h]⟩⟩
  · rw [hne a hab, ← h.inv.mapped a n]
    exact or_iff_left fun h => hab h.1

/-- A buffer without a range has not been freed. -/
theorem Fresh.lazy_insert (hlazy : allocation.offset = none → 0 < allocation.size) (a n : Nat)
    (ha : s'.chunkMap.lookup a = some ⟨none, n⟩) :
    0 < n ∧ ∀ m, Op.free a m ∉ pre ++ [.alloc b allocation.size] := by
  obtain ⟨heq, hne⟩ := lookup_of_insert hmap
  simp only [mem_append, mem_singleton, reduceCtorEq, or_false]
  rcases eq_or_ne a b with rfl | hab
  · rw [heq] at ha
    cases ha
    exact ⟨hlazy rfl, h.not_freed⟩
  · exact h.inv.lazy a n (hne a hab ▸ ha)

/-- The heap is covered if the new range takes what the free chunks lose and what the heap gains. -/
theorem Fresh.covered_insert
    (hfree : ∀ p, Covers s'.free p ↔ Covers s.free p ∧ ¬allocation.Has p)
    (hgrown : ∀ p, s.heapSize ≤ p → p < s'.heapSize → allocation.Has p) {p : Nat}
    (hp : p < s'.heapSize) :
    Covers s'.free p ∨ ∃ a, Live (pre ++ [.alloc b allocation.size]) a ∧ s'.Holds a p := by
  obtain ⟨heq, hne⟩ := lookup_of_insert hmap
  have hlive := live_alloc h.not_allocated h.not_freed allocation.size
  by_cases hhas : allocation.Has p
  · exact .inr ⟨b, (hlive b).mpr (.inr rfl), (holds_of_lookup heq).mpr hhas⟩
  have hlt : p < s.heapSize := lt_of_not_ge fun hle => hhas (hgrown p hle hp)
  rcases h.inv.covered p hlt with hc | ⟨a, ha, hhold⟩
  · exact .inl ((hfree p).mpr ⟨hc, hhas⟩)
  · exact .inr ⟨a, (hlive a).mpr (.inl ha), (holds_congr (hne a (h.ne_of_live ha))).mpr hhold⟩

end

/-- A buffer is allocated. Its range was free or lies behind the heap, and the other addresses
stay as they were. -/
theorem Fresh.alloc (h : Fresh alignment pre s b) {offset : Option Nat}
    (hmap : s'.chunkMap = s.chunkMap.insert b (entry offset n)) (hsep : Separated s'.free)
    (haligned : ∀ o, offset = some o → alignment ∣ o ∧ o + n ≤ s'.heapSize)
    (hsize : s.heapSize ≤ s'.heapSize)
    (hnew : ∀ p, (entry offset n).Has p → Covers s.free p ∨ s.heapSize ≤ p)
    (hfree : ∀ p, Covers s'.free p ↔ Covers s.free p ∧ ¬(entry offset n).Has p)
    (hgrown : ∀ p, s.heapSize ≤ p → p < s'.heapSize → (entry offset n).Has p) :
    Inv alignment (pre ++ [.alloc b n]) s' := by
  have hlazy := @entry_lazy offset n
  replace haligned := entry_aligned haligned
  have hn := entry_size offset n
  generalize entry offset n = allocation at *
  subst hn
  have hs := h.inv
  obtain ⟨heq, hne⟩ := lookup_of_insert hmap
  constructor
  case mapped => exact h.mapped_insert hmap
  case lazy => exact h.lazy_insert hmap hlazy
  case aligned => exact hs.aligned_of_update hne heq haligned hsize
  case separated => exact hsep
  case inside => exact fun p hp => lt_of_lt_of_le (hs.inside p ((hfree p).mp hp).1) hsize
  case covered => exact fun p => h.covered_insert hmap hfree hgrown
  case apart =>
    intro p a hp ha hhold
    obtain ⟨hp, hnot⟩ := (hfree p).mp hp
    rcases (live_alloc h.not_allocated h.not_freed allocation.size a).mp ha with hlive | rfl
    · exact hs.apart p a hp hlive ((holds_congr (hne a (h.ne_of_live hlive))).mp hhold)
    · exact hnot ((holds_of_lookup heq).mp hhold)
  case disjoint =>
    refine hs.disjoint_of_update hne fun a p hab hprec hp hb => ?_
    -- A buffer that does not precede the new one is live.
    have ha : Live pre a := ⟨hs.alloc_mem hp, fun m hm => hprec
      ⟨m, allocation.size, before_concat.mpr (.inr ⟨hm, rfl⟩)⟩⟩
    rcases hnew p ((holds_of_lookup heq).mp hb) with hc | hle
    · exact hs.apart p a hc ha hp
    · exact absurd (hs.holds_lt hp) (Nat.not_lt.mpr hle)

/-- The buffer gets no range yet. -/
theorem Fresh.wait (h : Fresh alignment pre s b) (n : Nat) :
    Inv alignment (pre ++ [.alloc b n]) ((s.emplaceEmpty b n).emplace b ⟨none, n⟩) := by
  have hentry (p : Nat) : ¬(entry none n).Has p := by
    rw [entry_has]
    rintro ⟨o, ho, -⟩
    cases ho
  refine h.alloc (emplace_entry h.not_mem none rfl) ?_ nofun ?_
    (fun p hp => absurd hp (hentry p)) (fun p => ?_) fun p hp hp' => ?_
  · rw [emplace_free, emplaceEmpty_free]
    exact h.inv.separated
  · rw [emplace_heapSize, emplaceEmpty_heapSize]
  · rw [emplace_free, emplaceEmpty_free]
    exact (and_iff_left (hentry p)).symm
  · rw [emplace_heapSize, emplaceEmpty_heapSize] at hp'
    omega

theorem entry_some_has (o n p : Nat) : (entry (some o) n).Has p ↔ o ≤ p ∧ p < o + n := by
  rw [entry_has]
  simp

section

variable (h : Fresh alignment pre s b) (halignment : 0 < alignment)
include h halignment

/-- The buffer is allocated out of a free chunk. -/
theorem Fresh.allocFrom {n : Nat} {best : Chunk} (hmem : best ∈ s.free)
    (hfits : roundUpToNearest best.offset alignment + n ≤ best.chunkEnd) :
    Inv alignment (pre ++ [.alloc b n])
      ((s.emplaceEmpty b n).allocFrom alignment b n best) := by
  obtain ⟨hle, hdvd⟩ := roundUpToNearest_spec best.offset halignment
  rw [LazyBestFitHeap.allocFrom]
  generalize roundUpToNearest best.offset alignment = o at hfits hle hdvd
  obtain ⟨hsep, hcovers, hmap, hsize⟩ := h.carve hmem hle (Nat.le_add_right o n) hfits
  have hend := h.inv.chunkEnd_le hmem
  refine h.alloc hmap hsep (fun o' ho' => ?_) ?_
    (fun p hp => ?_) (fun p => ?_) fun p hp hp' => ?_
  · cases ho'
    exact ⟨hdvd, (hfits.trans hend).trans (le_of_eq hsize.symm)⟩
  · exact le_of_eq hsize.symm
  · rw [entry_some_has] at hp
    exact .inl ⟨best, hmem, by simp only [Chunk.Has]; omega⟩
  · rw [entry_some_has]
    exact hcovers p
  · exact absurd (Nat.lt_of_lt_of_le hp' (Nat.le_of_eq hsize)) (Nat.not_lt.mpr hp)

/-- The heap grows for the buffer. -/
theorem Fresh.grow {n : Nat} {last : Chunk} (hmem : last ∈ s.free)
    (hend : last.chunkEnd = s.heapSize)
    (hlt : roundUpToNearest last.offset alignment < last.chunkEnd)
    (hfits : last.chunkEnd < roundUpToNearest last.offset alignment + n) :
    ∃ s', (s.emplaceEmpty b n).grow alignment b n last = some s' ∧
      Inv alignment (pre ++ [.alloc b n]) s' := by
  obtain ⟨hle, hdvd⟩ := roundUpToNearest_spec last.offset halignment
  rw [LazyBestFitHeap.grow]
  generalize roundUpToNearest last.offset alignment = o at hlt hfits hle hdvd
  obtain ⟨hsep, hcovers, hmap, hsize⟩ := h.carve (n := n) hmem hle hlt.le le_rfl
  rw [Nat.sub_self, addFreeChunk_zero] at hsep hmap hsize
  simp only [Nat.sub_self, addFreeChunk_zero] at hcovers
  refine ⟨_, if_pos ?_, ?_⟩
  · rw [hsize]
    omega
  refine h.alloc hmap hsep (fun o' ho' => ?_) ?_
    (fun p hp => ?_) (fun p => ?_) fun p hp hp' => ?_
  · cases ho'
    exact ⟨hdvd, le_rfl⟩
  · exact (le_of_eq hend.symm).trans hfits.le
  · rw [entry_some_has] at hp
    rcases lt_or_ge p s.heapSize with hlt' | hge
    · exact .inl ⟨last, hmem, by simp only [Chunk.Has]; omega⟩
    · exact .inr hge
  · rw [entry_some_has, hcovers p]
    refine and_congr_right fun hp => ?_
    have hinside := h.inv.inside p hp
    omega
  · rw [entry_some_has]
    exact ⟨by omega, hp'⟩

theorem alloc_spec (n : Nat) :
    ∃ s', s.alloc alignment b n = some s' ∧ Inv alignment (pre ++ [.alloc b n]) s' := by
  simp only [LazyBestFitHeap.alloc, emplaceEmpty_free, emplaceEmpty_heapSize]
  cases hbest : bestFit alignment n s.free with
  | some best =>
    obtain ⟨hmem, hfits⟩ := mem_of_bestFit hbest
    exact ⟨_, rfl, h.allocFrom halignment hmem hfits⟩
  | none =>
    cases hlast : s.free.find? fun c => c.chunkEnd = s.heapSize with
    | none => exact ⟨_, rfl, h.wait n⟩
    | some last =>
      dsimp only
      split
      · exact ⟨_, rfl, h.wait n⟩
      · rename_i hround
        have hmem := mem_of_find?_eq_some hlast
        have hend : last.chunkEnd = s.heapSize := by simpa using find?_some hlast
        exact h.grow halignment hmem hend (lt_of_not_ge hround)
          (not_fits_of_bestFit halignment hbest hmem)

end

section

variable (hs : Inv alignment pre s) (halignment : 0 < alignment)
include hs halignment

/-- A buffer without a range gets one behind the heap. -/
theorem freeLazily_spec {n : Nat} (hlookup : s.chunkMap.lookup b = some ⟨none, n⟩) :
    ∃ s', s.freeLazily alignment b n = some s' ∧ Inv alignment (pre ++ [.free b n]) s' := by
  obtain ⟨hpos, hnot⟩ := hs.lazy b n hlookup
  have hmem : Op.alloc b n ∈ pre := (hs.mapped b n).mpr ⟨none, hlookup⟩
  obtain ⟨hle, hdvd⟩ := roundUpToNearest_spec s.heapSize halignment
  rw [freeLazily]
  generalize roundUpToNearest s.heapSize alignment = o at hle hdvd
  have hholds (p : Nat) : ¬s.Holds b p := by
    rintro ⟨allocation, hlookup', o', ho', -⟩
    rw [hlookup] at hlookup'
    cases hlookup'
    cases ho'
  set t : LazyBestFitHeap := { s with chunkMap := s.chunkMap.insert b ⟨some o, n⟩ } with ht
  obtain ⟨hsep, hcovers, hmap, hsize⟩ := addFreeChunk_spec (s := t) hs.separated s.heapSize
    (o + n - s.heapSize) fun p hp _ h => absurd (hs.inside p h) (Nat.not_lt.mpr hp)
  refine ⟨_, if_pos ?_, ?_⟩
  · rw [hsize, ht]
    dsimp only
    omega
  have hlookup' : ((t.addFreeChunk s.heapSize (o + n - s.heapSize)).chunkMap.lookup b) =
      some ⟨some o, n⟩ := by rw [hmap, AList.lookup_insert]
  refine hs.free ⟨⟨n, hmem⟩, hnot⟩ hlookup' (fun a ha => ?_) hmem hsep ⟨hdvd, le_rfl⟩
    (hle.trans (Nat.le_add_right o n)) (fun p hp => ?_) fun p => ?_
  · rw [hmap, AList.lookup_insert_ne ha]
  · obtain ⟨allocation, hallocation, o', ho', hp⟩ := hp
    cases hlookup'.symm.trans hallocation
    cases ho'
    exact .inr (hle.trans hp.1)
  · rw [hcovers p, or_iff_right (hholds p)]
    refine or_congr_right (and_congr_right fun _ => ?_)
    dsimp only
    omega

theorem dealloc_spec {n : Nat} (hmem : Op.alloc b n ∈ pre) (hnot : ∀ m, Op.free b m ∉ pre) :
    ∃ s', s.dealloc alignment b n = some s' ∧ Inv alignment (pre ++ [.free b n]) s' := by
  have hlive : Live pre b := ⟨⟨n, hmem⟩, hnot⟩
  obtain ⟨offset, hlookup⟩ := (hs.mapped b n).mp hmem
  simp only [dealloc, hlookup, ne_eq]
  cases offset with
  | none => exact freeLazily_spec hs halignment hlookup
  | some o =>
    have hholds (p : Nat) : s.Holds b p ↔ o ≤ p ∧ p < o + n := by
      simp [Holds, hlookup, Allocation.Has]
    obtain ⟨hsep, hcovers, hmap, hsize⟩ := addFreeChunk_spec hs.separated o n fun p hp hp' h =>
      hs.apart p b h hlive ((hholds p).mpr ⟨hp, hp'⟩)
    refine ⟨_, rfl, hs.free hlive (hmap ▸ hlookup) (fun a _ => by rw [hmap]) hmem hsep
      (hsize ▸ hs.aligned b o n hlookup) (le_of_eq hsize.symm) (fun p hp => ?_) fun p => ?_⟩
    · rw [Holds, hmap] at hp
      exact .inl hp
    · rw [hcovers p, hholds p]
      refine or_congr_right (or_iff_left ?_).symm
      omega

end

/-! ## Whole sequences -/

/-- A part of a balanced sequence runs to its end. -/
theorem run_inv (halignment : 0 < alignment) (hs : Inv alignment pre s)
    (h : Balanced (pre ++ (ops ++ post))) :
    ∃ s', Run.run (step alignment) s ops = some s' ∧ Inv alignment (pre ++ ops) s' := by
  induction ops generalizing pre s with
  | nil => exact ⟨s, rfl, by rwa [append_nil]⟩
  | cons op ops ih =>
    rw [cons_append] at h
    obtain ⟨s', hstep, hs'⟩ : ∃ s', s.step alignment op = some s' ∧
        Inv alignment (pre ++ [op]) s' := by
      cases op with
      | alloc b n =>
        refine alloc_spec ⟨hs, fun m => (h.alloc_fresh m).1, fun m hm => ?_⟩ halignment n
        -- A buffer that is freed already was allocated already.
        obtain ⟨pre₁, pre₂, rfl⟩ := append_of_mem hm
        rw [append_assoc] at h
        have hmem := h.alloc_mem
        rw [← append_assoc] at h
        exact (h.alloc_fresh m).1 (mem_append_left _ hmem)
      | free b n => exact dealloc_spec hs halignment h.alloc_mem fun m => (h.free_fresh m).1
    rw [append_cons] at h ⊢
    obtain ⟨s'', hrun, hs''⟩ := ih hs' h
    exact ⟨s'', by rw [Run.run_cons, hstep]; exact hrun, hs''⟩

/-- A result of the simulation. Everything is free again, every buffer has an aligned range of
its size inside the heap, and buffers with overlapping lifetimes have disjoint ranges. -/
structure Assigned (alignment : Nat) (ops : List Op) (s : LazyBestFitHeap) : Prop where
  free : s.free = if s.heapSize = 0 then [] else [⟨0, s.heapSize⟩]
  range : ∀ b n, Op.alloc b n ∈ ops →
    ∃ o, s.chunkMap.lookup b = some ⟨some o, n⟩ ∧ alignment ∣ o ∧ o + n ≤ s.heapSize
  disjoint : ∀ a b o n o' n', a ≠ b → Overlap ops a b →
    s.chunkMap.lookup a = some ⟨some o, n⟩ → s.chunkMap.lookup b = some ⟨some o', n'⟩ →
    0 < n → 0 < n' → o + n ≤ o' ∨ o' + n' ≤ o

/-- Nothing is live at the end. -/
theorem Inv.assigned (hs : Inv alignment ops s) (h : Balanced ops) : Assigned alignment ops s where
  free := by
    refine eq_of_covers hs.separated fun p => ⟨hs.inside p, fun hp => ?_⟩
    refine (hs.covered p hp).resolve_right ?_
    rintro ⟨b, ⟨⟨n, hn⟩, hnot⟩, -⟩
    exact hnot n (h.freed b n hn)
  range b n hn := by
    obtain ⟨offset, hlookup⟩ := (hs.mapped b n).mp hn
    cases offset with
    | none => exact absurd (h.freed b n hn) ((hs.lazy b n hlookup).2 n)
    | some o => exact ⟨o, hlookup, hs.aligned b o n hlookup⟩
  disjoint a b o n o' n' hab hoverlap ha hb hn hn' := by
    -- Ranges that meet have the larger one of their offsets in common.
    by_contra hmeet
    refine hs.disjoint a b (max o o') hab (h.not_precedes hoverlap)
      (h.not_precedes hoverlap.symm) ⟨_, ha, o, rfl, ?_⟩ ⟨_, hb, o', rfl, ?_⟩
    · dsimp only
      omega
    · dsimp only
      omega

theorem Assigned.finish (hs : Assigned alignment ops s) : s.finish = some s := by
  have hfree := hs.free
  rw [LazyBestFitHeap.finish]
  split at hfree
  · rw [hfree]
  · rw [hfree]
    exact if_pos ⟨rfl, rfl⟩

end LazyBestFitHeap

end Tension.HeapSimulator
