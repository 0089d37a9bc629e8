import Mathlib.Data.List.Perm.Basic
import Mathlib.Order.Basic

/-!
# Free chunks

Free memory is a collection of chunks that neither overlap nor touch each other. A chunk that
becomes free is merged with the chunks next to it, so that memory that is all free is a single
chunk.
-/

namespace Tension.FreeChunks

open List

/-- A range of addresses. -/
structure Chunk where
  offset : Nat
  size : Nat
  deriving DecidableEq, Repr

namespace Chunk

/-- The address behind the chunk. -/
def chunkEnd (c : Chunk) : Nat := c.offset + c.size

/-- An address lies in the chunk. -/
def Has (c : Chunk) (p : Nat) : Prop := c.offset ≤ p ∧ p < c.chunkEnd

/-- Two chunks neither overlap nor touch. -/
def Apart (c d : Chunk) : Prop := c.chunkEnd < d.offset ∨ d.chunkEnd < c.offset

/-- Two chunks do not overlap. -/
def Disjoint (c d : Chunk) : Prop := c.chunkEnd ≤ d.offset ∨ d.chunkEnd ≤ c.offset

theorem Apart.symm {c d : Chunk} (h : c.Apart d) : d.Apart c := Or.symm h

/-- Chunks without a common address do not overlap. -/
theorem disjoint_of_forall {c d : Chunk} (hc : 0 < c.size) (hd : 0 < d.size)
    (h : ∀ p, c.Has p → ¬d.Has p) : c.Disjoint d := by
  have h₁ := h c.offset
  have h₂ := h d.offset
  simp only [Has, chunkEnd, Disjoint] at *
  omega

end Chunk

open Chunk

variable {l : List Chunk} {chunk : Chunk}

/-- An address is free. -/
def Covers (l : List Chunk) (p : Nat) : Prop := ∃ c ∈ l, c.Has p

/-- No two chunks overlap or touch, and none is empty. -/
structure Separated (l : List Chunk) : Prop where
  pos : ∀ c ∈ l, 0 < c.size
  apart : l.Pairwise Apart

theorem separated_nil : Separated [] := ⟨nofun, .nil⟩

/-- The order of the chunks does not matter. -/
theorem Separated.perm {l' : List Chunk} (h : Separated l) (hp : l.Perm l') : Separated l' :=
  ⟨fun c hc => h.pos c (hp.mem_iff.mpr hc), (hp.pairwise_iff Apart.symm).mp h.apart⟩

theorem covers_perm {l' : List Chunk} (hp : l.Perm l') (p : Nat) : Covers l p ↔ Covers l' p := by
  simp [Covers, hp.mem_iff]

/-- One more chunk that is apart from the others. -/
theorem separated_cons {c : Chunk} : Separated (c :: l) ↔
    0 < c.size ∧ (∀ d ∈ l, c.Apart d) ∧ Separated l := by
  constructor
  · rintro ⟨hpos, hapart⟩
    obtain ⟨hc, hl⟩ := pairwise_cons.mp hapart
    exact ⟨hpos c mem_cons_self, hc, fun d hd => hpos d (mem_cons_of_mem _ hd), hl⟩
  · rintro ⟨hpos, hc, hl⟩
    exact ⟨forall_mem_cons.mpr ⟨hpos, hl.pos⟩, pairwise_cons.mpr ⟨hc, hl.apart⟩⟩

/-- One more chunk covers its addresses. -/
theorem covers_cons {c : Chunk} {p : Nat} : Covers (c :: l) p ↔ c.Has p ∨ Covers l p := by
  simp [Covers]

/-- A chunk is taken out. -/
theorem Separated.erase (hl : Separated l) (hc : chunk ∈ l) :
    Separated (l.erase chunk) ∧ ∀ p, Covers (l.erase chunk) p ↔ Covers l p ∧ ¬chunk.Has p := by
  obtain ⟨-, hapart, hrest⟩ := separated_cons.mp (hl.perm (perm_cons_erase hc))
  refine ⟨hrest, fun p => ?_⟩
  rw [covers_perm (perm_cons_erase hc), covers_cons]
  constructor
  · rintro ⟨d, hd, hp⟩
    have hcd := hapart d hd
    refine ⟨.inr ⟨d, hd, hp⟩, fun hp' => ?_⟩
    simp only [Has, Apart] at *
    omega
  · rintro ⟨hp, hnot⟩
    exact hp.resolve_left hnot

/-! ## Merging -/

/-- A chunk is merged with the chunks next to it. The other chunks are kept. -/
def coalesce : List Chunk → Chunk → Chunk × List Chunk
  | [], chunk => (chunk, [])
  | c :: rest, chunk =>
    if c.chunkEnd = chunk.offset ∨ c.offset = chunk.chunkEnd then
      coalesce rest ⟨min chunk.offset c.offset, chunk.size + c.size⟩
    else ((coalesce rest chunk).1, c :: (coalesce rest chunk).2)

/-- What a merged chunk is next to. -/
theorem apart_merge {c d : Chunk} (hd : 0 < d.size)
    (hnext : c.chunkEnd = chunk.offset ∨ c.offset = chunk.chunkEnd) (hdc : d.Apart c) :
    (d.Apart chunk → d.Apart ⟨min chunk.offset c.offset, chunk.size + c.size⟩) ∧
      (chunk.Disjoint d →
        Chunk.Disjoint ⟨min chunk.offset c.offset, chunk.size + c.size⟩ d) := by
  simp only [Apart, Chunk.Disjoint, chunkEnd] at *
  omega

/-- Neighbors that are merged have the addresses of both. -/
theorem has_merge {c : Chunk} (hnext : c.chunkEnd = chunk.offset ∨ c.offset = chunk.chunkEnd)
    (p : Nat) : Has ⟨min chunk.offset c.offset, chunk.size + c.size⟩ p ↔ chunk.Has p ∨ c.Has p := by
  simp only [Has, chunkEnd] at *
  omega

/-- The merged chunk and the chunks that are kept are free chunks for the same addresses. -/
theorem coalesce_spec (hl : Separated l) (hpos : 0 < chunk.size)
    (hdisjoint : ∀ c ∈ l, chunk.Disjoint c) :
    Separated ((coalesce l chunk).1 :: (coalesce l chunk).2) ∧
      (∀ p, Covers ((coalesce l chunk).1 :: (coalesce l chunk).2) p ↔
        chunk.Has p ∨ Covers l p) ∧
      ∀ d : Chunk, 0 < d.size → d.Apart chunk → (∀ c ∈ l, d.Apart c) →
        d.Apart (coalesce l chunk).1 ∧ ∀ c ∈ (coalesce l chunk).2, d.Apart c := by
  induction l generalizing chunk with
  | nil =>
    refine ⟨separated_cons.mpr ⟨hpos, nofun, separated_nil⟩, fun p => covers_cons, ?_⟩
    exact fun d _ h _ => ⟨h, nofun⟩
  | cons c rest ih =>
    obtain ⟨hc, hapart, hrest⟩ := separated_cons.mp hl
    obtain ⟨hdc, hdrest⟩ := forall_mem_cons.mp hdisjoint
    rw [coalesce]
    split
    · rename_i hnext
      have hpos' : 0 < (⟨min chunk.offset c.offset, chunk.size + c.size⟩ : Chunk).size :=
        Nat.add_pos_left hpos _
      obtain ⟨hsep, hcovers, hnew⟩ := ih hrest hpos'
        fun d hd => (apart_merge (hrest.pos d hd) hnext (hapart d hd).symm).2 (hdrest d hd)
      refine ⟨hsep, fun p => ?_, fun d hd hdchunk hdl => ?_⟩
      · rw [hcovers p, has_merge hnext, covers_cons, or_assoc]
      · obtain ⟨hdc', hdl'⟩ := forall_mem_cons.mp hdl
        exact hnew d hd ((apart_merge hd hnext hdc').1 hdchunk) hdl'
    · obtain ⟨hsep, hcovers, hnew⟩ := ih hrest hpos hdrest
      have hcchunk : c.Apart chunk := by
        simp only [Apart, Chunk.Disjoint] at *
        omega
      obtain ⟨hc₁, hc₂⟩ := hnew c hc hcchunk hapart
      obtain ⟨hpos', hapart', hkept⟩ := separated_cons.mp hsep
      refine ⟨?_, fun p => ?_, fun d hd hdchunk hdl => ?_⟩
      · exact separated_cons.mpr ⟨hpos', forall_mem_cons.mpr ⟨hc₁.symm, hapart'⟩,
          separated_cons.mpr ⟨hc, hc₂, hkept⟩⟩
      · rw [covers_cons, covers_cons, covers_cons, or_left_comm, ← covers_cons, hcovers p,
          or_left_comm]
      · obtain ⟨hdc', hdl'⟩ := forall_mem_cons.mp hdl
        obtain ⟨hd₁, hd₂⟩ := hnew d hd hdchunk hdl'
        exact ⟨hd₁, forall_mem_cons.mpr ⟨hdc', hd₂⟩⟩

/-! ## Everything is free -/

/-- If exactly the addresses below `n` are free, there is a single chunk, or none for an empty
memory. -/
theorem eq_of_covers {n : Nat} (hl : Separated l) (h : ∀ p, Covers l p ↔ p < n) :
    l = if n = 0 then [] else [⟨0, n⟩] := by
  have hinside (c : Chunk) (hc : c ∈ l) : c.chunkEnd ≤ n := by
    have hpos := hl.pos c hc
    have hlast := (h (c.chunkEnd - 1)).mp ⟨c, hc, by simp only [Has, chunkEnd]; omega⟩
    omega
  split
  · refine eq_nil_iff_forall_not_mem.mpr fun c hc => ?_
    have hpos := hl.pos c hc
    have hend := hinside c hc
    simp only [chunkEnd] at hend
    omega
  · obtain ⟨c, hc, hzero⟩ := (h 0).mpr (by omega)
    obtain ⟨l₁, l₂, rfl⟩ := append_of_mem hc
    have hl' := hl.perm perm_middle
    obtain ⟨hpos, hapart, -⟩ := separated_cons.mp hl'
    have hall : c = ⟨0, n⟩ := by
      by_contra hne
      have hend := hinside c hc
      have hsize : c.size ≠ n := fun heq => hne (by
        cases c
        simp only [Has, Chunk.mk.injEq] at *
        omega)
      obtain ⟨d, hd, hhas⟩ := (h c.chunkEnd).mpr (by simp only [Has, chunkEnd] at *; omega)
      rcases mem_cons.mp (perm_middle.mem_iff.mp hd) with rfl | hd
      · exact absurd hhas.2 (Nat.lt_irrefl _)
      · have hcd := hapart d hd
        simp only [Has, Apart] at *
        omega
    have hrest : l₁ ++ l₂ = [] := by
      refine eq_nil_iff_forall_not_mem.mpr fun d hd => ?_
      have hd' : d ∈ l₁ ++ c :: l₂ := perm_middle.mem_iff.mpr (mem_cons_of_mem _ hd)
      have hcd := hapart d hd
      have hend := hinside d hd'
      rw [hall] at hcd
      simp only [chunkEnd, Apart] at *
      omega
    obtain ⟨rfl, rfl⟩ := append_eq_nil_iff.mp hrest
    rw [hall, nil_append]

end Tension.FreeChunks
