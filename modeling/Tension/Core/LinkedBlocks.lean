import Mathlib

/-!
# Chains of adjacent blocks

Blocks of memory that lie one after another are linked in both directions. A chain is the
list of their names. Splitting a block and merging two neighbours change the chain where
they happen and nowhere else.
-/

namespace Tension

open List

/-- Where a block lies and which blocks come before and after it. -/
structure Block (H : Type*) where
  start : Nat
  size : Nat
  prev : Option H
  next : Option H

namespace Block

variable {H : Type*} {block block' : H → Block H} {p p' q : Option H} {a : Nat} {l m : List H}

/-- The size of a list of blocks. -/
def total (block : H → Block H) (l : List H) : Nat := (l.map fun h => (block h).size).sum

/-- The blocks of the list lie one after another from address `a`, `p` comes before them
and `q` after them. -/
def Linked (block : H → Block H) (p : Option H) (a : Nat) : List H → Option H → Prop
  | [], _ => True
  | h :: l, q => (block h).start = a ∧ (block h).prev = p ∧ (block h).next = l.head?.or q ∧
      Linked block (some h) (a + (block h).size) l q

@[simp] theorem total_nil : total block [] = 0 := rfl

@[simp] theorem total_cons (h : H) : total block (h :: l) = (block h).size + total block l := rfl

@[simp] theorem total_append : total block (l ++ m) = total block l + total block m := by
  simp [total]

theorem total_congr (hb : ∀ h ∈ l, (block' h).size = (block h).size) :
    total block' l = total block l := by
  rw [total, total, map_congr_left hb]

/-- A chain is linked through the place where it is cut. -/
theorem linked_append : Linked block p a (l ++ m) q ↔ Linked block p a l (m.head?.or q) ∧
      Linked block (l.getLast?.or p) (a + total block l) m q := by
  induction l generalizing p a with
  | nil => simp [Linked]
  | cons h l ih =>
    have hlast : (h :: l).getLast?.or p = l.getLast?.or (some h) := by
      rw [getLast?_cons]
      cases l.getLast? <;> rfl
    simp [Linked, ih, Option.or_assoc, hlast, add_assoc, and_assoc]

section

variable (hl : Linked block p a l q)
include hl

/-- A chain depends on its blocks only. -/
theorem Linked.congr (hb : ∀ h ∈ l, block' h = block h) : Linked block' p a l q := by
  induction l generalizing p a with
  | nil => trivial
  | cons h l ih =>
    obtain ⟨hstart, hprev, hnext, hl⟩ := hl
    have hh := hb h mem_cons_self
    rw [← hh] at hstart hprev hnext hl
    exact ⟨hstart, hprev, hnext, ih hl fun x hx => hb x (mem_cons_of_mem h hx)⟩

/-- Every block lies within the chain. -/
theorem Linked.mem_range {h : H} (hh : h ∈ l) :
    a ≤ (block h).start ∧ (block h).start + (block h).size ≤ a + total block l := by
  induction l generalizing p a with
  | nil => cases hh
  | cons x l ih =>
    obtain ⟨hstart, -, -, hl⟩ := hl
    rw [total_cons]
    rcases mem_cons.mp hh with rfl | hh
    · omega
    · have hrest := ih hl hh
      omega

/-- The blocks are in the order of their addresses. -/
theorem Linked.pairwise :
    l.Pairwise fun x y => (block x).start + (block x).size ≤ (block y).start := by
  induction l generalizing p a with
  | nil => exact .nil
  | cons x l ih =>
    obtain ⟨hstart, -, -, hl⟩ := hl
    refine .cons (fun y hy => ?_) (ih hl)
    have hrange := (hl.mem_range hy).1
    omega

end

section

variable (hl : Linked block p a l q) (hpos : ∀ h ∈ l, 0 < (block h).size)
include hl hpos

theorem Linked.pairwise_lt : l.Pairwise fun x y => (block x).start < (block y).start := by
  refine hl.pairwise.imp_of_mem ?_
  intro x y hx _ hle
  have hx := hpos x hx
  omega

/-- No block occurs twice. -/
theorem Linked.nodup : l.Nodup := by
  refine (hl.pairwise_lt hpos).imp ?_
  rintro x y hlt rfl
  exact lt_irrefl _ hlt

/-- The addresses tell the blocks apart. -/
theorem Linked.eq_of_start {x y : H} (hx : x ∈ l) (hy : y ∈ l)
    (hs : (block x).start = (block y).start) : x = y := by
  have hpair : l.Pairwise fun x y => (block x).start = (block y).start → x = y := by
    refine (hl.pairwise_lt hpos).imp ?_
    intro x y hlt he
    exact absurd he (ne_of_lt hlt)
  have hflip : l.Pairwise (flip fun x y => (block x).start = (block y).start → x = y) := by
    refine hpair.imp ?_
    exact fun hxy he => (hxy he.symm).symm
  exact hpair.forall_of_forall_of_flip (fun _ _ _ => rfl) hflip hx hy hs

end

section Surgery

variable [DecidableEq H]

/-- The first block of a chain changes its predecessor. -/
theorem Linked.relink (hl : Linked block p a l q) (hnodup : l.Nodup)
    (hb : ∀ h ∈ l, block' h = if l.head? = some h then { block h with prev := p' } else block h) :
    Linked block' p' a l q := by
  cases l with
  | nil => trivial
  | cons x l =>
    obtain ⟨hstart, -, hnext, hl⟩ := hl
    have hx : block' x = { block x with prev := p' } := by
      rw [hb x mem_cons_self, if_pos head?_cons]
    refine ⟨by rw [hx, hstart], by rw [hx], by rw [hx, hnext], ?_⟩
    rw [show (block' x).size = (block x).size by rw [hx]]
    refine hl.congr fun h hh => ?_
    have hne : ¬ (x :: l).head? = some h := by
      rintro ⟨⟩
      exact (nodup_cons.mp hnodup).1 hh
    rw [hb h (mem_cons_of_mem x hh), if_neg hne]

theorem total_relink
    (hb : ∀ h ∈ l, block' h = if l.head? = some h then { block h with prev := p' } else block h) :
    total block' l = total block l := by
  refine total_congr fun h hh => ?_
  rw [hb h hh]
  split <;> rfl

/-- A block is split: a new block takes over its end. -/
theorem Linked.split {x y : H} {k : Nat} (hl : Linked block p a (l ++ x :: m) q)
    (hnodup : (l ++ x :: m).Nodup) (hk : k ≤ (block x).size)
    (hbefore : ∀ h ∈ l, block' h = block h)
    (hx : block' x = { block x with size := k, next := some y })
    (hy : block' y =
      ⟨(block x).start + k, (block x).size - k, some x, (block x).next⟩)
    (hafter : ∀ h ∈ m,
      block' h = if m.head? = some h then { block h with prev := some y } else block h) :
    Linked block' p a (l ++ x :: y :: m) q ∧
      total block' (l ++ x :: y :: m) = total block (l ++ x :: m) := by
  obtain ⟨hl, hstart, hprev, hnext, hm⟩ := linked_append.mp hl
  have hmnodup : m.Nodup := (nodup_cons.mp (nodup_append.mp hnodup).2.1).2
  have htotal : total block' l = total block l := total_congr fun h hh => by rw [hbefore h hh]
  have hsize : (block' x).size + (block' y).size = (block x).size := by
    rw [hx, hy]
    dsimp only
    omega
  constructor
  · refine linked_append.mpr ⟨hl.congr hbefore, ?_, ?_, ?_, ?_, ?_, ?_, ?_⟩
    · rw [hx, htotal, hstart]
    · rw [hx, hprev]
    · rw [hx]
      rfl
    · rw [hy, hx, htotal, hstart]
    · rw [hy]
    · rw [hy, hnext]
    · rw [htotal, add_assoc _ (block' x).size, hsize]
      exact hm.relink hmnodup hafter
  · simp only [total_append, total_cons, total_relink hafter]
    omega

/-- Two neighbours are merged into the first. -/
theorem Linked.merge {x y : H} (hl : Linked block p a (l ++ x :: y :: m) q)
    (hnodup : (l ++ x :: y :: m).Nodup) (hbefore : ∀ h ∈ l, block' h = block h)
    (hx : block' x =
      { block x with size := (block x).size + (block y).size, next := (block y).next })
    (hafter : ∀ h ∈ m,
      block' h = if m.head? = some h then { block h with prev := some x } else block h) :
    Linked block' p a (l ++ x :: m) q ∧
      total block' (l ++ x :: m) = total block (l ++ x :: y :: m) := by
  obtain ⟨hl, hstart, hprev, -, -, -, hnext, hm⟩ := linked_append.mp hl
  have hmnodup : m.Nodup := (nodup_cons.mp (nodup_cons.mp (nodup_append.mp hnodup).2.1).2).2
  have htotal : total block' l = total block l := total_congr fun h hh => by rw [hbefore h hh]
  have hsize : (block' x).size = (block x).size + (block y).size := by rw [hx]
  constructor
  · refine linked_append.mpr ⟨hl.congr hbefore, ?_, ?_, ?_, ?_⟩
    · rw [hx, htotal, hstart]
    · rw [hx, hprev]
    · rw [hx, hnext]
    · rw [hsize, htotal, ← add_assoc]
      exact hm.relink hmnodup hafter
  · simp only [total_append, total_cons, total_relink hafter]
    omega

end Surgery

/-! ## Lists linked in one direction -/

/-- The list of the names that are reached from `p` by following `next`. -/
def Listed (next : H → Option H) : Option H → List H → Prop
  | p, [] => p = none
  | p, h :: l => p = some h ∧ Listed next (next h) l

theorem Listed.congr {next next' : H → Option H} (hl : Listed next p l)
    (hn : ∀ h ∈ l, next' h = next h) : Listed next' p l := by
  induction l generalizing p with
  | nil => exact hl
  | cons h l ih =>
    obtain ⟨hp, hl⟩ := hl
    rw [← hn h mem_cons_self] at hl
    exact ⟨hp, ih hl fun x hx => hn x (mem_cons_of_mem h hx)⟩

end Block

end Tension
