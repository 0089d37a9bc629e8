import Tension.Models.HeapSimulator.Disjointness

/-!
# Runs of calls

The heap for runs calls the algorithm with a reordered sequence. Calls are reordered only among
allocations and among frees, so a balanced sequence stays balanced and its buffers keep their
lifetimes.
-/

namespace Tension.HeapSimulator

open Precedence List

/-- An allocation and a free. -/
def AllocFree (x y : Op) : Prop := x.allocated.isSome ∧ y.freed.isSome

variable {ops ops' pre post : List Op} {alignment : Nat}

/-- A reordered sequence is balanced. -/
theorem Balanced.reordered (h : Balanced ops) (hr : Reordered AllocFree ops ops') :
    Balanced ops' where
  allocatedOnce := (hr.perm.filterMap _).nodup_iff.mp h.allocatedOnce
  freedOnce := (hr.perm.filterMap _).nodup_iff.mp h.freedOnce
  later b n hmem :=
    (hr.before _ _ ⟨rfl, rfl⟩).mp (h.later b n (hr.perm.mem_iff.mpr hmem))
  freed b n hmem := hr.perm.mem_iff.mp (h.freed b n (hr.perm.mem_iff.mpr hmem))

/-- A reordered sequence has the same lifetimes. -/
theorem Overlap.reordered {a b : Nat} (h : Overlap ops a b) (hr : Reordered AllocFree ops ops') :
    Overlap ops' a b := by
  obtain ⟨⟨n, m, hab⟩, n', m', hba⟩ := h
  exact ⟨⟨n, m, (hr.before _ _ ⟨rfl, rfl⟩).mp hab⟩, n', m', (hr.before _ _ ⟨rfl, rfl⟩).mp hba⟩

/-- The calls of a run are of one kind. -/
theorem not_allocFree_of_mem_run {mode : Mode} {run : List RunOp} :
    ∀ x ∈ run.map (RunOp.toOp mode), ∀ y ∈ run.map (RunOp.toOp mode), ¬AllocFree x y := by
  rintro x hx y hy ⟨halloc, hfree⟩
  obtain ⟨x, -, rfl⟩ := mem_map.mp hx
  obtain ⟨y, -, rfl⟩ := mem_map.mp hy
  simp only [RunOp.toOp] at halloc hfree
  split at halloc
  · rw [if_pos ‹_›] at hfree
    cases hfree
  · cases halloc

namespace DecreasingSizeRunsHeap

variable {s : DecreasingSizeRunsHeap}

/-- The algorithm was called with a part of a sequence, and the rest of the sequence is
collected. -/
structure Collected (alignment : Nat) (pre : List Op) (s : DecreasingSizeRunsHeap) : Prop where
  called : ∃ called, LazyBestFitHeap.Inv alignment called s.algorithm ∧
    Reordered AllocFree pre (called ++ s.run.map (RunOp.toOp s.mode))
  init : s.mode = .init → s.run = [] ∧ pre = []

section

variable (halignment : 0 < alignment) (hs : Collected alignment pre s) (h : Balanced (pre ++ post))
include halignment hs h

/-- The run is passed on to the algorithm. -/
theorem callAndDrainRun_spec : ∃ s', s.callAndDrainRun alignment = some s' ∧ s'.run = [] ∧
      ∃ called, LazyBestFitHeap.Inv alignment called s'.algorithm ∧
        Reordered AllocFree pre called := by
  obtain ⟨called, hinv, hr⟩ := hs.called
  rw [callAndDrainRun]
  split
  · rename_i hmode
    obtain ⟨hrun, -⟩ := hs.init hmode
    rw [hrun, map_nil, append_nil] at hr
    exact ⟨s, if_pos hrun, hrun, called, hinv, hr⟩
  · have hsort : Reordered AllocFree (s.run.map (RunOp.toOp s.mode))
        ((s.run.insertionSort RunOp.le).map (RunOp.toOp s.mode)) :=
      .of_perm ((perm_insertionSort _ _).symm.map _) not_allocFree_of_mem_run
    have hr' := hr.trans ((Reordered.refl called).append hsort)
    have hbalanced := h.reordered (hr'.append (.refl post))
    rw [append_assoc] at hbalanced
    obtain ⟨algorithm, hrun, hinv'⟩ := LazyBestFitHeap.run_inv halignment hinv hbalanced
    dsimp only
    rw [hrun]
    exact ⟨_, rfl, rfl, _, hinv', hr'⟩

theorem setMode_spec (mode : Mode) (hmode : mode ≠ .init) :
    ∃ s', s.setMode alignment mode = some s' ∧ s'.mode = mode ∧ Collected alignment pre s' := by
  rw [setMode]
  split
  · obtain ⟨s', hcall, hrun, called, hinv, hr⟩ := callAndDrainRun_spec halignment hs h
    rw [hcall]
    refine ⟨_, rfl, rfl, ⟨called, hinv, ?_⟩, fun hinit => absurd hinit hmode⟩
    rwa [hrun, map_nil, append_nil]
  · rename_i hsame
    exact ⟨s, rfl, not_not.mp hsame, hs⟩

end

/-- A call is collected. -/
theorem Collected.collect (hs : Collected alignment pre s) (hmode : s.mode ≠ .init)
    (buffer size : Nat) :
    Collected alignment (pre ++ [RunOp.toOp s.mode ⟨buffer, size⟩]) (s.collect buffer size) := by
  obtain ⟨called, hinv, hr⟩ := hs.called
  refine ⟨⟨called, hinv, ?_⟩, fun hinit => absurd hinit hmode⟩
  rw [DecreasingSizeRunsHeap.collect, map_append, ← append_assoc]
  exact hr.append (.refl _)

variable (halignment : 0 < alignment) (hs : Collected alignment pre s)
include halignment hs

theorem step_spec {op : Op} (h : Balanced (pre ++ op :: post)) :
    ∃ s', s.step alignment op = some s' ∧ Collected alignment (pre ++ [op]) s' := by
  cases op with
  | alloc b n =>
    obtain ⟨s', hset, hmode, hs'⟩ := setMode_spec halignment hs h .alloc nofun
    have hcollect := hs'.collect (by rw [hmode]; nofun) b n
    rw [hmode] at hcollect
    exact ⟨_, by rw [step, hset]; rfl, hcollect⟩
  | free b n =>
    have hinit : s.mode ≠ .init := fun hinit =>
      ne_nil_of_mem h.alloc_mem (hs.init hinit).2
    obtain ⟨s', hset, hmode, hs'⟩ := setMode_spec halignment hs h .free nofun
    have hcollect := hs'.collect (by rw [hmode]; nofun) b n
    rw [hmode] at hcollect
    exact ⟨_, by rw [step, if_neg hinit, hset]; rfl, hcollect⟩

end DecreasingSizeRunsHeap

/-! ## The simulation -/

end Tension.HeapSimulator
