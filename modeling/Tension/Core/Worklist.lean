import Mathlib.Logic.Relation

/-!
# Worklist searches

A search keeps the nodes it has finished and the nodes it still has to look at. Every
step of a finished node leads to a node that is blocked, finished or waiting. When
nothing waits any more, the finished nodes are the reachable ones.
-/

namespace Tension.Worklist

open List

variable {V : Type*} {W : V → V → Prop} {blocked : V → Prop} {start : V}

/-- The state of a search along the steps `W`. -/
structure Searching (W : V → V → Prop) (blocked : V → Prop) (start : V)
    (done todo : List V) : Prop where
  /-- The start is not forgotten. -/
  start_mem : blocked start ∨ start ∈ done ∨ start ∈ todo
  /-- Only reachable nodes are looked at. -/
  reached : ∀ n, n ∈ done ∨ n ∈ todo → Relation.ReflTransGen W start n
  /-- Finished nodes have no step to a node that was forgotten. -/
  closed : ∀ n ∈ done, ∀ w, W n w → blocked w ∨ w ∈ done ∨ w ∈ todo

/-- A search begins with its start. -/
theorem Searching.initial (W : V → V → Prop) (blocked : V → Prop) (start : V) :
    Searching W blocked start [] [start] where
  start_mem := .inr (.inr (mem_singleton_self start))
  reached n hn := by
    rcases hn with hn | hn
    · cases hn
    · rw [mem_singleton.mp hn]
  closed n hn := by cases hn

/-- A node that is blocked or finished can be skipped. -/
theorem Searching.skip {n : V} {done todo : List V}
    (h : Searching W blocked start done (n :: todo)) (hn : blocked n ∨ n ∈ done) :
    Searching W blocked start done todo := by
  have hkeep : ∀ w, blocked w ∨ w ∈ done ∨ w ∈ n :: todo → blocked w ∨ w ∈ done ∨ w ∈ todo := by
    intro w hw
    rcases hw with hw | hw | hw
    · exact .inl hw
    · exact .inr (.inl hw)
    · rcases mem_cons.mp hw with rfl | hw
      · exact hn.imp_right .inl
      · exact .inr (.inr hw)
  exact ⟨hkeep start h.start_mem, fun w hw => h.reached w (hw.imp_right (mem_cons_of_mem n)),
    fun m hm w hw => hkeep w (h.closed m hm w hw)⟩

/-- A node is finished when its steps have been added to what waits. -/
theorem Searching.visit {n : V} {done todo todo' : List V}
    (h : Searching W blocked start done (n :: todo))
    (hsub : ∀ w ∈ todo', w ∈ todo ∨ W n w) (hkeep : ∀ w ∈ todo, w ∈ todo')
    (hnew : ∀ w, W n w → blocked w ∨ w ∈ done ∨ w = n ∨ w ∈ todo') :
    Searching W blocked start (done ++ [n]) todo' := by
  have hn : Relation.ReflTransGen W start n := h.reached n (.inr mem_cons_self)
  have hmove : ∀ w, blocked w ∨ w ∈ done ∨ w ∈ n :: todo →
      blocked w ∨ w ∈ done ++ [n] ∨ w ∈ todo' := by
    intro w hw
    rcases hw with hw | hw | hw
    · exact .inl hw
    · exact .inr (.inl (mem_append_left _ hw))
    · rcases mem_cons.mp hw with rfl | hw
      · exact .inr (.inl (mem_append_right _ (mem_singleton_self w)))
      · exact .inr (.inr (hkeep w hw))
  refine ⟨hmove start h.start_mem, ?_, ?_⟩
  · intro w hw
    rcases hw with hw | hw
    · rcases mem_append.mp hw with hw | hw
      · exact h.reached w (.inl hw)
      · rw [mem_singleton.mp hw]
        exact hn
    · rcases hsub w hw with hw | hw
      · exact h.reached w (.inr (mem_cons_of_mem n hw))
      · exact hn.tail hw
  · intro m hm w hw
    rcases mem_append.mp hm with hm | hm
    · exact hmove w (h.closed m hm w hw)
    · rw [mem_singleton.mp hm] at hw
      rcases hnew w hw with hw | hw | rfl | hw
      · exact .inl hw
      · exact .inr (.inl (mem_append_left _ hw))
      · exact .inr (.inl (mem_append_right _ (mem_singleton_self w)))
      · exact .inr (.inr hw)

/-- A search that has come to its end has finished exactly the reachable nodes. -/
theorem Searching.mem_done_iff {done : List V} (h : Searching W blocked start done [])
    (hfree : ∀ n, Relation.ReflTransGen W start n → ¬ blocked n) (n : V) :
    n ∈ done ↔ Relation.ReflTransGen W start n := by
  have hdone : ∀ w, Relation.ReflTransGen W start w → blocked w ∨ w ∈ done ∨ w ∈ [] → w ∈ done := by
    intro w hreach hw
    rcases hw with hw | hw | hw
    · exact absurd hw (hfree w hreach)
    · exact hw
    · cases hw
  constructor
  · exact fun hn => h.reached n (.inl hn)
  · intro hn
    induction hn with
    | refl => exact hdone start .refl h.start_mem
    | tail hab hbc ih => exact hdone _ (hab.tail hbc) (h.closed _ ih _ hbc)

end Tension.Worklist
