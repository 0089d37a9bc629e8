import Mathlib.Data.List.Perm.Basic
import Tension.Core.Run
import Tension.Models.Executor.Frame

/-!
# The window of live iterations

The completions of nodes in a frame interleave in any way, and child frames come and go. The
live iterations of the frame are consecutive, there are no more than the frame may have in
parallel, and the first one stays as long as an input of the frame is missing.
-/

namespace Tension.Executor

open List Option Function

variable {V α κ : Type}

/-! ## Runs of a frame -/

/-- A frame with what goes on in it: the nodes that were pushed and have not completed, the child
frames with their iterations, and the enter nodes that have not arrived. -/
structure FrameRun (V α κ : Type) where
  frame : FrameState V α
  tasks : List (TaggedNode V)
  children : List (κ × Nat)
  pendingEnters : List V

/-- A section of the executor that holds the lock of the frame. -/
inductive FrameMove (V α κ : Type) where
  /-- An enter node arrives from the parent frame. -/
  | enter (u : V) (isDead : Bool) (outputs : List (Option α))
  /-- A node of the frame completes. -/
  | complete (t : TaggedNode V) (outputs : List (Option α))
  /-- An enter node of the frame finds or creates a child frame. -/
  | findOrCreateChild (t : TaggedNode V) (child : κ)
  /-- A live exit node of a child frame completes. -/
  | childExit (child : κ × Nat) (u : V) (outputs : List (Option α))
  /-- A child frame that is done propagates its dead exits. -/
  | deleteChild (child : κ × Nat) (deadExits : List V)
  /-- A child frame that is done is given up. -/
  | childDone (child : κ × Nat)

namespace FrameRun

/-- The frame that `FindOrCreateChildFrame` creates. -/
def new [DecidableEq V] (g : GraphView V) (parallelIterations : Nat) (enters : List V) :
    FrameRun V α κ where
  frame :=
    { maxParallelIterations := parallelIterations
      numPendingInputs := enters.length
      iterationCount := 0
      numOutstandingIterations := 1
      iterations := some (0, .new g) :: List.replicate parallelIterations none
      nextIterRoots := []
      invValues := []
      deadExits := [] }
  tasks := []
  children := []
  pendingEnters := enters

/-- Nodes that were pushed complete, child frames that are there act, and every enter node
arrives once. -/
def Enabled (s : FrameRun V α κ) : FrameMove V α κ → Prop
  | .enter u _ _ => u ∈ s.pendingEnters
  | .complete t _ => t ∈ s.tasks
  | .findOrCreateChild t _ => t ∈ s.tasks
  | .childExit child _ _ => child ∈ s.children
  | .deleteChild child _ => child ∈ s.children
  | .childDone child => child ∈ s.children

variable [DecidableEq V] [DecidableEq κ]

instance (s : FrameRun V α κ) : (move : FrameMove V α κ) → Decidable (Enabled s move)
  | .enter u _ _ => inferInstanceAs (Decidable (u ∈ s.pendingEnters))
  | .complete t _ => inferInstanceAs (Decidable (t ∈ s.tasks))
  | .findOrCreateChild t _ => inferInstanceAs (Decidable (t ∈ s.tasks))
  | .childExit child _ _ => inferInstanceAs (Decidable (child ∈ s.children))
  | .deleteChild child _ => inferInstanceAs (Decidable (child ∈ s.children))
  | .childDone child => inferInstanceAs (Decidable (child ∈ s.children))

/-- One section. -/
def step (g : GraphView V) (s : FrameRun V α κ) : FrameMove V α κ → Option (FrameRun V α κ)
  | .enter u isDead outputs =>
    (s.frame.enter g u isDead outputs []).map fun x =>
      { s with frame := x.1, tasks := s.tasks ++ x.2, pendingEnters := s.pendingEnters.erase u }
  | .complete t outputs =>
    (s.frame.propagateOutputs g t outputs []).map fun x =>
      { s with frame := x.1, tasks := s.tasks.erase t ++ x.2.1 }
  | .findOrCreateChild t child =>
    if (child, t.inputIter) ∈ s.children then some s
    else
      (s.frame.addChildFrame t.inputIter).map fun f =>
        { s with frame := f, children := (child, t.inputIter) :: s.children }
  | .childExit child u outputs =>
    (s.frame.activateNodes g u false child.2 outputs []).map fun x =>
      { s with frame := x.1, tasks := s.tasks ++ x.2 }
  | .deleteChild child deadExits =>
    (s.frame.deleteChildFrame g child.2 deadExits []).map fun x =>
      { s with frame := x.1, tasks := s.tasks ++ x.2 }
  | .childDone child =>
    (s.frame.cleanupFramesIterations g child.2 []).map fun x =>
      { s with frame := x.1, tasks := s.tasks ++ x.2.1, children := s.children.erase child }

end FrameRun

/-! ## The invariant of a frame -/

namespace FrameState

variable {f f' : FrameState V α} {tasks r : List (TaggedNode V)} {children : List Nat} {lo i : Nat}
  {st : Nat → IterationState V α} {ready : List (TaggedNode V)}

/-- The iterations from `lo` on are stored, with the numbers of their nodes and child frames. -/
structure Inv (tasks : List (TaggedNode V)) (children : List Nat) (lo : Nat)
    (st : Nat → IterationState V α) (f : FrameState V α) : Prop where
  ring : RingBuffer.Window f.iterations lo (f.iterationCount + 1) st
  length : f.iterations.length = f.maxParallelIterations + 1
  outstanding : f.numOutstandingIterations = f.iterationCount + 1 - lo
  ops : ∀ i, lo ≤ i → i ≤ f.iterationCount →
    (st i).outstandingOps = tasks.countP fun t => t.inputIter = i
  frames : ∀ i, lo ≤ i → i ≤ f.iterationCount → (st i).outstandingFrameCount = children.count i
  tasksLive : ∀ t ∈ tasks, lo ≤ t.inputIter ∧ t.inputIter ≤ f.iterationCount
  childrenLive : ∀ i ∈ children, lo ≤ i ∧ i ≤ f.iterationCount
  pending : f.numPendingInputs ≠ 0 → lo = 0

/-- Nodes wait for an iteration to be done only if there are as many as there may be. -/
def Deferred (f : FrameState V α) : Prop :=
  f.nextIterRoots ≠ [] → f.numOutstandingIterations = f.maxParallelIterations

/-- Only the states of iterations differ. -/
def SameWindow (f f' : FrameState V α) : Prop := f' = { f with iterations := f'.iterations }

theorem SameWindow.refl (f : FrameState V α) : SameWindow f f := rfl

theorem SameWindow.trans {f'' : FrameState V α} (h : SameWindow f f') (h' : SameWindow f' f'') :
    SameWindow f f'' := by
  rw [SameWindow] at *
  rw [h', h]

/-- Nodes may wait for an iteration only if the frame is full, and what an activation does not
change. -/
structure Keeps (f f' : FrameState V α) : Prop where
  deferred : Deferred f'
  max : f'.maxParallelIterations = f.maxParallelIterations
  pending : f'.numPendingInputs = f.numPendingInputs

theorem Keeps.refl (h : Deferred f) : Keeps f f := ⟨h, rfl, rfl⟩

theorem Keeps.trans {f'' : FrameState V α} (h : Keeps f f') (h' : Keeps f' f'') : Keeps f f'' :=
  ⟨h'.deferred, h'.max.trans h.max, h'.pending.trans h.pending⟩

/-- An iteration has been started, and no node waits for one. -/
structure Started (f f' : FrameState V α) : Prop where
  roots : f'.nextIterRoots = []
  count : f'.iterationCount = f.iterationCount + 1
  max : f'.maxParallelIterations = f.maxParallelIterations
  pending : f'.numPendingInputs = f.numPendingInputs

theorem Started.deferred (h : Started f f') : Deferred f' := fun hne => absurd h.roots hne

theorem SameWindow.keeps (h : SameWindow f f') (hd : Deferred f) : Keeps f f' := by
  rw [h]
  exact ⟨hd, rfl, rfl⟩

namespace Inv

variable (h : Inv tasks children lo st f)
include h

theorem perm {tasks' : List (TaggedNode V)} {children' : List Nat} (hp : tasks.Perm tasks')
    (hp' : children.Perm children') : Inv tasks' children' lo st f where
  __ := h
  ops i hlo hhi := by rw [h.ops i hlo hhi, hp.countP_eq]
  frames i hlo hhi := by rw [h.frames i hlo hhi, hp'.count_eq]
  tasksLive t ht := h.tasksLive t (hp.mem_iff.mpr ht)
  childrenLive i hi := h.childrenLive i (hp'.mem_iff.mpr hi)

theorem deref (hlo : lo ≤ i) (hhi : i ≤ f.iterationCount) : f.derefIteration i = some (st i) := by
  rw [derefIteration, getIteration, h.ring.get_eq hlo (Nat.lt_succ_of_le hhi)]
  exact if_pos rfl

/-- The state of a live iteration is changed. -/
theorem modify (hlo : lo ≤ i) (hhi : i ≤ f.iterationCount) {s : IterationState V α}
    {tasks' : List (TaggedNode V)} {children' : List Nat}
    (hops : s.outstandingOps = tasks'.countP fun t => t.inputIter = i)
    (hframes : s.outstandingFrameCount = children'.count i)
    (htasks : ∀ j, j ≠ i → (tasks'.countP fun t => t.inputIter = j) =
      tasks.countP fun t => t.inputIter = j)
    (hchildren : ∀ j, j ≠ i → children'.count j = children.count j) :
    Inv tasks' children' lo (Function.update st i s) (f.modifyIteration i s) where
  ring := h.ring.modify hlo (Nat.lt_succ_of_le hhi) s
  length := by
    rw [modifyIteration, RingBuffer.length_set]
    exact h.length
  outstanding := h.outstanding
  ops j hj hj' := by
    rcases eq_or_ne j i with rfl | hne
    · rw [update_self, hops]
    · rw [update_of_ne hne, htasks j hne]
      exact h.ops j hj hj'
  frames j hj hj' := by
    rcases eq_or_ne j i with rfl | hne
    · rw [update_self, hframes]
    · rw [update_of_ne hne, hchildren j hne]
      exact h.frames j hj hj'
  tasksLive t ht := by
    rcases eq_or_ne t.inputIter i with heq | hne
    · rw [heq]
      exact ⟨hlo, hhi⟩
    · have hpos : 0 < tasks.countP fun t' => t'.inputIter = t.inputIter := by
        rw [← htasks _ hne]
        exact countP_pos_iff.mpr ⟨t, ht, by simp⟩
      obtain ⟨t', ht', heq⟩ := countP_pos_iff.mp hpos
      rw [← of_decide_eq_true heq]
      exact h.tasksLive t' ht'
  childrenLive j hj := by
    rcases eq_or_ne j i with rfl | hne
    · exact ⟨hlo, hhi⟩
    · refine h.childrenLive j (count_pos_iff.mp ?_)
      rw [← hchildren j hne]
      exact count_pos_iff.mpr hj
  pending := h.pending

/-- The values that wait for iterations are not part of the invariant. -/
theorem withValues (roots invs : List (V × Option α)) (exits : List V) :
    Inv tasks children lo st
      { f with nextIterRoots := roots, invValues := invs, deadExits := exits } :=
  { h with }

end Inv

/-! ## What an activation pushes -/

/-- An activation returns a frame with its window at `lo'` and pushes nodes behind `ready` that the
frame counts. -/
def Pushes (R : Nat → FrameState V α → Prop) (tasks : List (TaggedNode V)) (children : List Nat)
    (ready : List (TaggedNode V)) (x : Option (FrameState V α × List (TaggedNode V))) : Prop :=
  ∃ f' r lo' st', x = some (f', ready ++ r) ∧ Inv (tasks ++ r) children lo' st' f' ∧ R lo' f'

/-- Only the states of iterations have changed. -/
def Within (lo : Nat) (f : FrameState V α) (lo' : Nat) (f' : FrameState V α) : Prop :=
  lo' = lo ∧ SameWindow f f'

/-- The window may have moved forward. -/
def Advances (lo : Nat) (f : FrameState V α) (lo' : Nat) (f' : FrameState V α) : Prop :=
  lo ≤ lo' ∧ Keeps f f'

variable {R R' : Nat → FrameState V α → Prop}
  {x : Option (FrameState V α × List (TaggedNode V))}

theorem Pushes.nil (h : Inv tasks children lo st f) (hR : R lo f) :
    Pushes R tasks children ready (some (f, ready)) :=
  ⟨f, [], lo, st, by rw [append_nil], by rwa [append_nil], hR⟩

theorem Pushes.mono (h : Pushes R tasks children ready x) (hR : ∀ lo f, R lo f → R' lo f) :
    Pushes R' tasks children ready x := by
  obtain ⟨f', r, lo', st', heq, h', hR'⟩ := h
  exact ⟨f', r, lo', st', heq, h', hR lo' f' hR'⟩

theorem Pushes.bind (h : Pushes R tasks children ready x)
    {k : FrameState V α × List (TaggedNode V) → Option (FrameState V α × List (TaggedNode V))}
    (hk : ∀ r lo st f, Inv (tasks ++ r) children lo st f → R lo f →
      Pushes R' (tasks ++ r) children (ready ++ r) (k (f, ready ++ r))) :
    Pushes R' tasks children ready (x.bind k) := by
  obtain ⟨f₁, r₁, lo₁, st₁, rfl, h₁, hR₁⟩ := h
  obtain ⟨f₂, r₂, lo₂, st₂, heq₂, h₂, hR₂⟩ := hk r₁ lo₁ st₁ f₁ h₁ hR₁
  refine ⟨f₂, r₁ ++ r₂, lo₂, st₂, ?_, by rwa [← append_assoc], hR₂⟩
  rw [bind_some, heq₂, append_assoc]

section

variable (h : Pushes (Within lo f) tasks children ready x)
include h

/-- A frame in which only the states of iterations have changed has its window as before. -/
theorem Pushes.advances (hd : Deferred f) : Pushes (Advances lo f) tasks children ready x :=
  h.mono fun _ _ ⟨hlo, hsame⟩ => ⟨Nat.le_of_eq hlo.symm, hsame.keeps hd⟩

/-- An activation follows one that has not moved the window. -/
theorem Pushes.bind_within
    {k : FrameState V α × List (TaggedNode V) → Option (FrameState V α × List (TaggedNode V))}
    (hk : ∀ r st f', Inv (tasks ++ r) children lo st f' → f'.iterationCount = f.iterationCount →
      Pushes (Within lo f') (tasks ++ r) children (ready ++ r) (k (f', ready ++ r))) :
    Pushes (Within lo f) tasks children ready (x.bind k) := by
  refine h.bind fun r lo₁ st₁ f₁ h₁ hR₁ => ?_
  obtain ⟨rfl, hsame⟩ := hR₁
  refine (hk r st₁ f₁ h₁ (by rw [hsame])).mono fun lo₂ f₂ hR₂ => ?_
  exact ⟨hR₂.1, hsame.trans hR₂.2⟩

end

namespace Inv

/-- Nodes are activated in a live iteration. -/
theorem activateIn (h : Inv tasks children lo st f) (hlo : lo ≤ i) (hhi : i ≤ f.iterationCount)
    {activate : IterationState V α → IterationState V α × List (TaggedNode V)}
    (hactivate : Counted i activate) (ready : List (TaggedNode V)) :
    Pushes (Within lo f) tasks children ready (f.activateIn i activate ready) := by
  refine ⟨f.modifyIteration i (activate (st i)).1, (activate (st i)).2, lo, _, ?_,
    h.modify hlo hhi ?_ ?_ ?_ fun _ _ => rfl, rfl, rfl⟩
  · rw [FrameState.activateIn, h.deref hlo hhi]
    rfl
  · rw [hactivate.ops, h.ops i hlo hhi, countP_append]
    have hall : (activate (st i)).2.countP (fun t => t.inputIter = i) =
        (activate (st i)).2.length :=
      countP_eq_length.mpr fun t ht => by simp [hactivate.iter _ t ht]
    rw [hall]
    rfl
  · rw [hactivate.frames, h.frames i hlo hhi]
  · intro j hj
    rw [countP_append]
    have hnone : (activate (st i)).2.countP (fun t => t.inputIter = j) = 0 :=
      countP_eq_zero.mpr fun t ht => by simp [hactivate.iter _ t ht, hj.symm]
    omega

variable [DecidableEq V] {g : GraphView V}

section

variable (h : Inv tasks children lo st f)
include h

theorem activateNodes (hlo : lo ≤ i) (hhi : i ≤ f.iterationCount) (u : V) (isDead : Bool)
    (outputs : List (Option α)) (ready : List (TaggedNode V)) :
    Pushes (Within lo f) tasks children ready (f.activateNodes g u isDead i outputs ready) :=
  h.activateIn hlo hhi (counted_activateNodes g i u isDead outputs) ready

/-- Values are made available to a live iteration. -/
theorem activateValues (hlo : lo ≤ i) (hhi : i ≤ f.iterationCount) (values : List (V × Option α))
    (ready : List (TaggedNode V)) :
    Pushes (Within lo f) tasks children ready (FrameState.activateValues g i values f ready) := by
  induction values generalizing f tasks st ready with
  | nil => exact .nil h ⟨rfl, .refl f⟩
  | cons x values ih =>
    refine (h.activateNodes hlo hhi x.1 x.2.isNone [x.2] ready).bind_within
      fun r st₁ f₁ h₁ hcount => ?_
    exact ih h₁ (by rwa [hcount]) (ready ++ r)

/-- A value is made available to live iterations. -/
theorem activateInAll (u : V) (entry : Option α) {iters : List Nat}
    (hiters : ∀ i ∈ iters, lo ≤ i ∧ i ≤ f.iterationCount) (ready : List (TaggedNode V)) :
    Pushes (Within lo f) tasks children ready
      (FrameState.activateInAll g u entry iters f ready) := by
  induction iters generalizing f tasks st ready with
  | nil => exact .nil h ⟨rfl, .refl f⟩
  | cons i iters ih =>
    obtain ⟨⟨hlo, hhi⟩, hrest⟩ := forall_mem_cons.mp hiters
    refine (h.activateNodes hlo hhi u entry.isNone [entry] ready).bind_within
      fun r st₁ f₁ h₁ hcount => ?_
    exact ih h₁ (by rwa [hcount]) (ready ++ r)

section

variable (hroom : f.numOutstandingIterations < f.maxParallelIterations)
include hroom

omit [DecidableEq V] in
/-- A new iteration is stored behind the window. -/
theorem push {s : IterationState V α} (hops : s.outstandingOps = 0)
    (hframes : s.outstandingFrameCount = 0) :
    Inv tasks children lo (Function.update st (f.iterationCount + 1) s)
      { f with
        iterationCount := f.iterationCount + 1
        iterations := RingBuffer.set f.iterations (f.iterationCount + 1)
          (some (f.iterationCount + 1, s))
        numOutstandingIterations := f.numOutstandingIterations + 1
        deadExits := [] } where
  ring := by
    have hlength := h.length
    have houtstanding := h.outstanding
    exact h.ring.push (by omega) s
  length := by
    rw [RingBuffer.length_set]
    exact h.length
  outstanding := by
    have houtstanding := h.outstanding
    dsimp only
    omega
  ops i hlo hhi := by
    rcases eq_or_ne i (f.iterationCount + 1) with rfl | hne
    · have hnone : (tasks.countP fun t => t.inputIter = f.iterationCount + 1) = 0 :=
        countP_eq_zero.mpr fun t ht => by
          have hlive := (h.tasksLive t ht).2
          simp only [decide_eq_true_eq]
          omega
      rw [update_self, hops, hnone]
      rfl
    · dsimp only at hhi
      rw [update_of_ne hne, h.ops i hlo (by omega)]
  frames i hlo hhi := by
    rcases eq_or_ne i (f.iterationCount + 1) with rfl | hne
    · have hnone : children.count (f.iterationCount + 1) = 0 := count_eq_zero.mpr fun hmem => by
          have hlive := (h.childrenLive _ hmem).2
          omega
      rw [update_self, hframes, hnone]
      rfl
    · dsimp only at hhi
      rw [update_of_ne hne, h.frames i hlo (by omega)]
  tasksLive t ht := ⟨(h.tasksLive t ht).1, Nat.le_succ_of_le (h.tasksLive t ht).2⟩
  childrenLive i hi := ⟨(h.childrenLive i hi).1, Nat.le_succ_of_le (h.childrenLive i hi).2⟩
  pending := h.pending

/-- An iteration is started if there may be one more. -/
theorem incrementIteration (ready : List (TaggedNode V)) :
    Pushes (fun lo' f' => lo' = lo ∧ Started f f') tasks children ready
      (f.incrementIteration g ready) := by
  have hle : lo ≤ f.iterationCount + 1 := h.ring.le
  have hfree : f.getIteration (f.iterationCount + 1) = none := h.ring.get_next
  have hset : ({ f with iterationCount := f.iterationCount + 1 } : FrameState V α).setIteration
      (f.iterationCount + 1) (.new g) =
        some (({ f with iterationCount := f.iterationCount + 1 } : FrameState V α).modifyIteration
          (f.iterationCount + 1) (.new g)) :=
    if_pos (by rw [isNone_iff_eq_none]; exact hfree)
  have hpush := h.push hroom (s := .new g) rfl rfl
  simp only [FrameState.incrementIteration, hset, activateNexts, bind_map]
  refine (hpush.activateValues hle (Nat.le_refl _) f.nextIterRoots ready).bind
    fun r lo₁ st₁ f₁ h₁ ⟨hlo₁, hsame₁⟩ => ?_
  subst hlo₁
  have hcount : f₁.iterationCount = f.iterationCount + 1 := by rw [hsame₁]
  refine ((h₁.withValues [] f₁.invValues f₁.deadExits).activateValues hle
    (Nat.le_of_eq hcount.symm) f₁.invValues (ready ++ r)).mono fun lo₂ f₂ ⟨hlo₂, hsame₂⟩ =>
      ⟨hlo₂, ?_⟩
  rw [hsame₂]
  rw [hsame₁]
  exact ⟨rfl, rfl, rfl, rfl⟩

end

omit [DecidableEq V] in
/-- The first iteration is deleted. -/
theorem pop (hle : lo ≤ f.iterationCount) (hops : (tasks.countP fun t => t.inputIter = lo) = 0)
    (hframes : children.count lo = 0) (hpending : f.numPendingInputs = 0) :
    Inv tasks children (lo + 1) st
      { f.clearIteration lo with
        numOutstandingIterations := f.numOutstandingIterations - 1 } where
  ring := h.ring.pop (Nat.lt_succ_of_le hle)
  length := by
    rw [clearIteration, RingBuffer.length_set]
    exact h.length
  outstanding := by
    have houtstanding := h.outstanding
    dsimp only [clearIteration]
    omega
  ops i hlo hhi := h.ops i (by omega) hhi
  frames i hlo hhi := h.frames i (by omega) hhi
  tasksLive t ht := by
    have hlive := h.tasksLive t ht
    have hne : t.inputIter ≠ lo := fun heq =>
      countP_eq_zero.mp hops t ht (decide_eq_true heq)
    exact ⟨by omega, hlive.2⟩
  childrenLive i hi := by
    have hlive := h.childrenLive i hi
    have hne : i ≠ lo := fun heq => count_eq_zero.mp hframes (heq ▸ hi)
    exact ⟨by omega, hlive.2⟩
  pending hne := absurd hpending hne

omit [DecidableEq V] in
/-- Whether an iteration is done. Only the first one can be. -/
theorem isIterationDone (hlo : lo ≤ i) (hhi : i ≤ f.iterationCount) :
    ∃ done, f.isIterationDone i = some done ∧
      (done = true → i = lo ∧ (tasks.countP fun t => t.inputIter = lo) = 0 ∧
        children.count lo = 0 ∧ f.numPendingInputs = 0) := by
  refine ⟨_, by rw [FrameState.isIterationDone, h.deref hlo hhi]; rfl, fun hdone => ?_⟩
  have hfirst : i = lo := by
    by_contra hne
    have hprevious : f.getIteration (i - 1) = some (i - 1, st (i - 1)) :=
      h.ring.get_eq (by omega) (by omega)
    simp only [hprevious, Bool.and_eq_true] at hdone
    rw [if_neg (by omega)] at hdone
    cases hdone.2
  subst hfirst
  have hops := h.ops i hlo hhi
  have hframes := h.frames i hlo hhi
  simp only [Bool.and_eq_true, decide_eq_true_eq] at hdone
  obtain ⟨⟨hdoneOps, hdoneFrames⟩, hdonePending⟩ := hdone
  refine ⟨rfl, by omega, by omega, ?_⟩
  by_contra hne
  have hzero := h.pending hne
  rw [if_pos hzero, decide_eq_true_eq] at hdonePending
  exact hne hdonePending

/-- Iterations that are done are deleted, and an iteration that waits for that is started. -/
theorem cleanupFrom (hdeferred : Deferred f) {fuel : Nat} (hlo : lo ≤ i)
    (hhi : i ≤ f.iterationCount + 1) (hfuel : f.iterationCount + 1 < i + fuel)
    (hfuel' : f.nextIterRoots ≠ [] → f.iterationCount + 2 < i + fuel)
    (ready : List (TaggedNode V)) :
    Pushes (Advances lo f) tasks children ready (FrameState.cleanupFrom g fuel i f ready) := by
  induction fuel generalizing f tasks lo st i ready with
  | zero => omega
  | succ fuel ih =>
    have hstop : Pushes (Advances lo f) tasks children ready (some (f, ready)) :=
      .nil h ⟨Nat.le_refl lo, .refl hdeferred⟩
    rw [FrameState.cleanupFrom]
    split
    · rename_i hle
      obtain ⟨done, hdone, hspec⟩ := h.isIterationDone hlo hle
      rw [hdone, bind_some]
      cases done with
      | false => exact hstop
      | true =>
        obtain ⟨rfl, hops, hframes, hpending⟩ := hspec rfl
        have hpop := h.pop hle hops hframes hpending
        rw [if_pos rfl, deleteIteration]
        split
        · rename_i hroots
          have hroots : f.nextIterRoots = [] := isEmpty_iff.mp hroots
          refine (ih hpop (fun hne => absurd hroots hne) (Nat.le_refl _) (Nat.succ_le_succ hle)
            (by dsimp only [clearIteration]; omega) (fun hne => absurd hroots hne) ready).mono
              fun lo₂ f₂ ⟨hle₂, hkeeps₂⟩ => ?_
          exact ⟨Nat.le_of_succ_le hle₂, hkeeps₂.deferred, hkeeps₂.max, hkeeps₂.pending⟩
        · rename_i hroots
          have hroots : f.nextIterRoots ≠ [] := fun heq => hroots (isEmpty_iff.mpr heq)
          have hfuel := hfuel' hroots
          have hfull := hdeferred hroots
          refine (hpop.incrementIteration (by dsimp only [clearIteration]; omega) ready).bind
            fun r lo₁ st₁ f₁ h₁ ⟨hlo₁, hstarted⟩ => ?_
          subst hlo₁
          have hcount : f₁.iterationCount = f.iterationCount + 1 := hstarted.count
          refine (ih h₁ hstarted.deferred (Nat.le_refl _) (by omega) (by omega)
            (fun hne => absurd hstarted.roots hne) (ready ++ r)).mono
              fun lo₂ f₂ ⟨hle₂, hkeeps₂⟩ => ?_
          exact ⟨Nat.le_of_succ_le hle₂, hkeeps₂.deferred, hkeeps₂.max.trans hstarted.max,
            hkeeps₂.pending.trans hstarted.pending⟩
    · exact hstop

end

/-- The counts of a live iteration have changed, and iterations that are done are deleted. -/
theorem cleanupIterations {s : IterationState V α}
    (h : Inv tasks children lo st (f.modifyIteration i s))
    (hdeferred : Deferred f) (hlo : lo ≤ i) (hhi : i ≤ f.iterationCount)
    (ready : List (TaggedNode V)) : Pushes (Advances lo f) tasks children ready
      ((f.modifyIteration i s).cleanupIterations g i ready) :=
  (h.cleanupFrom hdeferred hlo (Nat.le_succ_of_le hhi) (by omega) (fun _ => by omega) ready).mono
    fun _ _ ⟨hle, hkeeps⟩ => ⟨hle, hkeeps.deferred, hkeeps.max, hkeeps.pending⟩

/-- A node of the frame is done. -/
theorem decrementOutstandingOps {t : TaggedNode V} (h : Inv (t :: tasks) children lo st f)
    (hdeferred : Deferred f) (ready : List (TaggedNode V)) :
    Pushes (Advances lo f) tasks children ready
      ((f.decrementOutstandingOps g t.inputIter ready).map fun x => (x.1, x.2.1)) := by
  obtain ⟨hlo, hhi⟩ := h.tasksLive t mem_cons_self
  have hops := h.ops _ hlo hhi
  rw [countP_cons_of_pos (by simp)] at hops
  have hmodify : Inv tasks children lo _ (f.modifyIteration t.inputIter { st t.inputIter with
      outstandingOps := (st t.inputIter).outstandingOps - 1 }) :=
    h.modify hlo hhi (by dsimp only; omega) (h.frames _ hlo hhi)
      (fun j hj => by rw [countP_cons_of_neg (by simpa using hj.symm)]) fun _ _ => rfl
  rw [FrameState.decrementOutstandingOps, h.deref hlo hhi, bind_some]
  dsimp only
  split
  · exact .nil hmodify ⟨Nat.le_refl lo, hdeferred, rfl, rfl⟩
  · rw [Option.map_map]
    have hcleanup := hmodify.cleanupIterations (g := g) hdeferred hlo hhi ready
    rwa [← map_id' (x := FrameState.cleanupIterations ..)] at hcleanup

section

variable (h : Inv tasks children lo st f) (hdeferred : Deferred f)
include h hdeferred

/-- A next-iteration node of the frame completes. -/
theorem propagateNextIteration {t : TaggedNode V} (hmem : t ∈ tasks) (outputs : List (Option α))
    (ready : List (TaggedNode V)) : Pushes (Advances lo f) tasks children ready
      (f.propagateNextIteration g t outputs ready) := by
  obtain ⟨hlo, hhi⟩ := h.tasksLive t hmem
  have hroom := h.ring.room
  have hlength := h.length
  have houtstanding := h.outstanding
  rw [FrameState.propagateNextIteration]
  split
  · exact .nil h ⟨Nat.le_refl lo, .refl hdeferred⟩
  split
  · rename_i hfull
    exact .nil (h.withValues _ _ _) ⟨Nat.le_refl lo, fun _ => hfull.2, rfl, rfl⟩
  by_cases hlast : t.inputIter = f.iterationCount
  · rw [if_pos hlast]
    refine (h.incrementIteration (by omega) ready).bind fun r lo₁ st₁ f₁ h₁ ⟨hlo₁, hstarted⟩ => ?_
    subst hlo₁
    have hcount := hstarted.count
    refine (h₁.activateNodes (by omega) (by omega) t.node t.isDead outputs (ready ++ r)).mono
      fun lo₂ f₂ ⟨hlo₂, hsame⟩ => ?_
    have hkeeps : Keeps _ _ := ⟨hstarted.deferred, hstarted.max, hstarted.pending⟩
    exact ⟨Nat.le_of_eq hlo₂.symm, hkeeps.trans (hsame.keeps hstarted.deferred)⟩
  · rw [if_neg hlast]
    exact (h.activateNodes (by omega) (by omega) t.node t.isDead outputs ready).advances hdeferred

theorem activateSuccessors {t : TaggedNode V} (hmem : t ∈ tasks) (outputs : List (Option α))
    (ready : List (TaggedNode V)) :
    Pushes (Advances lo f) tasks children ready (f.activateSuccessors g t outputs ready) := by
  rw [FrameState.activateSuccessors]
  split
  · exact .nil h ⟨Nat.le_refl lo, .refl hdeferred⟩
  · split
    · exact .nil (h.withValues _ _ _) ⟨Nat.le_refl lo, hdeferred, rfl, rfl⟩
    · exact .nil h ⟨Nat.le_refl lo, .refl hdeferred⟩
  · exact h.propagateNextIteration hdeferred hmem outputs ready
  · obtain ⟨hlo, hhi⟩ := h.tasksLive t hmem
    exact (h.activateNodes hlo hhi t.node t.isDead outputs ready).advances hdeferred

end

/-- A node of the frame completes. -/
theorem propagateOutputs {t : TaggedNode V} (h : Inv (t :: tasks) children lo st f)
    (hdeferred : Deferred f) (outputs : List (Option α)) (ready : List (TaggedNode V)) :
    Pushes (Advances lo f) tasks children ready
      ((f.propagateOutputs g t outputs ready).map fun x => (x.1, x.2.1)) := by
  obtain ⟨f₁, r₁, lo₁, st₁, heq₁, h₁, hle₁, hkeeps₁⟩ :=
    h.activateSuccessors hdeferred mem_cons_self outputs ready
  obtain ⟨f₂, r₂, lo₂, st₂, heq₂, h₂, hle₂, hkeeps₂⟩ :=
    h₁.decrementOutstandingOps hkeeps₁.deferred (ready ++ r₁)
  refine ⟨f₂, r₁ ++ r₂, lo₂, st₂, ?_, by rwa [← append_assoc], Nat.le_trans hle₁ hle₂,
    hkeeps₁.trans hkeeps₂⟩
  rw [FrameState.propagateOutputs, heq₁, bind_some, heq₂, append_assoc]

/-- As long as an input is missing, all iterations that were started are live. -/
theorem activateEntered (h : Inv tasks children 0 st f) (hdeferred : Deferred f) (u : V)
    (isDead : Bool) (outputs : List (Option α)) (ready : List (TaggedNode V)) :
    Pushes (Advances 0 f) tasks children ready (f.activateEntered g u isDead outputs ready) := by
  rw [FrameState.activateEntered]
  split
  · have hrange : ∀ i ∈ range (f.iterationCount + 1), 0 ≤ i ∧ i ≤ f.iterationCount :=
      fun i hi => ⟨Nat.zero_le i, Nat.le_of_lt_succ (mem_range.mp hi)⟩
    refine ((h.withValues f.nextIterRoots (f.invValues ++ [(u, (outputs[0]?).join)])
      f.deadExits).activateInAll u (outputs[0]?).join hrange ready).mono fun lo₁ f₁ ⟨_, hsame⟩ => ?_
    have hkeeps := hsame.keeps hdeferred
    exact ⟨Nat.zero_le lo₁, hkeeps.deferred, hkeeps.max, hkeeps.pending⟩
  · exact (h.activateNodes (Nat.le_refl 0) (Nat.zero_le _) u isDead outputs ready).advances
      hdeferred

end Inv

end FrameState

/-! ## Every run -/

namespace FrameRun

variable {s s' : FrameRun V α κ} {P : Nat}

/-- The live iterations of a frame are those from `lo` to `iteration_count`. They are at most as
many as the frame may have in parallel and occupy their own slots, and all other slots are
empty. The nodes that have not completed and the child frames belong to live iterations, which
count them. As long as an input of the frame is missing, no iteration has been deleted. -/
structure Windowed (P lo : Nat) (s : FrameRun V α κ) : Prop where
  length : s.frame.iterations.length = P + 1
  live : ∀ i, lo ≤ i → i ≤ s.frame.iterationCount →
    ∃ st, s.frame.iterations[i % (P + 1)]? = some (some (i, st)) ∧
      st.outstandingOps = s.tasks.countP (fun t => t.inputIter = i) ∧
      st.outstandingFrameCount = s.children.countP fun c => c.2 = i
  only : ∀ j i st, s.frame.iterations[j]? = some (some (i, st)) →
    lo ≤ i ∧ i ≤ s.frame.iterationCount ∧ j = i % (P + 1)
  number : s.frame.numOutstandingIterations = s.frame.iterationCount + 1 - lo
  bound : s.frame.numOutstandingIterations ≤ P
  tasks : ∀ t ∈ s.tasks, lo ≤ t.inputIter ∧ t.inputIter ≤ s.frame.iterationCount
  children : ∀ c ∈ s.children, lo ≤ c.2 ∧ c.2 ≤ s.frame.iterationCount
  pending : s.pendingEnters ≠ [] → lo = 0

/-- The invariant of a frame and what goes on in it. -/
structure Inv (P lo : Nat) (s : FrameRun V α κ) : Prop where
  frame : ∃ st, s.frame.Inv s.tasks (s.children.map Prod.snd) lo st
  deferred : s.frame.Deferred
  max : s.frame.maxParallelIterations = P
  pending : s.frame.numPendingInputs = s.pendingEnters.length

theorem Inv.windowed (h : Inv P lo s) : Windowed P lo s := by
  obtain ⟨st, hframe⟩ := h.frame
  have hlength : s.frame.iterations.length = P + 1 := by rw [hframe.length, h.max]
  have hcount (i : Nat) : (s.children.map Prod.snd).count i =
      s.children.countP fun c => c.2 = i := by
    rw [count, countP_map]
    rfl
  refine ⟨hlength, fun i hlo hhi => ?_, fun j i st hj => ?_, hframe.outstanding, ?_,
    hframe.tasksLive, fun c hc => ?_, fun hne => ?_⟩
  · rw [← hlength]
    refine ⟨st i, hframe.ring.live i hlo (Nat.lt_succ_of_le hhi), hframe.ops i hlo hhi, ?_⟩
    rw [hframe.frames i hlo hhi, hcount]
  · rw [← hlength]
    obtain ⟨hlo, hhi, hslot⟩ := hframe.ring.only j i st hj
    exact ⟨hlo, Nat.le_of_lt_succ hhi, hslot⟩
  · have hroom := hframe.ring.room
    have houtstanding := hframe.outstanding
    omega
  · exact hframe.childrenLive c.2 (mem_map_of_mem hc)
  · have hpos := length_pos_of_ne_nil hne
    exact hframe.pending (by rw [h.pending]; omega)

variable [DecidableEq V] {g : GraphView V}

theorem inv_new (hP : 1 ≤ P) (enters : List V) :
    Inv P 0 (new g P enters : FrameRun V α κ) where
  frame := by
    obtain ⟨n, rfl⟩ : ∃ n, P = n + 1 := ⟨P - 1, by omega⟩
    refine ⟨fun _ => .new g, RingBuffer.window_single _, by simp [new], rfl, fun i _ _ => rfl,
      fun i _ _ => rfl, fun t ht => absurd ht not_mem_nil,
      fun i hi => absurd hi not_mem_nil, fun _ => rfl⟩
  deferred hne := absurd rfl hne
  max := rfl
  pending := rfl

omit [DecidableEq V] in
/-- The nodes that a section pushes are run, and the child frames may change. -/
theorem Inv.of_pushes (h : Inv P lo s) {tasks : List (TaggedNode V)} {children : List (κ × Nat)}
    {x : Option (FrameState V α × List (TaggedNode V))}
    (hx : FrameState.Pushes (FrameState.Advances lo s.frame) tasks (children.map Prod.snd) [] x) :
    ∃ s' lo', (x.map fun x => { s with
      frame := x.1, tasks := tasks ++ x.2, children := children }) = some s' ∧
        lo ≤ lo' ∧ Inv P lo' s' := by
  obtain ⟨f', r, lo', st', rfl, h', hle, hkeeps⟩ := hx
  exact ⟨_, lo', rfl, hle, ⟨st', h'⟩, hkeeps.deferred, hkeeps.max.trans h.max,
    hkeeps.pending.trans h.pending⟩

omit [DecidableEq V] in
/-- Nodes are activated in the iteration of a child frame. -/
theorem Inv.activate (h : Inv P lo s) {child : κ × Nat} (hmem : child ∈ s.children)
    {activate : IterationState V α → IterationState V α × List (TaggedNode V)}
    (hactivate : Counted child.2 activate) :
    FrameState.Pushes (FrameState.Advances lo s.frame) s.tasks (s.children.map Prod.snd) []
      (s.frame.activateIn child.2 activate []) := by
  obtain ⟨st, hframe⟩ := h.frame
  obtain ⟨hlo, hhi⟩ := hframe.childrenLive child.2 (mem_map_of_mem hmem)
  exact (hframe.activateIn hlo hhi hactivate []).advances h.deferred

variable [DecidableEq κ]

section

variable (h : Inv P lo s)
include h

theorem Inv.findOrCreateChild {t : TaggedNode V} (hmem : t ∈ s.tasks) (child : κ) :
    ∃ s' lo', s.step g (.findOrCreateChild t child) = some s' ∧ lo ≤ lo' ∧
      Inv P lo' s' := by
  obtain ⟨st, hframe⟩ := h.frame
  obtain ⟨hlo, hhi⟩ := hframe.tasksLive t hmem
  rw [step]
  split
  · exact ⟨s, lo, rfl, Nat.le_refl lo, h⟩
  rw [FrameState.addChildFrame, hframe.deref hlo hhi]
  have hframes : (st t.inputIter).outstandingFrameCount + 1 =
      (((child, t.inputIter) :: s.children).map Prod.snd).count t.inputIter := by
    rw [hframe.frames _ hlo hhi, map_cons, count_cons_self]
    rfl
  have hchildren (j : Nat) (hj : j ≠ t.inputIter) :
      (((child, t.inputIter) :: s.children).map Prod.snd).count j =
        (s.children.map Prod.snd).count j := by
    rw [map_cons, count_cons_of_ne hj.symm]
  exact ⟨_, lo, rfl, Nat.le_refl lo, ⟨_, hframe.modify hlo hhi (hframe.ops _ hlo hhi) hframes
    (fun _ _ => rfl) hchildren⟩, h.deferred, h.max, h.pending⟩

theorem Inv.childDone {child : κ × Nat} (hmem : child ∈ s.children) :
    ∃ s' lo', s.step g (.childDone child) = some s' ∧ lo ≤ lo' ∧ Inv P lo' s' := by
  obtain ⟨st, hframe⟩ := h.frame
  obtain ⟨hlo, hhi⟩ := hframe.childrenLive child.2 (List.mem_map_of_mem hmem)
  have hperm : (s.children.map Prod.snd).Perm (child.2 :: (s.children.erase child).map Prod.snd) :=
    (perm_cons_erase hmem).map Prod.snd
  have hframe := hframe.perm (.refl _) hperm
  have hframes := hframe.frames _ hlo hhi
  rw [count_cons_self] at hframes
  have hmodify : FrameState.Inv s.tasks ((s.children.erase child).map Prod.snd) lo _
      (s.frame.modifyIteration child.2 { st child.2 with
        outstandingFrameCount := (st child.2).outstandingFrameCount - 1 }) :=
    hframe.modify hlo hhi (hframe.ops _ hlo hhi) (by dsimp only; omega) (fun _ _ => rfl)
      fun j hj => by rw [count_cons_of_ne hj.symm]
  rw [step, FrameState.cleanupFramesIterations, hframe.deref hlo hhi, bind_some]
  rw [Option.map_map]
  exact h.of_pushes (hmodify.cleanupIterations h.deferred hlo hhi [])

theorem Inv.complete {t : TaggedNode V} (hmem : t ∈ s.tasks) (outputs : List (Option α)) :
    ∃ s' lo', s.step g (.complete t outputs) = some s' ∧ lo ≤ lo' ∧ Inv P lo' s' := by
  obtain ⟨st, hframe⟩ := h.frame
  have hframe := hframe.perm (List.perm_cons_erase hmem) (.refl _)
  have hstep := h.of_pushes (hframe.propagateOutputs (g := g) h.deferred outputs [])
  rw [Option.map_map] at hstep
  exact hstep

theorem Inv.enter {u : V} (hmem : u ∈ s.pendingEnters) (isDead : Bool) (outputs : List (Option α)) :
    ∃ s' lo', s.step g (.enter u isDead outputs) = some s' ∧ lo ≤ lo' ∧ Inv P lo' s' := by
  obtain ⟨st, hframe⟩ := h.frame
  have hlength := length_erase_of_mem hmem
  have hpos := length_pos_of_mem hmem
  have hpending := h.pending
  obtain rfl := hframe.pending (by omega)
  obtain ⟨f', r, lo', st', heq, h', hle, hkeeps⟩ :=
    hframe.activateEntered h.deferred u isDead outputs []
  have hpending' := hkeeps.pending
  refine ⟨_, lo', by rw [step, FrameState.enter, heq]; rfl, hle, ⟨st', ?_⟩, hkeeps.deferred,
    hkeeps.max.trans h.max, ?_⟩
  · exact ⟨h'.ring, h'.length, h'.outstanding, h'.ops, h'.frames, h'.tasksLive, h'.childrenLive,
      fun _ => h'.pending (by omega)⟩
  · dsimp only
    omega

/-- Every section returns, keeps the invariant and never moves the window back. -/
theorem Inv.step {move : FrameMove V α κ} (henabled : Enabled s move) :
    ∃ s' lo', FrameRun.step g s move = some s' ∧ lo ≤ lo' ∧ Inv P lo' s' := by
  cases move with
  | enter u isDead outputs => exact h.enter henabled isDead outputs
  | complete t outputs => exact h.complete henabled outputs
  | findOrCreateChild t child => exact h.findOrCreateChild henabled child
  | childExit child u outputs =>
    exact h.of_pushes (h.activate henabled (counted_activateNodes g child.2 u false outputs))
  | deleteChild child deadExits =>
    exact h.of_pushes (h.activate henabled (counted_propagateDeadExits g child.2
      (deadExits.flatMap fun u => (g.item u).outputEdges)))
  | childDone child => exact h.childDone henabled

end

/-- In every interleaving the sections of a frame return, the live iterations form a window that
the circular buffer has room for, and the window only moves forward. -/
theorem windowed_of_run (g : GraphView V) (hP : 1 ≤ P) (enters : List V)
    {moves : List (FrameMove V α κ)}
    (hmoves : Run.Admissible (FrameRun.step g) Enabled (new g P enters) moves) :
    ∃ s lo, Run.run (FrameRun.step g) (new g P enters) moves = some s ∧ Windowed P lo s ∧
      ∀ move, Enabled s move →
        ∃ s' lo', FrameRun.step g s move = some s' ∧ lo ≤ lo' ∧ Windowed P lo' s' := by
  obtain ⟨s, hrun, lo, hs⟩ := Run.run_total (I := fun s => ∃ lo, Inv P lo s)
    (fun s move ⟨lo, hs⟩ henabled => by
      obtain ⟨s', lo', heq, -, hs'⟩ := hs.step henabled
      exact ⟨s', heq, lo', hs'⟩) ⟨0, inv_new hP enters⟩ hmoves
  refine ⟨s, lo, hrun, hs.windowed, fun move henabled => ?_⟩
  obtain ⟨s', lo', heq, hle, hs'⟩ := hs.step henabled
  exact ⟨s', lo', heq, hle, hs'.windowed⟩

/-- A loop of a merge node, a node of its body and a next-iteration node. -/
def loop : GraphView (Fin 4) where
  nodes := [0, 1, 2, 3]
  nodup := by decide
  complete := by decide
  item
    | 0 => ⟨.enter false, 1, 1, 0, false, false, [⟨1, some 0, 0⟩]⟩
    | 1 => ⟨.merge, 2, 2, 1, false, false, [⟨2, some 0, 0⟩]⟩
    | 2 => ⟨.other, 1, 1, 3, false, false, [⟨3, some 0, 0⟩]⟩
    | 3 => ⟨.nextIteration, 1, 1, 4, false, false, [⟨1, some 0, 1⟩]⟩

/-- A value enters the loop and goes through its first iteration. -/
def firstIteration : List (FrameMove (Fin 4) Unit Unit) :=
  [.enter 0 false [some ()], .complete ⟨1, 0, false⟩ [some ()], .complete ⟨2, 0, false⟩ [some ()],
    .complete ⟨3, 0, false⟩ [some ()]]

/-- The window after the first iteration of a loop. -/
theorem windowed_firstIteration :
    ∃ s lo, Run.run (FrameRun.step loop) (new loop 1 [0]) firstIteration = some s ∧
      Windowed 1 lo s ∧ ∀ move, Enabled s move →
        ∃ s' lo', FrameRun.step loop s move = some s' ∧ lo ≤ lo' ∧ Windowed 1 lo' s' :=
  windowed_of_run loop (by decide) [0] (by decide +kernel)

end FrameRun

end Tension.Executor
