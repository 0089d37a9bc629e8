import Mathlib
import Tension.Models.Executor.Process

/-!
# Where the nodes of the executor are

Every node that became ready waits somewhere until its outputs are propagated. It is dispatched
once, and it is processed once. The number of outstanding operations is the number of nodes that
are dispatched and not processed, together with the ready nodes that were counted already.
-/

namespace Tension.Executor

open List Option

variable {V α : Type}

/-! ## The nodes of an activity -/

/-- The node whose kernel is running. -/
def Phase.running? : Phase V → List (TaggedNode V)
  | .running t => [t]
  | _ => []

/-- The ready nodes that are not scheduled. -/
def Phase.ready : Phase V → List (TaggedNode V)
  | .propagated _ ready | .counted ready => ready
  | _ => []

/-- The node whose outputs are propagated and that is not counted. -/
def Phase.uncounted : Phase V → List (TaggedNode V)
  | .propagated t _ => [t]
  | _ => []

/-- The nodes that the number of outstanding operations contains. -/
def Phase.outstanding : Phase V → List (TaggedNode V)
  | .idle => []
  | .running t | .propagated t _ => [t]
  | .counted ready => ready

/-- What remains to be done in a phase. A callback does not leave its kernel to another one. -/
def Phase.work (isCallback : Bool) : Phase V → Nat
  | .idle => 0
  | .running _ => if isCallback then 3 else 4
  | .propagated _ ready => 2 + 8 * ready.length
  | .counted ready => 1 + 8 * ready.length

namespace Activity

variable (a : Activity V)

/-- The queue of the thread. -/
def queue : List (TaggedNode V) := a.inlineReady.getD []

/-- The nodes whose outputs are not propagated. -/
def waiting : List (TaggedNode V) := a.queue ++ a.phase.running? ++ a.phase.ready

/-- The ready nodes that are not dispatched. -/
def undispatched : List (TaggedNode V) := a.phase.ready

/-- The nodes that are not processed although their outputs are propagated. -/
def unprocessed : List (TaggedNode V) := a.phase.uncounted

/-- The operations that are outstanding. -/
def outstanding : List (TaggedNode V) := a.queue ++ a.phase.outstanding

/-- A bound for the steps of an activity. -/
def work (a : Activity V) : Nat :=
  (match a.inlineReady with
    | none => 0
    | some queue => 1 + 5 * queue.length) + a.phase.work a.inlineReady.isNone

end Activity

namespace ExecutorState

variable (s : ExecutorState V α)

/-- The nodes whose outputs are not propagated. -/
def waiting : List (TaggedNode V) :=
  s.pool ++ s.activities.flatMap Activity.waiting

/-- The ready nodes that are not dispatched. -/
def undispatched : List (TaggedNode V) :=
  s.activities.flatMap Activity.undispatched

/-- The nodes that are not processed although their outputs are propagated. -/
def unprocessed : List (TaggedNode V) :=
  s.activities.flatMap Activity.unprocessed

/-- The operations that are outstanding. -/
def outstanding : List (TaggedNode V) :=
  s.pool ++ s.activities.flatMap Activity.outstanding

/-- The calls of `Finish` that were made or will be made. -/
def finishes : Nat := s.finished + s.activities.countP Activity.completed

/-- The books of the executor are in order. -/
structure Ledger (s : ExecutorState V α) : Prop where
  callbacks : ∀ a ∈ s.activities, a.inlineReady = none → a.phase ≠ .idle
  readied : s.readied.Perm (s.waiting ++ s.propagated.map Prod.fst)
  dispatched : s.readied.Perm (s.dispatched ++ s.undispatched)
  processed : (s.propagated.map Prod.fst).Perm (s.processed ++ s.unprocessed)
  outstanding : s.numOutstandingOps = s.outstanding.length
  finishes : s.finishes = if s.numOutstandingOps = 0 ∧ s.processed ≠ [] then 1 else 0

/-- A step only moves nodes from one place to another. -/
structure Rearranged (s s' : ExecutorState V α) : Prop where
  rootFrame : s'.rootFrame = s.rootFrame
  readied : s'.readied = s.readied
  propagated : s'.propagated = s.propagated
  processed : s'.processed = s.processed
  numOutstandingOps : s'.numOutstandingOps = s.numOutstandingOps
  callbacks : (∀ a ∈ s.activities, a.inlineReady = none → a.phase ≠ .idle) →
    ∀ a ∈ s'.activities, a.inlineReady = none → a.phase ≠ .idle
  waiting : s'.waiting.Perm s.waiting
  dispatched : (s'.dispatched ++ s'.undispatched).Perm (s.dispatched ++ s.undispatched)
  unprocessed : s'.unprocessed.Perm s.unprocessed
  outstanding : s'.outstanding.Perm s.outstanding
  finishes : s'.finishes = s.finishes

theorem Ledger.rearrange {s s' : ExecutorState V α} (h : Ledger s) (hr : Rearranged s s') :
    Ledger s' where
  callbacks := hr.callbacks h.callbacks
  readied := by
    rw [hr.readied, hr.propagated]
    exact h.readied.trans (hr.waiting.symm.append_right _)
  dispatched := by
    rw [hr.readied]
    exact h.dispatched.trans hr.dispatched.symm
  processed := by
    rw [hr.propagated, hr.processed]
    exact h.processed.trans (hr.unprocessed.symm.append_left _)
  outstanding := by rw [hr.numOutstandingOps, h.outstanding, hr.outstanding.length_eq]
  finishes := by rw [hr.finishes, hr.numOutstandingOps, hr.processed, h.finishes]

/-! ## Scheduling -/

/-- What the loop of `ScheduleReady` does with the nodes. -/
theorem scheduleLoop_perm (g : GraphView V) (ready toRunner queue : List (TaggedNode V))
    (expensive : Option (TaggedNode V)) : ∃ added,
      (scheduleLoop g ready toRunner queue expensive).2.1 = queue ++ added ∧
      ((scheduleLoop g ready toRunner queue expensive).1 ++
        (scheduleLoop g ready toRunner queue expensive).2.2.toList ++ added).Perm
          (toRunner ++ expensive.toList ++ ready) := by
  induction ready generalizing toRunner queue expensive with
  | nil => exact ⟨[], (append_nil _).symm, .refl _⟩
  | cons t ready ih =>
    rw [scheduleLoop]
    split
    · obtain ⟨added, hqueue, hperm⟩ := ih toRunner (queue ++ [t]) expensive
      refine ⟨t :: added, by rw [hqueue, append_assoc, singleton_append], ?_⟩
      exact perm_middle.trans ((hperm.cons t).trans perm_middle.symm)
    · obtain ⟨added, hqueue, hperm⟩ := ih (toRunner ++ expensive.toList) queue (some t)
      refine ⟨added, hqueue, hperm.trans ?_⟩
      rw [toList_some, append_assoc _ [t], singleton_append]

/-- `ScheduleReady` gives every ready node to the runner or to the thread. -/
theorem scheduleReady_perm (g : GraphView V) (ready queue : List (TaggedNode V)) : ∃ added,
    (scheduleReady g ready (some queue)).2 = queue ++ added ∧
      ((scheduleReady g ready (some queue)).1 ++ added).Perm ready := by
  obtain ⟨added, hqueue, hperm⟩ := scheduleLoop_perm g ready [] queue none
  rw [scheduleReady]
  rcases hloop : scheduleLoop g ready [] queue none with ⟨toRunner, inlineReady, _ | t⟩
  · rw [hloop] at hqueue hperm
    exact ⟨added, hqueue, by simpa using hperm⟩
  simp only [hloop] at hqueue hperm ⊢
  split
  · rename_i hempty
    rw [isEmpty_iff.mp hempty] at hqueue
    obtain ⟨rfl, rfl⟩ := append_eq_nil_iff.mp hqueue.symm
    exact ⟨[t], rfl, by simpa using hperm⟩
  · exact ⟨added, hqueue, hperm⟩

/-! ## Steps that only move nodes -/

attribute [local simp] Activity.queue Activity.outstanding Activity.waiting Activity.undispatched
  Phase.ready Phase.outstanding Phase.running? scheduleReady ExecutorState.count become

section Steps

variable [DecidableEq V] {g : GraphView V} {s s' : ExecutorState V α} {a : Activity V}

variable {as : List (Activity V)} {t : TaggedNode V} {completed : Bool}
  {ready : List (TaggedNode V)} {inlineReady : Option (List (TaggedNode V))}

/-- An activity is replaced by others, and the nodes of it go to them and to a list. -/
theorem flatMap_replaced {others : List (Activity V)} {l m : List (TaggedNode V)}
    (f : Activity V → List (TaggedNode V)) (h : a ∈ others)
    (hperm : (m ++ as.flatMap f).Perm (l ++ f a)) :
    (m ++ (as ++ others.erase a).flatMap f).Perm (l ++ others.flatMap f) := by
  have herase : (others.flatMap f).Perm (f a ++ (others.erase a).flatMap f) :=
    (perm_cons_erase h).flatMap_right f
  rw [flatMap_append, ← append_assoc]
  refine (hperm.append_right _).trans ?_
  rw [append_assoc]
  exact herase.symm.append_left l

/-- An activity is replaced by others, and nodes are given to the runner. -/
theorem Rearranged.replace {pool dispatched : List (TaggedNode V)}
    {finished : Nat} (h : a ∈ s.activities)
    (hcallbacks : ∀ b ∈ as, b.inlineReady = none → b.phase ≠ .idle)
    (hwaiting : (pool ++ as.flatMap Activity.waiting).Perm (s.pool ++ a.waiting))
    (hdispatched : (dispatched ++ as.flatMap Activity.undispatched).Perm
      (s.dispatched ++ a.undispatched))
    (hunprocessed : (as.flatMap Activity.unprocessed).Perm a.unprocessed)
    (houtstanding : (pool ++ as.flatMap Activity.outstanding).Perm (s.pool ++ a.outstanding))
    (hfinishes : finished + as.countP Activity.completed =
      s.finished + [a].countP Activity.completed) :
    Rearranged s { s.become a as with pool, dispatched, finished } where
  rootFrame := rfl
  readied := rfl
  propagated := rfl
  processed := rfl
  numOutstandingOps := rfl
  callbacks hs b hb := (mem_append.mp hb).elim (hcallbacks b) fun hb =>
    hs b (mem_of_mem_erase hb)
  waiting := flatMap_replaced _ h hwaiting
  dispatched := flatMap_replaced _ h hdispatched
  unprocessed := flatMap_replaced (l := []) (m := []) _ h hunprocessed
  outstanding := flatMap_replaced _ h houtstanding
  finishes := by
    have herase := (perm_cons_erase h).countP_eq Activity.completed
    rw [← singleton_append, countP_append] at herase
    simp only [ExecutorState.finishes, ExecutorState.become, countP_append]
    omega

/-- The runner calls `Process`. -/
theorem rearranged_start (h : t ∈ s.pool) :
    Rearranged s { s with
      pool := s.pool.erase t
      activities := ⟨some [t], .idle, false⟩ :: s.activities } := by
  have hpool (f : Activity V → List (TaggedNode V)) (hf : f ⟨some [t], .idle, false⟩ = [t]) :
      (s.pool.erase t ++ (⟨some [t], .idle, false⟩ :: s.activities).flatMap f).Perm
        (s.pool ++ s.activities.flatMap f) := by
    rw [flatMap_cons, hf]
    exact perm_middle.trans ((perm_cons_erase h).symm.append_right _)
  refine ⟨rfl, rfl, rfl, rfl, rfl, fun hs a ha => ?_, hpool _ rfl, .refl _,
    .refl _, hpool _ rfl, rfl⟩
  rcases mem_cons.mp ha with rfl | ha
  · nofun
  · exact hs a ha

theorem rearranged_pop {queue : List (TaggedNode V)}
    (h : ⟨some (t :: queue), .idle, completed⟩ ∈ s.activities) :
    Rearranged s (s.become ⟨some (t :: queue), .idle, completed⟩
      [⟨some queue, .running t, completed⟩]) := by
  have hqueue : (s.pool ++ (queue ++ [t])).Perm (s.pool ++ t :: queue) :=
    (perm_append_singleton t queue).append_left s.pool
  refine Rearranged.replace h ?_ ?_ (.refl _) (.refl _) ?_ rfl
  · simp
  · simpa using hqueue
  · simpa using hqueue

theorem rearranged_launch {queue : List (TaggedNode V)}
    (h : ⟨some queue, .running t, completed⟩ ∈ s.activities) :
    Rearranged s (s.become ⟨some queue, .running t, completed⟩
      [⟨none, .running t, false⟩, ⟨some queue, .idle, completed⟩]) := by
  have hqueue : (s.pool ++ (queue ++ [t])).Perm (s.pool ++ t :: queue) :=
    (perm_append_singleton t queue).append_left s.pool
  refine Rearranged.replace h ?_ ?_ (.refl _) (.refl _) ?_ ?_
  · simp
  · simpa using hqueue.symm
  · simpa using hqueue.symm
  · simp

/-- The ready nodes are dispatched. -/
theorem rearranged_schedule (h : ⟨inlineReady, .counted ready, completed⟩ ∈ s.activities) :
    Rearranged s (s.schedule g ⟨inlineReady, .counted ready, completed⟩ ready) := by
  cases inlineReady with
  | none =>
    refine Rearranged.replace h (by simp) ?_ ?_ (.refl _) ?_ ?_
    · simp
    · simp
    · simp
    · simp
  | some queue =>
    obtain ⟨added, hqueue, hperm⟩ := scheduleReady_perm g ready queue
    have hmoved : ((scheduleReady g ready (some queue)).1 ++ (queue ++ added)).Perm
        (queue ++ ready) :=
      (perm_append_comm_assoc ..).trans (hperm.append_left queue)
    simp only [schedule, hqueue]
    refine Rearranged.replace h (by simp) ?_ ?_ (.refl _) ?_ rfl
    · simpa using hmoved.append_left s.pool
    · simpa using hperm.append_left s.dispatched
    · simpa using hmoved.append_left s.pool

theorem rearranged_finish (h : ⟨some [], .idle, completed⟩ ∈ s.activities) :
    Rearranged s { s.become ⟨some [], .idle, completed⟩ [] with
      finished := s.finished + if completed then 1 else 0 } := by
  refine Rearranged.replace h (by simp) ?_ (.refl _) (.refl _) ?_ ?_
  · simp
  · simp
  · simp

/-! ## Steps that change the books -/

/-- The outputs of a node are propagated. -/
theorem Ledger.propagate {outputs : List (Option α)} {rootFrame : Option (FrameState V α)}
    (hl : Ledger s) (h : ⟨inlineReady, .running t, completed⟩ ∈ s.activities) :
    Ledger { s.become ⟨inlineReady, .running t, completed⟩
        [⟨inlineReady, .propagated t ready, completed⟩] with
      rootFrame
      readied := s.readied ++ ready
      propagated := s.propagated ++ [(t, outputs)] } := by
  have herase := perm_cons_erase h
  refine ⟨fun a ha => ?_, ?_, ?_, ?_, ?_, ?_⟩
  · rcases mem_cons.mp ha with rfl | ha
    · nofun
    · exact hl.callbacks a (mem_of_mem_erase ha)
  · refine perm_iff_count.mpr fun x => ?_
    have hcount := hl.readied.count_eq x
    have hsplit := (herase.flatMap_right Activity.waiting).count_eq x
    simp only [waiting, become, flatMap_cons, map_append, map_cons, map_nil, count_append,
      Activity.waiting, Activity.queue, Phase.running?, Phase.ready,
      singleton_append] at hcount hsplit ⊢
    omega
  · refine perm_iff_count.mpr fun x => ?_
    have hcount := hl.dispatched.count_eq x
    have hsplit := (herase.flatMap_right Activity.undispatched).count_eq x
    simp only [undispatched, become, flatMap_cons, singleton_append,
      count_append, count_nil, Activity.undispatched, Phase.ready] at hcount hsplit ⊢
    omega
  · refine perm_iff_count.mpr fun x => ?_
    have hcount := hl.processed.count_eq x
    have hsplit := (herase.flatMap_right Activity.unprocessed).count_eq x
    simp only [unprocessed, become, flatMap_cons, singleton_append, map_append, map_cons, map_nil,
      count_append, count_cons, count_nil, Activity.unprocessed, Phase.uncounted] at hcount hsplit ⊢
    omega
  · refine hl.outstanding.trans (congrArg _ (List.Perm.length_eq ?_))
    refine (flatMap_replaced _ h ?_).symm
    simp
  · refine Eq.trans ?_ hl.finishes
    have hsplit := herase.countP_eq Activity.completed
    simp only [ExecutorState.finishes, become, singleton_append, countP_cons] at hsplit ⊢
    omega

/-- The number of outstanding operations is adjusted. -/
theorem Ledger.count (hl : Ledger s)
    (h : ⟨inlineReady, .propagated t ready, completed⟩ ∈ s.activities) :
    Ledger (s.count ⟨inlineReady, .propagated t ready, completed⟩ t ready) := by
  have herase := perm_cons_erase h
  have hnum := hl.outstanding
  have hsplit := (herase.flatMap_right Activity.outstanding).length_eq
  simp only [ExecutorState.outstanding, flatMap_cons, length_append,
    Activity.outstanding, Activity.queue, Phase.outstanding, length_singleton] at hnum hsplit
  have hnum' : (s.count ⟨inlineReady, .propagated t ready, completed⟩ t ready).numOutstandingOps =
      s.numOutstandingOps + ready.length - 1 := by
    cases ready with
    | nil => simp
    | cons t' ready =>
      simp only [ExecutorState.count, isEmpty_cons, Bool.false_eq_true, if_false, length_cons]
      split <;> omega
  refine ⟨fun a ha => ?_, ?_, ?_, ?_, ?_, ?_⟩
  · rcases mem_cons.mp ha with rfl | ha
    · nofun
    · exact hl.callbacks a (mem_of_mem_erase ha)
  · refine hl.readied.trans (List.Perm.append_right _ ?_)
    refine (flatMap_replaced _ h ?_).symm
    simp
  · refine hl.dispatched.trans ?_
    refine (flatMap_replaced _ h ?_).symm
    simp
  · refine hl.processed.trans ?_
    refine (flatMap_replaced _ h ?_).symm
    simp [Activity.unprocessed, Phase.uncounted]
  · rw [hnum']
    simp only [ExecutorState.count, ExecutorState.outstanding, become, singleton_append,
      flatMap_cons, length_append, Activity.outstanding, Phase.outstanding, Activity.queue]
    omega
  · -- The node was outstanding, so that no call of `Finish` was due.
    have hzero : s.finishes = 0 := hl.finishes.trans (if_neg fun h => by omega)
    have hcompleted := herase.countP_eq Activity.completed
    have hprocessed : (s.processed ++ [t]) ≠ [] := by simp
    rw [hnum']
    simp only [ExecutorState.finishes, ExecutorState.count, become, singleton_append,
      countP_cons, hprocessed, ne_eq, not_false_eq_true, and_true] at hzero hcompleted ⊢
    have hlast : (ready.isEmpty && decide (s.numOutstandingOps = 1)) = true ↔
        s.numOutstandingOps + ready.length - 1 = 0 := by
      rw [Bool.and_eq_true_iff, isEmpty_iff_length_eq_zero, decide_eq_true_eq]
      omega
    simp only [hlast]
    omega

/-! ## The work that is left -/

/-- A bound for the steps that the executor takes with the nodes that are ready. -/
def work (s : ExecutorState V α) : Nat :=
  7 * s.pool.length + (s.activities.map Activity.work).sum

/-- The work of the other activities is not changed. -/
theorem sum_work_of_mem (h : a ∈ as) :
    (as.map Activity.work).sum = a.work + ((as.erase a).map Activity.work).sum := by
  rw [((perm_cons_erase h).map Activity.work).sum_nat, map_cons, sum_cons]

theorem work_count (h : ⟨inlineReady, .propagated t ready, completed⟩ ∈ s.activities) :
    (s.count ⟨inlineReady, .propagated t ready, completed⟩ t ready).work < s.work := by
  have hsum := sum_work_of_mem h
  simp only [work, ExecutorState.count, become, singleton_append, map_cons,
    sum_cons, Activity.work, Phase.work] at hsum ⊢
  omega

theorem work_propagate (ready : List (TaggedNode V))
    (h : ⟨inlineReady, .running t, completed⟩ ∈ s.activities) :
    (s.become ⟨inlineReady, .running t, completed⟩
      [⟨inlineReady, .propagated t ready, completed⟩]).work < s.work + 8 * ready.length := by
  have hsum := sum_work_of_mem h
  simp only [work, become, singleton_append, map_cons, sum_cons, Activity.work,
    Phase.work] at hsum ⊢
  cases inlineReady with
  | none =>
    simp only [isNone_none, if_true] at hsum ⊢
    omega
  | some queue =>
    simp only [isNone_some, Bool.false_eq_true, if_false] at hsum ⊢
    omega

/-- What a step does that is possible. -/
theorem step_cases {move : ExecutorMove V α} (h : Enabled g s move) :
    (∃ s', s.step g move = some s' ∧ Rearranged s s' ∧ s'.work < s.work) ∨
    (∃ inlineReady t ready completed, ⟨inlineReady, .propagated t ready, completed⟩ ∈ s.activities ∧
      s.step g move = some (s.count ⟨inlineReady, .propagated t ready, completed⟩ t ready)) ∨
    (∃ inlineReady t completed outputs, ⟨inlineReady, .running t, completed⟩ ∈ s.activities ∧
      s.step g move = s.propagate g ⟨inlineReady, .running t, completed⟩ t outputs) := by
  cases h with
  | start h =>
    refine .inl ⟨_, rfl, rearranged_start h, ?_⟩
    have hlength := (perm_cons_erase h).length_eq
    rw [length_cons] at hlength
    simp only [work, map_cons, sum_cons, Activity.work, Phase.work, length_singleton]
    omega
  | pop h =>
    refine .inl ⟨_, rfl, rearranged_pop h, ?_⟩
    have hsum := sum_work_of_mem h
    simp only [work, become, singleton_append, map_cons, sum_cons, Activity.work,
      Phase.work, isNone_some, Bool.false_eq_true, if_false, length_cons] at hsum ⊢
    omega
  | launch h ht =>
    refine .inl ⟨_, rfl, rearranged_launch h, ?_⟩
    have hsum := sum_work_of_mem h
    simp only [work, become, cons_append, nil_append, map_cons, sum_cons, Activity.work, Phase.work,
      isNone_some, isNone_none, Bool.false_eq_true, if_false, if_true] at hsum ⊢
    omega
  | propagate h ht houtputs => exact .inr (.inr ⟨_, _, _, _, h, rfl⟩)
  | count h => exact .inr (.inl ⟨_, _, _, _, h, rfl⟩)
  | @schedule ready inlineReady completed h =>
    refine .inl ⟨_, rfl, rearranged_schedule h, ?_⟩
    have hsum := sum_work_of_mem h
    cases inlineReady with
    | none =>
      simp only [work, schedule, scheduleReady, become, nil_append, length_append,
        Activity.work, Phase.work] at hsum ⊢
      omega
    | some queue =>
      obtain ⟨added, hqueue, hperm⟩ := scheduleReady_perm g ready queue
      have hlength := hperm.length_eq
      rw [length_append] at hlength
      simp only [work, schedule, become, hqueue, singleton_append, map_cons,
        sum_cons, length_append, Activity.work, Phase.work] at hsum ⊢
      omega
  | finish h =>
    refine .inl ⟨_, rfl, rearranged_finish h, ?_⟩
    have hsum := sum_work_of_mem h
    simp only [work, become, nil_append, Activity.work] at hsum ⊢
    omega

end Steps

/-! ## The end of a run -/

/-- An executor that no step is possible for has nothing left to do. -/
theorem Ledger.eq_nil_of_stuck {g : GraphView V} {s : ExecutorState V α} (hl : Ledger s)
    (h : ∀ move, ¬Enabled g s move) : s.pool = [] ∧ s.activities = [] := by
  constructor
  · exact eq_nil_iff_forall_not_mem.mpr fun t ht => h _ (.start ht)
  · refine eq_nil_iff_forall_not_mem.mpr fun a ha => ?_
    obtain ⟨inlineReady, phase, completed⟩ := a
    cases phase with
    | idle =>
      cases inlineReady with
      | none => exact hl.callbacks _ ha rfl rfl
      | some queue =>
        cases queue with
        | nil => exact h _ (.finish ha)
        | cons t queue => exact h _ (.pop ha)
    | running t =>
      have houtput : g.IsOutput t (replicate (g.item t.node).numOutputs (none : Option α)) :=
        ⟨length_replicate, fun _ _ hx => eq_of_mem_replicate hx⟩
      cases inlineReady with
      | none => exact h _ (.propagate ha nofun houtput)
      | some queue =>
        cases hlaunches : g.launches t with
        | false => exact h _ (.propagate ha (fun _ => hlaunches) houtput)
        | true => exact h _ (.launch ha hlaunches)
    | propagated t ready => exact h _ (.count ha)
    | counted ready => exact h _ (.schedule ha)

/-- An activity without outstanding operations has no nodes. -/
theorem Activity.nodes_eq_nil {a : Activity V} (h : a.outstanding = []) :
    a.waiting = [] ∧ a.undispatched = [] ∧ a.unprocessed = [] := by
  obtain ⟨hqueue, hphase⟩ := append_eq_nil_iff.mp h
  rw [Activity.waiting, hqueue]
  obtain ⟨inlineReady, phase, completed⟩ := a
  cases phase with
  | idle => exact ⟨rfl, rfl, rfl⟩
  | running t => cases hphase
  | propagated t ready => cases hphase
  | counted ready => exact ⟨hphase, hphase, rfl⟩

/-- Without outstanding operations every node that became ready is dispatched and processed. -/
theorem Ledger.all_processed {s : ExecutorState V α} (hl : Ledger s) (h : s.numOutstandingOps = 0) :
    s.readied.Perm (s.propagated.map Prod.fst) ∧ s.readied.Perm s.dispatched ∧
      s.readied.Perm s.processed := by
  have hlength := hl.outstanding
  have hnil : s.outstanding = [] := length_eq_zero_iff.mp (by omega)
  obtain ⟨hpool, hactivities⟩ := append_eq_nil_iff.mp hnil
  have hnodes (a : Activity V) (ha : a ∈ s.activities) :=
    Activity.nodes_eq_nil (flatMap_eq_nil_iff.mp hactivities a ha)
  have hwaiting : s.waiting = [] := by
    rw [ExecutorState.waiting, hpool]
    exact flatMap_eq_nil_iff.mpr fun a ha => (hnodes a ha).1
  have hundispatched : s.undispatched = [] := flatMap_eq_nil_iff.mpr fun a ha => (hnodes a ha).2.1
  have hunprocessed : s.unprocessed = [] := flatMap_eq_nil_iff.mpr fun a ha => (hnodes a ha).2.2
  have hreadied := hl.readied
  have hdispatched := hl.dispatched
  have hprocessed := hl.processed
  rw [hwaiting] at hreadied
  rw [hundispatched, append_nil] at hdispatched
  rw [hunprocessed, append_nil] at hprocessed
  exact ⟨hreadied, hdispatched, hreadied.trans hprocessed⟩

/-- An outstanding operation is a node that waits or a node that is not processed. -/
theorem mem_of_mem_outstanding {s : ExecutorState V α} {t : TaggedNode V}
    (h : t ∈ s.outstanding) : t ∈ s.waiting ∨ t ∈ s.unprocessed := by
  rcases mem_append.mp h with h | h
  · exact .inl (mem_append_left _ h)
  obtain ⟨a, ha, ht⟩ := mem_flatMap.mp h
  have hnode : t ∈ a.waiting ∨ t ∈ a.unprocessed := by
    obtain ⟨inlineReady, phase, completed⟩ := a
    rcases mem_append.mp ht with ht | ht
    · exact .inl (mem_append_left _ (mem_append_left _ ht))
    cases phase with
    | idle => cases ht
    | running t' => exact .inl (mem_append_left _ (mem_append_right _ ht))
    | propagated t' ready => exact .inr ht
    | counted ready => exact .inl (mem_append_right _ ht)
  rcases hnode with ht | ht
  · exact .inl (mem_append_right _ (mem_flatMap.mpr ⟨a, ha, ht⟩))
  · exact .inr (mem_flatMap.mpr ⟨a, ha, ht⟩)

/-- The books of a new executor. -/
theorem ledger_new [DecidableEq V] (g : GraphView V) : Ledger (new g : ExecutorState V α) where
  callbacks := nofun
  readied := by simp [new, waiting]
  dispatched := by simp [new, undispatched]
  processed := by simp [new, unprocessed]
  outstanding := by simp [new, ExecutorState.outstanding]
  finishes := by simp [new, ExecutorState.finishes]

end ExecutorState

end Tension.Executor
