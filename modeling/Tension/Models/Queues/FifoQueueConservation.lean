import Mathlib.Algebra.Order.Group.Nat
import Tension.Models.Queues.FifoQueue

/-!
# Conservation and order in the FIFO queue

What was delivered, what a pending attempt has taken and what is in the queue are, one after
another, the elements that were accepted. Cancelling an attempt that has taken elements is
what breaks this: they are dropped with the attempt.
-/

namespace Tension.Queues

open Slots List Option

variable {α : Type}

/-- The elements that an attempt has taken. -/
def DequeueAttempt.elements (a : DequeueAttempt α) : List α := a.tuple.reduceOption

/-- The elements that a pending attempt has taken. A cancelled attempt is not pending. -/
def DequeueAttempt.held (a : DequeueAttempt α) : List α :=
  if a.isCancelled then [] else a.elements

/-- The tuple has the elements taken so far and room for those that are left. -/
structure DequeueAttempt.Sized (a : DequeueAttempt α) : Prop where
  pos : 0 < a.elementsRequested
  tuple_eq : a.tuple = buffer a.elements a.elementsRequested.toNat
  single : a.action = .dequeue → a.tuple = []

/-- The elements that are left are at the end of the batch. -/
def EnqueueAttempt.Sized (a : EnqueueAttempt α) : Prop :=
  ∀ tuple, a.action = .enqueueMany tuple →
    0 < a.elementsRequested ∧ a.elementsRequested ≤ tuple.length

namespace FIFOQueue

variable {q q' : FIFOQueue α}

/-- The elements that were delivered. -/
def delivered (q : FIFOQueue α) : List α := q.finished.flatMap Finished.elements

/-- Elements delivered, elements taken by pending attempts and elements in the queue are the
accepted ones in the order in which they were accepted. -/
def Conserved (q : FIFOQueue α) : Prop :=
  q.delivered ++ q.dequeueAttempts.flatMap DequeueAttempt.held ++ q.queue = q.accepted

@[simp] theorem delivered_finish (q : FIFOQueue α) (token : Option Nat) (status : Status)
    (elements : List α) : (q.finish token status elements).delivered = q.delivered ++ elements := by
  rw [delivered, finish, flatMap_append, flatMap_singleton, delivered]

/-! ## Loops -/

/-- The loop of an enqueue takes the next elements of the batch. -/
theorem enqueueLoop_eq {tuple : List α} {requested : Int} (hpos : 0 < requested)
    (hle : requested ≤ tuple.length) (room : Nat) :
    ∃ complete left elements, enqueueLoop tuple room requested = some (complete, left, elements) ∧
      left ≤ requested ∧ (elements ≠ [] → left < requested) ∧
      (complete = false → 0 < left) := by
  induction room generalizing requested with
  | zero => exact ⟨false, requested, [], rfl, le_rfl, absurd rfl, fun _ => hpos⟩
  | succ room ih =>
    have hindex : ((tuple.length : Int) - requested).toNat < tuple.length := by omega
    rw [enqueueLoop, if_neg (by omega), getElem?_eq_getElem hindex]
    dsimp only
    by_cases hlast : requested - 1 = 0
    · rw [if_pos hlast]
      exact ⟨true, 0, _, rfl, by omega, fun _ => by omega, nofun⟩
    · obtain ⟨complete, left, elements, hloop, hleft, -, hcomplete⟩ :=
        ih (by omega : 0 < requested - 1) (by omega)
      rw [if_neg hlast, hloop]
      exact ⟨complete, left, _, rfl, by omega, fun _ => by omega, hcomplete⟩

/-- Putting the elements back restores them in order. -/
theorem restore_buffer (values : List α) (r : Nat) (queue : List α) :
    restore (buffer values r) values.length queue = some (values ++ queue) := by
  suffices h : ∀ n, n ≤ values.length →
      restore (buffer values r) n ((values.drop n) ++ queue) = some (values ++ queue) by
    simpa using h values.length le_rfl
  intro n hn
  induction n with
  | zero => rfl
  | succ n ih =>
    have hlt : n < values.length := hn
    rw [restore, getElem?_buffer hlt]
    rw [← ih hlt.le, drop_eq_getElem_cons hlt]
    rfl

/-- The loop of a dequeue takes elements until the batch is full or the queue is empty. -/
theorem dequeueLoop_eq (values : List α) {r : Nat} (hr : 0 < r) (queue : List α) :
    dequeueLoop queue.length r (buffer values r) queue =
      some (decide (r ≤ queue.length), ((r - min r queue.length : Nat) : Int),
        buffer (values ++ queue.take r) (r - min r queue.length), queue.drop r) := by
  induction queue generalizing values r with
  | nil =>
    have hnot : ¬r ≤ 0 := by omega
    simp [dequeueLoop, hnot]
  | cons element queue ih =>
    obtain ⟨r, rfl⟩ : ∃ n, r = n + 1 := ⟨r - 1, by omega⟩
    rw [length_cons, dequeueLoop, Int.toNat_natCast]
    simp only [length_allocate_buffer]
    rw [if_neg (by omega)]
    have hindex : (((values.length + (r + 1) : Nat) : Int) - ((r + 1 : Nat) : Int)).toNat =
        values.length := by omega
    rw [hindex, set_allocate_buffer]
    rcases Nat.eq_zero_or_pos r with rfl | hpos
    · simp
    · have hcast : ((r + 1 : Nat) : Int) - 1 = (r : Nat) := by omega
      rw [hcast, if_neg (by omega), ih (values ++ [element]) hpos]
      simp

/-! ## Attempts to enqueue -/

/-- Elements were pushed. -/
structure Pushed (q q' : FIFOQueue α) : Prop where
  pushed : ∃ elements, q'.queue = q.queue ++ elements ∧ q'.accepted = q.accepted ++ elements
  delivered : q'.delivered = q.delivered
  dequeueAttempts : q'.dequeueAttempts = q.dequeueAttempts

theorem Pushed.refl (q : FIFOQueue α) : Pushed q q :=
  ⟨⟨[], by simp, by simp⟩, rfl, rfl⟩

theorem Pushed.trans {q₁ q₂ q₃ : FIFOQueue α} (h : Pushed q₁ q₂) (h' : Pushed q₂ q₃) :
    Pushed q₁ q₃ := by
  obtain ⟨elements, hqueue, haccepted⟩ := h.pushed
  obtain ⟨elements', hqueue', haccepted'⟩ := h'.pushed
  refine ⟨⟨elements ++ elements', ?_, ?_⟩, h'.delivered.trans h.delivered,
    h'.dequeueAttempts.trans h.dequeueAttempts⟩
  · rw [hqueue', hqueue, append_assoc]
  · rw [haccepted', haccepted, append_assoc]

theorem pushed_push (q : FIFOQueue α) (elements : List α) : Pushed q (q.push elements) :=
  ⟨⟨elements, rfl, rfl⟩, rfl, rfl⟩

/-- What becomes of an attempt to enqueue. It waits only while the queue is open. -/
inductive EnqueueOutcome (a : EnqueueAttempt α) : RunResult α → FIFOQueue α →
    EnqueueAttempt α → Prop
  | complete {status : Status} {q' : FIFOQueue α} {a' : EnqueueAttempt α} :
    EnqueueOutcome a (.complete status []) q' a'
  | noProgress {q' : FIFOQueue α} {a' : EnqueueAttempt α} (hopen : q'.closed = false)
    (hsized : a'.Sized) (hle : a'.elementsRequested ≤ a.elementsRequested) :
    EnqueueOutcome a .noProgress q' a'
  | progress {q' : FIFOQueue α} {a' : EnqueueAttempt α} (hopen : q'.closed = false)
    (hsized : a'.Sized) (hpos : 0 < a'.elementsRequested)
    (hlt : a'.elementsRequested < a.elementsRequested) : EnqueueOutcome a .progress q' a'

/-- What one run of an attempt to enqueue does. -/
theorem runEnqueue_spec (q : FIFOQueue α) {a : EnqueueAttempt α} (ha : a.Sized) :
    ∃ result q' a', runEnqueue q a = some (result, q', a') ∧ Pushed q q' ∧
      EnqueueOutcome a result q' a' := by
  rw [runEnqueue]
  cases haction : a.action with
  | close =>
    dsimp only
    split
    · exact ⟨_, _, _, rfl, .refl q, .complete⟩
    · exact ⟨_, _, _, rfl, ⟨⟨[], by simp, by simp⟩, rfl, rfl⟩, .complete⟩
  | enqueue tuple =>
    dsimp only
    split
    · exact ⟨_, _, _, rfl, .refl q, .complete⟩
    · rename_i hopen
      split
      · exact ⟨_, _, _, rfl, pushed_push q _, .complete⟩
      · exact ⟨_, _, _, rfl, .refl q, .noProgress (Bool.not_eq_true _ ▸ hopen) ha le_rfl⟩
  | enqueueMany tuple =>
    dsimp only
    split
    · exact ⟨_, _, _, rfl, .refl q, .complete⟩
    rename_i hopen
    have hopen : q.closed = false := Bool.not_eq_true _ ▸ hopen
    obtain ⟨hpos, hle⟩ := ha tuple haction
    obtain ⟨complete, left, elements, hloop, hleft, hlt, hcomplete⟩ :=
      enqueueLoop_eq hpos hle (q.capacity - q.queue.length)
    have hsized (hpos : 0 < left) : EnqueueAttempt.Sized
        { a with elementsRequested := left, action := .enqueueMany tuple } := by
      intro tuple' haction'
      obtain rfl : tuple = tuple' := EnqueueAction.enqueueMany.inj haction'
      exact ⟨hpos, hleft.trans hle⟩
    rw [hloop]
    dsimp only
    cases complete with
    | true => exact ⟨_, _, _, rfl, pushed_push q _, .complete⟩
    | false =>
      have hpos := hcomplete rfl
      rw [if_neg Bool.false_ne_true]
      split
      · exact ⟨_, _, _, rfl, .refl q, .noProgress hopen (hsized hpos) hleft⟩
      · rename_i hne
        exact ⟨_, _, _, rfl, pushed_push q _, .progress hopen (hsized hpos) hpos (hlt hne)⟩

/-- The share of the attempts to enqueue in the work. -/
def enqueueWork (attempts : List (EnqueueAttempt α)) : Nat :=
  (attempts.map fun a => a.elementsRequested.toNat + 1).sum

/-- The share of the attempts to dequeue in the work. -/
def dequeueWork (attempts : List (DequeueAttempt α)) : Nat :=
  (attempts.map fun a => a.elementsRequested.toNat + 1).sum

theorem enqueueWork_cons (a : EnqueueAttempt α) (attempts : List (EnqueueAttempt α)) :
    enqueueWork (a :: attempts) = a.elementsRequested.toNat + 1 + enqueueWork attempts := by
  rw [enqueueWork, map_cons, sum_cons, enqueueWork]

theorem dequeueWork_cons (a : DequeueAttempt α) (attempts : List (DequeueAttempt α)) :
    dequeueWork (a :: attempts) = a.elementsRequested.toNat + 1 + dequeueWork attempts := by
  rw [dequeueWork, map_cons, sum_cons, dequeueWork]

/-- The attempts to enqueue are run. A closed queue has none left. -/
theorem tryEnqueueAttempts_spec {attempts : List (EnqueueAttempt α)}
    (h : ∀ a ∈ attempts, a.Sized) (q : FIFOQueue α) (progress : Bool) :
    ∃ progress' q', tryEnqueueAttempts attempts q progress = some (progress', q') ∧
      Pushed q q' ∧ (∀ a ∈ q'.enqueueAttempts, a.Sized) ∧
      (q'.closed = true → q'.enqueueAttempts = []) ∧
      enqueueWork q'.enqueueAttempts ≤ enqueueWork attempts ∧
      (progress' = true → progress = true ∨
        enqueueWork q'.enqueueAttempts < enqueueWork attempts) := by
  induction attempts generalizing q progress with
  | nil => exact ⟨progress, _, rfl, ⟨⟨[], by simp, by simp⟩, rfl, rfl⟩, nofun, fun _ => rfl,
      le_rfl, .inl⟩
  | cons a rest ih =>
    have hrest : ∀ a ∈ rest, a.Sized := fun a ha => h a (mem_cons_of_mem _ ha)
    rw [tryEnqueueAttempts, enqueueWork_cons]
    split
    · obtain ⟨progress', q', hrun, hpushed, hsized, hclosed, hwork, hprogress⟩ :=
        ih hrest q progress
      exact ⟨progress', q', hrun, hpushed, hsized, hclosed, by omega, fun _ => .inr (by omega)⟩
    · obtain ⟨result, q₁, a', hrun, hpushed, houtcome⟩ := runEnqueue_spec q (h a mem_cons_self)
      rw [hrun]
      have hstay (hsized : a'.Sized) : ∀ b ∈ a' :: rest, EnqueueAttempt.Sized b :=
        forall_mem_cons.mpr ⟨hsized, hrest⟩
      cases houtcome with
      | @complete status =>
        obtain ⟨progress', q', hrun', hpushed', hsized, hclosed, hwork, -⟩ :=
          ih hrest (q₁.finish a.token status []) true
        have hfinish : Pushed q (q₁.finish a.token status []) :=
          ⟨hpushed.pushed, by rw [delivered_finish, append_nil, hpushed.delivered],
            hpushed.dequeueAttempts⟩
        exact ⟨progress', q', hrun', hfinish.trans hpushed', hsized, hclosed, by omega,
          fun _ => .inr (by omega)⟩
      | noProgress hopen hsized hle =>
        refine ⟨progress, _, rfl, { hpushed with },
          hstay hsized, fun hclosed => ?_, ?_, .inl⟩
        · exact absurd (hopen.symm.trans hclosed) Bool.false_ne_true
        · rw [enqueueWork_cons]
          omega
      | progress hopen hsized hpos hlt =>
        have hwork :
            enqueueWork (a' :: rest) < a.elementsRequested.toNat + 1 + enqueueWork rest := by
          rw [enqueueWork_cons]
          omega
        refine ⟨true, _, rfl, { hpushed with },
          hstay hsized, fun hclosed => ?_, hwork.le, fun _ => .inr hwork⟩
        exact absurd (hopen.symm.trans hclosed) Bool.false_ne_true

/-! ## Attempts to dequeue -/

/-- What becomes of an attempt to dequeue: the elements it has taken and those in the queue
are delivered, taken or in the queue in the same order. -/
inductive DequeueOutcome (a : DequeueAttempt α) (queue : List α) : RunResult α → List α →
    DequeueAttempt α → Prop
  | complete {status : Status} {elements queue' : List α} {a' : DequeueAttempt α}
    (h : a.elements ++ queue = elements ++ queue') :
    DequeueOutcome a queue (.complete status elements) queue' a'
  | noProgress {queue' : List α} {a' : DequeueAttempt α} (hsized : a'.Sized)
    (hcancelled : a'.isCancelled = a.isCancelled)
    (h : a.elements ++ queue = a'.elements ++ queue')
    (hle : a'.elementsRequested ≤ a.elementsRequested) :
    DequeueOutcome a queue .noProgress queue' a'
  | progress {queue' : List α} {a' : DequeueAttempt α} (hsized : a'.Sized)
    (hcancelled : a'.isCancelled = a.isCancelled)
    (h : a.elements ++ queue = a'.elements ++ queue')
    (hlt : a'.elementsRequested < a.elementsRequested) :
    DequeueOutcome a queue .progress queue' a'

/-- An attempt for no more elements than there are is completed. -/
theorem takeElements_complete (q : FIFOQueue α) {a : DequeueAttempt α} (ha : a.Sized)
    (hle : a.elementsRequested ≤ q.queue.length) :
    ∃ elements queue' a', takeElements q a q.queue.length =
      some (.complete .ok elements, { q with queue := queue' }, a') ∧
        a.elements ++ q.queue = elements ++ queue' := by
  obtain ⟨r, hr⟩ := Int.eq_ofNat_of_zero_le ha.pos.le
  have hpos : 0 < r := by
    have := ha.pos
    omega
  have hrle : r ≤ q.queue.length := by omega
  have htuple := ha.tuple_eq
  rw [hr, Int.toNat_natCast] at htuple
  rw [takeElements, hr, htuple, dequeueLoop_eq a.elements hpos]
  simp only [hrle, Nat.min_eq_left, Nat.sub_self, buffer_zero, mapM_id_map_some]
  refine ⟨_, _, _, rfl, ?_⟩
  rw [append_assoc, take_append_drop]

/-- An attempt takes elements as long as there are some. -/
theorem takeElements_spec (q : FIFOQueue α) {a : DequeueAttempt α} (ha : a.Sized)
    (hmany : a.action ≠ .dequeue) :
    ∃ result queue' a', takeElements q a q.queue.length =
      some (result, { q with queue := queue' }, a') ∧
        DequeueOutcome a q.queue result queue' a' := by
  by_cases hle : a.elementsRequested ≤ q.queue.length
  · obtain ⟨elements, queue', a', htake, h⟩ := takeElements_complete q ha hle
    exact ⟨_, queue', a', htake, .complete h⟩
  obtain ⟨r, hr⟩ := Int.eq_ofNat_of_zero_le ha.pos.le
  have hpos : 0 < r := by
    omega
  have hrlt : ¬r ≤ q.queue.length := by omega
  have hmin : min r q.queue.length = q.queue.length := by omega
  have htuple := ha.tuple_eq
  rw [hr, Int.toNat_natCast] at htuple
  rw [takeElements, hr, htuple, dequeueLoop_eq a.elements hpos, hmin,
    take_of_length_le (by omega), drop_of_length_le (by omega)]
  simp only [hrlt, decide_false, Bool.false_eq_true, if_false]
  have hsized : DequeueAttempt.Sized
      { a with
        elementsRequested := ((r - q.queue.length : Nat) : Int)
        tuple := buffer (a.elements ++ q.queue) (r - q.queue.length) } := by
    refine ⟨by dsimp only; omega, ?_, fun haction => absurd haction hmany⟩
    simp [DequeueAttempt.elements]
  have helements : a.elements ++ q.queue =
      (buffer (a.elements ++ q.queue) (r - q.queue.length)).reduceOption ++ [] := by
    rw [reduceOption_buffer, append_nil]
  split
  · exact ⟨_, [], _, rfl, .noProgress hsized rfl helements (by dsimp only; omega)⟩
  · exact ⟨_, [], _, rfl, .progress hsized rfl helements (by dsimp only; omega)⟩

/-- The elements that the attempt has taken are put back. -/
theorem restore_attempt {a : DequeueAttempt α} (ha : a.Sized) (queue : List α) :
    (if a.tuple.isEmpty then some queue
      else restore a.tuple ((a.tuple.length : Int) - a.elementsRequested).toNat queue) =
      some (a.elements ++ queue) := by
  have htuple := ha.tuple_eq
  split
  · rename_i hempty
    rw [DequeueAttempt.elements, isEmpty_iff.mp hempty]
    rfl
  · rename_i hne
    rw [htuple, isEmpty_buffer, List.isEmpty_iff] at hne
    have hpos := ha.pos
    have hlength : ((a.tuple.length : Int) - a.elementsRequested).toNat = a.elements.length := by
      rw [htuple, buffer_of_ne_nil hne, length_append, length_map, length_replicate]
      omega
    rw [hlength, htuple]
    exact restore_buffer _ _ _

theorem runDequeue_spec {q : FIFOQueue α} (hq : q.closed = true → q.enqueueAttempts = [])
    {a : DequeueAttempt α} (ha : a.Sized) :
    ∃ result queue' a', runDequeue q a = some (result, { q with queue := queue' }, a') ∧
      DequeueOutcome a q.queue result queue' a' := by
  rw [runDequeue]
  cases haction : a.action with
  | dequeue =>
    have helements : a.elements = [] := by
      rw [DequeueAttempt.elements, ha.single haction]
      rfl
    cases hqueue : q.queue with
    | nil =>
      dsimp only
      split
      · exact ⟨_, q.queue, _, rfl, .complete (by rw [helements, hqueue])⟩
      · exact ⟨_, q.queue, _, rfl, .noProgress ha rfl (by rw [hqueue]) le_rfl⟩
    | cons element queue =>
      exact ⟨_, queue, _, rfl, .complete (by rw [helements]; rfl)⟩
  | dequeueMany allowSmallBatch =>
    dsimp only
    rw [runDequeueMany]
    split
    · rename_i hshort
      rw [restore_attempt ha]
      dsimp only
      split
      · rename_i hsmall
        have hpos : 0 < (a.elements ++ q.queue).length := length_pos_iff.mpr hsmall.2
        have hsized : DequeueAttempt.Sized
            { a with
              tuple := ([] : List (Option α))
              elementsRequested := ((a.elements ++ q.queue).length : Int) } :=
          ⟨by dsimp only; omega, rfl, fun _ => rfl⟩
        obtain ⟨elements, queue', a', htake, h⟩ :=
          takeElements_complete { q with queue := a.elements ++ q.queue } hsized le_rfl
        exact ⟨_, queue', a', htake, .complete h⟩
      · split
        · rename_i henqueue
          exact absurd (hq hshort.1) henqueue.2
        · exact ⟨_, _, _, rfl, .complete rfl⟩
    · exact takeElements_spec q ha (by rw [haction]; nofun)

/-- The state of the attempts to dequeue. Only the first one has taken elements, and not if it
was cancelled. -/
structure DequeueAttempts (attempts : List (DequeueAttempt α)) : Prop where
  sized : ∀ a ∈ attempts, a.Sized
  cancelled : ∀ a ∈ attempts, a.isCancelled = true → a.tuple = []
  first : ∀ a ∈ attempts.tail, a.tuple = []

/-- The attempts behind the first one. -/
theorem DequeueAttempts.rest {a : DequeueAttempt α} {rest : List (DequeueAttempt α)}
    (h : DequeueAttempts (a :: rest)) : DequeueAttempts rest where
  sized b hb := h.sized b (mem_cons_of_mem _ hb)
  cancelled b hb := h.cancelled b (mem_cons_of_mem _ hb)
  first b hb := h.first b (mem_of_mem_tail hb)

theorem held_eq_nil {a : DequeueAttempt α} (h : a.tuple = []) : a.held = [] := by
  rw [DequeueAttempt.held, DequeueAttempt.elements, h]
  split <;> rfl

/-- The first attempt is replaced by one that is not cancelled. -/
theorem DequeueAttempts.replace {a a' : DequeueAttempt α} {rest : List (DequeueAttempt α)}
    (h : DequeueAttempts (a :: rest)) (hsized : a'.Sized) (hpending : a'.isCancelled = false) :
    DequeueAttempts (a' :: rest) where
  sized := forall_mem_cons.mpr ⟨hsized, h.rest.sized⟩
  cancelled := forall_mem_cons.mpr
    ⟨fun hcancelled => absurd (hpending.symm.trans hcancelled) Bool.false_ne_true,
      h.rest.cancelled⟩
  first := h.first

/-- Only the first attempt holds elements. -/
theorem DequeueAttempts.held_rest {a : DequeueAttempt α} {rest : List (DequeueAttempt α)}
    (h : DequeueAttempts (a :: rest)) : rest.flatMap DequeueAttempt.held = [] :=
  flatMap_eq_nil_iff.mpr fun b hb => held_eq_nil (h.first b hb)

/-- The attempts to dequeue are run. -/
theorem tryDequeueAttempts_spec {attempts : List (DequeueAttempt α)}
    (h : DequeueAttempts attempts) {q : FIFOQueue α} (hq : q.closed = true → q.enqueueAttempts = [])
    (hconserved : q.delivered ++ attempts.flatMap DequeueAttempt.held ++ q.queue = q.accepted)
    (progress : Bool) :
    ∃ progress' q', tryDequeueAttempts attempts q progress = some (progress', q') ∧
      q'.Conserved ∧ DequeueAttempts q'.dequeueAttempts ∧
      q'.enqueueAttempts = q.enqueueAttempts ∧
      dequeueWork q'.dequeueAttempts ≤ dequeueWork attempts ∧
      (progress' = true → progress = true ∨
        dequeueWork q'.dequeueAttempts < dequeueWork attempts) := by
  induction attempts generalizing q progress with
  | nil => exact ⟨progress, _, rfl, hconserved, h, rfl, le_rfl, .inl⟩
  | cons a rest ih =>
    rw [tryDequeueAttempts, dequeueWork_cons]
    split
    · rename_i hcancelled
      have hheld : a.held = [] := held_eq_nil (h.cancelled a mem_cons_self hcancelled)
      rw [flatMap_cons, hheld] at hconserved
      obtain ⟨progress', q', hrun, hc, ha, henqueue, hwork, -⟩ := ih h.rest hq hconserved progress
      exact ⟨progress', q', hrun, hc, ha, henqueue, by omega, fun _ => .inr (by omega)⟩
    · rename_i hcancelled
      have hheld : a.held = a.elements := if_neg hcancelled
      have hcancelled : a.isCancelled = false := Bool.not_eq_true _ ▸ hcancelled
      rw [flatMap_cons, h.held_rest, hheld, append_nil, append_assoc] at hconserved
      obtain ⟨result, queue', a', hrun, houtcome⟩ := runDequeue_spec hq (h.sized a mem_cons_self)
      rw [hrun]
      have hstays (hpending : a'.isCancelled = false)
          (helements : a.elements ++ q.queue = a'.elements ++ queue') :
          { q with queue := queue', dequeueAttempts := a' :: rest }.Conserved := by
        have hheld' : a'.held = a'.elements := if_neg (by rw [hpending]; exact Bool.false_ne_true)
        rw [Conserved, flatMap_cons, h.held_rest, hheld', append_nil, append_assoc, ← helements]
        exact hconserved
      cases houtcome with
      | @complete status elements _ _ helements =>
        have hconserved' :
            ({ q with queue := queue' }.finish (some a.token) status elements).delivered ++
              rest.flatMap DequeueAttempt.held ++ queue' = q.accepted := by
          rw [delivered_finish, h.held_rest, append_nil, append_assoc, ← helements]
          exact hconserved
        obtain ⟨progress', q', hrun', hc, ha, henqueue, hwork, -⟩ :=
          ih (q := { q with queue := queue' }.finish (some a.token) status elements) h.rest hq
            hconserved' true
        exact ⟨progress', q', hrun', hc, ha, henqueue, by omega, fun _ => .inr (by omega)⟩
      | noProgress hsized hcancelled' helements hle =>
        have hpending : a'.isCancelled = false := hcancelled'.trans hcancelled
        refine ⟨progress, _, rfl, ?_, h.replace hsized hpending, rfl, ?_, .inl⟩
        · exact hstays hpending helements
        · rw [dequeueWork_cons]
          omega
      | progress hsized hcancelled' helements hlt =>
        have hpending : a'.isCancelled = false := hcancelled'.trans hcancelled
        have hwork :
            dequeueWork (a' :: rest) < a.elementsRequested.toNat + 1 + dequeueWork rest := by
          have hpos := hsized.pos
          rw [dequeueWork_cons]
          omega
        refine ⟨true, _, rfl, ?_, h.replace hsized hpending, rfl, hwork.le, fun _ => .inr hwork⟩
        exact hstays hpending helements

/-! ## The invariant -/

/-- The state between two locked sections. -/
structure Inv (q : FIFOQueue α) : Prop where
  enqueue : ∀ a ∈ q.enqueueAttempts, a.Sized
  dequeue : DequeueAttempts q.dequeueAttempts
  conserved : q.Conserved

section

variable (hq : q.Inv)
include hq

/-- One round of a flush keeps the invariant, and makes progress only by work that is done. -/
theorem flushRound_spec : ∃ changed q', flushRound q = some (changed, q') ∧ q'.Inv ∧
      (changed = true → q'.work < q.work) := by
  obtain ⟨enqueued, q₁, henqueue, hpushed, hsized, hclosed, hwork, hprogress⟩ :=
    tryEnqueueAttempts_spec hq.enqueue q false
  obtain ⟨elements, hqueue, haccepted⟩ := hpushed.pushed
  have hdequeue : DequeueAttempts q₁.dequeueAttempts := hpushed.dequeueAttempts ▸ hq.dequeue
  have hconserved : q₁.Conserved := by
    rw [Conserved, hpushed.delivered, hpushed.dequeueAttempts, hqueue, haccepted,
      ← append_assoc, hq.conserved]
  obtain ⟨dequeued, q₂, hdequeue', hconserved', hattempts, hsame, hwork', hprogress'⟩ :=
    tryDequeueAttempts_spec hdequeue hclosed hconserved false
  refine ⟨dequeued || enqueued, q₂, ?_, ⟨hsame ▸ hsized, hattempts, hconserved'⟩,
    fun hchanged => ?_⟩
  · rw [flushRound, henqueue]
    dsimp only
    rw [hdequeue', map_some]
  · rw [hpushed.dequeueAttempts] at hwork' hprogress'
    change enqueueWork _ + dequeueWork _ < enqueueWork _ + dequeueWork _
    rw [hsame]
    rcases Bool.or_eq_true_iff.mp hchanged with hd | he
    · have hlt := (hprogress' hd).resolve_left Bool.false_ne_true
      omega
    · have hlt := (hprogress he).resolve_left Bool.false_ne_true
      omega

/-- A flush comes to an end. -/
theorem flushUnlocked_spec : ∃ q', q.flushUnlocked = some q' ∧ q'.Inv :=
  Run.untilStable_total (fun _ hs => flushRound_spec hs) hq (Nat.lt_succ_self _)

theorem Inv.finish (token : Option Nat) (status : Status) : (q.finish token status []).Inv where
  enqueue := hq.enqueue
  dequeue := hq.dequeue
  conserved := by
    rw [Conserved, delivered_finish, append_nil]
    exact hq.conserved

/-- A new attempt to enqueue. -/
theorem Inv.appendEnqueue {a : EnqueueAttempt α} (ha : a.Sized) :
    { q with enqueueAttempts := q.enqueueAttempts ++ [a] }.Inv where
  enqueue := forall_mem_append.mpr ⟨hq.enqueue, forall_mem_singleton.mpr ha⟩
  dequeue := hq.dequeue
  conserved := hq.conserved

/-- A new attempt to dequeue. -/
theorem Inv.appendDequeue {a : DequeueAttempt α} (ha : a.Sized) (hempty : a.tuple = []) :
    { q with dequeueAttempts := q.dequeueAttempts ++ [a] }.Inv where
  enqueue := hq.enqueue
  dequeue := by
    refine ⟨forall_mem_append.mpr ⟨hq.dequeue.sized, forall_mem_singleton.mpr ha⟩,
      forall_mem_append.mpr ⟨hq.dequeue.cancelled, forall_mem_singleton.mpr fun _ => hempty⟩,
      ?_⟩
    have hfirst := hq.dequeue.first
    cases hattempts : q.dequeueAttempts with
    | nil => nofun
    | cons c rest =>
      rw [hattempts] at hfirst
      exact forall_mem_append.mpr ⟨hfirst, forall_mem_singleton.mpr hempty⟩
  conserved := by
    rw [Conserved, flatMap_append, flatMap_singleton, held_eq_nil hempty, append_nil]
    exact hq.conserved

end

theorem sized_ofSingle {a : EnqueueAttempt α} (h : ∀ tuple, a.action ≠ .enqueueMany tuple) :
    a.Sized :=
  fun tuple haction => absurd haction (h tuple)

section

variable (hq : q.Inv)
include hq

section

variable (token : Nat) (registered : Bool)

/-- `TryEnqueue` keeps the invariant. -/
theorem Inv.tryEnqueue (tuple : α) : (q.tryEnqueue token registered tuple).Inv := by
  rw [FIFOQueue.tryEnqueue]
  split
  · exact hq.appendEnqueue (sized_ofSingle nofun)
  · exact hq.finish _ _

/-- `TryEnqueueMany` keeps the invariant. -/
theorem Inv.tryEnqueueMany {tuple : List α} (hlength : tuple.length < 2 ^ 31) :
    (q.tryEnqueueMany token registered tuple).Inv := by
  rw [FIFOQueue.tryEnqueueMany]
  split
  · exact hq.finish _ _
  rename_i hne
  split
  · refine hq.appendEnqueue fun tuple' haction => ?_
    obtain rfl : tuple = tuple' := EnqueueAction.enqueueMany.inj haction
    have hpos : 0 < tuple.length := length_pos_iff.mpr hne
    have hbmod : (tuple.length : Int).bmod (2 ^ 32) = tuple.length := by
      rw [Int.bmod_def]
      split <;> omega
    dsimp only
    omega
  · exact hq.finish _ _

/-- `TryDequeue` keeps the invariant. -/
theorem Inv.tryDequeue : (q.tryDequeue token registered).Inv := by
  rw [FIFOQueue.tryDequeue]
  split
  · exact hq.appendDequeue ⟨Int.one_pos, rfl, fun _ => rfl⟩ rfl
  · exact hq.finish _ _

/-- `TryDequeueMany` keeps the invariant. -/
theorem Inv.tryDequeueMany (numElements : Nat) (allowSmallBatch : Bool) :
    (q.tryDequeueMany token registered numElements allowSmallBatch).Inv := by
  rw [FIFOQueue.tryDequeueMany]
  split
  · exact hq.finish _ _
  · split
    · exact hq.finish _ _
    · split
      · exact hq.appendDequeue ⟨by dsimp only; omega, rfl, nofun⟩ rfl
      · exact hq.finish _ _

end

/-- `CloseAndCancel` keeps the invariant. -/
theorem Inv.closeAndCancel : q.closeAndCancel.Inv where
  enqueue b hb := by
    obtain ⟨a, ha, rfl⟩ := mem_map.mp hb
    exact hq.enqueue a ha
  dequeue := hq.dequeue
  conserved := by
    have hnothing : ((q.enqueueAttempts.filter fun a => !a.isCancelled).map fun a =>
        (⟨a.token, .cancelled "Enqueue operation was cancelled", []⟩ : Finished α)).flatMap
          Finished.elements = [] := by
      rw [flatMap_map]
      exact flatMap_eq_nil_iff.mpr fun _ _ => rfl
    rw [Conserved, delivered, FIFOQueue.closeAndCancel, flatMap_append, hnothing, append_nil]
    exact hq.conserved

end

/-! ## Cancellation -/

/-- A cancellation changes the first attempt with the token. -/
theorem cancelFirst_eq_some {β : Type} {matches_ isCancelled : β → Bool} {cancel : β → β}
    {attempts attempts' : List β}
    (h : cancelFirst matches_ isCancelled cancel attempts = some attempts') :
    ∃ before a after, attempts = before ++ a :: after ∧ attempts' = before ++ cancel a :: after ∧
      attempts.find? matches_ = some a := by
  induction attempts generalizing attempts' with
  | nil => cases h
  | cons b rest ih =>
    rw [cancelFirst] at h
    split at h
    · rename_i hmatches
      split at h
      · cases h
      · cases h
        exact ⟨[], b, rest, rfl, rfl, find?_cons_of_pos hmatches⟩
    · rename_i hmatches
      obtain ⟨rest', hrest, rfl⟩ := map_eq_some_iff.mp h
      obtain ⟨before, a, after, rfl, rfl, hfind⟩ := ih hrest
      exact ⟨b :: before, a, after, rfl, rfl, by rw [find?_cons_of_neg hmatches, hfind]⟩

theorem forall_mem_substitute {β : Type} {P : β → Prop} {before after : List β} {a a' : β}
    (h : ∀ b ∈ before ++ a :: after, P b) (ha : P a') : ∀ b ∈ before ++ a' :: after, P b := by
  rw [forall_mem_append, forall_mem_cons] at h ⊢
  exact ⟨h.1, ha, h.2.2⟩

/-- Cancelling an attempt to enqueue loses nothing. -/
theorem Inv.cancelEnqueue (hq : q.Inv) (token : Nat) : (q.cancel .enqueue token).Inv := by
  rw [cancel]
  split
  · exact hq
  rename_i attempts hcancel
  obtain ⟨before, a, after, heq, rfl, -⟩ := cancelFirst_eq_some hcancel
  suffices hinv : FIFOQueue.Inv { q with
      enqueueAttempts := before ++ { a with isCancelled := true } :: after } from
    hinv.finish _ _
  have hsized : ∀ b ∈ before ++ a :: after, b.Sized := heq ▸ hq.enqueue
  exact ⟨forall_mem_substitute hsized (hsized a mem_append_cons_self), hq.dequeue, hq.conserved⟩

/-- An attempt that has taken nothing may be replaced by another one. -/
theorem DequeueAttempts.substitute {before after : List (DequeueAttempt α)}
    {a a' : DequeueAttempt α} (h : DequeueAttempts (before ++ a :: after)) (hsized : a'.Sized)
    (hempty : a'.tuple = []) : DequeueAttempts (before ++ a' :: after) where
  sized := forall_mem_substitute h.sized hsized
  cancelled := forall_mem_substitute h.cancelled fun _ => hempty
  first := by
    cases before with
    | nil => exact h.first
    | cons c before => exact forall_mem_substitute h.first hempty

/-- An attempt that has taken nothing is cancelled. -/
theorem Inv.cancelDequeue (hq : q.Inv) {token : Nat}
    (h : ∀ a, q.dequeueAttempts.find? (fun a => a.token = token) = some a → a.tuple = []) :
    (q.cancel .dequeue token).Inv := by
  rw [cancel]
  split
  · exact hq
  rename_i attempts hcancel
  obtain ⟨before, a, after, heq, rfl, hfind⟩ := cancelFirst_eq_some hcancel
  have hempty : a.tuple = [] := h a hfind
  have hattempts : DequeueAttempts (before ++ a :: after) := heq ▸ hq.dequeue
  have hsized : a.Sized := hattempts.sized a mem_append_cons_self
  suffices hinv : FIFOQueue.Inv { q with
      dequeueAttempts := before ++ { a with isCancelled := true } :: after } from
    hinv.finish _ _
  refine ⟨hq.enqueue, hattempts.substitute ⟨hsized.pos, hsized.tuple_eq, hsized.single⟩ hempty,
    ?_⟩
  have hconserved := hq.conserved
  rw [Conserved, heq, flatMap_append, flatMap_cons, held_eq_nil hempty] at hconserved
  rw [Conserved, flatMap_append]
  exact hconserved

/-! ## Runs -/

/-- A cancelled dequeue has not taken elements, and the size of a batch fits in an `int32`. -/
def HarmlessMove (q : FIFOQueue α) : Move α → Prop
  | .cancel .dequeue token =>
    ∀ a, q.dequeueAttempts.find? (fun a => a.token = token) = some a → a.tuple = []
  | .tryEnqueueMany _ _ tuple => tuple.length < 2 ^ 31
  | _ => True

instance decidableHarmlessMove [DecidableEq α] (q : FIFOQueue α) :
    ∀ move, Decidable (q.HarmlessMove move)
  | .cancel .dequeue token =>
    decidable_of_iff
      ((q.dequeueAttempts.find? fun a => a.token = token).all fun a => a.tuple.isEmpty)
      (by simp [HarmlessMove, Option.all_eq_true])
  | .tryEnqueueMany _ _ tuple => inferInstanceAs (Decidable (tuple.length < 2 ^ 31))
  | .cancel .enqueue _ | .tryEnqueue .. | .tryDequeue .. | .tryDequeueMany .. | .close
  | .closeAndCancel | .flushUnlocked => isTrue trivial

/-- Every harmless move keeps the invariant. -/
theorem step_spec {move : Move α} (hq : q.Inv) (hmove : q.HarmlessMove move) :
    ∃ q', q.step move = some q' ∧ q'.Inv := by
  cases move with
  | tryEnqueue token registered tuple => exact ⟨_, rfl, hq.tryEnqueue token registered tuple⟩
  | tryEnqueueMany token registered tuple =>
    exact ⟨_, rfl, hq.tryEnqueueMany token registered hmove⟩
  | tryDequeue token registered => exact ⟨_, rfl, hq.tryDequeue token registered⟩
  | tryDequeueMany token registered numElements allowSmallBatch =>
    exact ⟨_, rfl, hq.tryDequeueMany token registered numElements allowSmallBatch⟩
  | cancel action token =>
    cases action with
    | enqueue => exact ⟨_, rfl, hq.cancelEnqueue token⟩
    | dequeue => exact ⟨_, rfl, hq.cancelDequeue hmove⟩
  | close => exact ⟨_, rfl, hq.appendEnqueue (sized_ofSingle nofun)⟩
  | closeAndCancel => exact ⟨_, rfl, hq.closeAndCancel⟩
  | flushUnlocked => exact flushUnlocked_spec hq

theorem inv_new (name : String) (capacity : Nat) (specifiedShapes : Bool) :
    (new name capacity specifiedShapes : FIFOQueue α).Inv where
  enqueue := nofun
  dequeue := ⟨nofun, nofun, nofun⟩
  conserved := rfl

/-- Harmless locked sections in any order return, and no accepted element is lost, duplicated
or overtaken. -/
theorem conserved_of_harmless_run {name : String} {capacity : Nat} {specifiedShapes : Bool}
    {moves : List (Move α)}
    (h : Run.Admissible step HarmlessMove (new name capacity specifiedShapes) moves) :
    ∃ q, Run.run step (new name capacity specifiedShapes) moves = some q ∧ q.Conserved := by
  obtain ⟨q, hrun, hq⟩ := Run.run_total (fun _ _ hq hmove => step_spec hq hmove)
    (inv_new name capacity specifiedShapes) h
  exact ⟨q, hrun, hq.conserved⟩

/-- A dequeue of three elements has taken two when the queue is closed. The two are put back,
and a later dequeue of up to four elements gets them. -/
def closedWhileWaiting : List (Move Nat) :=
  [.tryDequeueMany 0 true 3 false, .tryEnqueueMany 1 true [10, 11], .flushUnlocked, .close,
    .tryDequeueMany 2 true 4 true, .flushUnlocked]

/-- No element is lost when the queue is closed during a dequeue. -/
theorem conserved_closedWhileWaiting :
    ∃ q, Run.run step (new "q" 2 true) closedWhileWaiting = some q ∧ q.Conserved :=
  conserved_of_harmless_run (by decide +kernel)

example : (Run.run step (new "q" 2 true) closedWhileWaiting).map delivered = some [10, 11] := by
  decide +kernel

/-- A dequeue of two elements has taken one element when it is cancelled. The element is not
delivered, not in the queue and not in a pending attempt. -/
theorem cancel_loses_element : ∃ q, Run.run step (new "q" 2 true) [.tryDequeueMany 0 true 2 false,
      .tryEnqueue 1 true 10, .flushUnlocked, .cancel .dequeue 0, .flushUnlocked] = some q ∧
    q.accepted = [10] ∧ q.delivered = [] ∧ q.queue = [] ∧ q.dequeueAttempts = [] ∧ ¬q.Conserved :=
  ⟨_, rfl, by decide +kernel, by decide +kernel, by decide +kernel, by decide +kernel,
    show ¬(_ ++ _ ++ _ = _) by decide +kernel⟩

end FIFOQueue

end Tension.Queues
