import Mathlib
import Tension.Models.Status

/-!
# The deadline of a batch

`BatchingSession::ProcessBatch` rejects a batch whose tasks have all waited too long and otherwise
runs it until the latest deadline of a task. A task without timeout gets a finite one, and the
batch runs without timeout only if its deadline, an absolute time, equals that number.
-/

namespace Tension.Batching

/-- `INT_MAX`. -/
def intMax : Nat := 2147483647

/-- What a deadline depends on in a `BatchingSessionTask`. -/
structure TimedTask where
  enqueueTimeMicros : UInt64
  /-- `run_options.timeout_in_ms()`. -/
  timeoutInMs : Int64
  deriving DecidableEq

namespace TimedTask

variable (task : TimedTask)

/-- `task_timeout_micros`, before it is cut to its type. -/
def timeoutMicros : Nat :=
  if task.timeoutInMs.toInt ≤ 0 then intMax else task.timeoutInMs.toInt.toNat * 1000

/-- The time at which the task is over. -/
def due : Nat := task.enqueueTimeMicros.toNat + task.timeoutMicros

/-- `task_deadline_micros`; `none` if the timeout overflows. -/
def deadlineMicros : Option Nat :=
  if task.timeoutMicros < 2 ^ 63 then some (task.due % 2 ^ 64) else none

/-- The task is seen to have time left. -/
def Alive (now : UInt64) : Prop :=
  now.toNat < task.due ∧ task.due < 2 ^ 64

instance (task : TimedTask) (now : UInt64) :
    Decidable (task.Alive now) :=
  inferInstanceAs (Decidable (_ ∧ _))

end TimedTask

/-- The loop of `ProcessBatch` over the tasks, with `all_tasks_timeout_exceeded` and
`batch_deadline_micros`, at `dequeue_time_micros`. -/
def scanDeadlines (now : UInt64) : List TimedTask → Bool → Nat → Option (Bool × Nat)
  | [], exceeded, deadline => some (exceeded, deadline)
  | task :: tasks, exceeded, deadline =>
    task.deadlineMicros.bind fun taskDeadline =>
      if now.toNat < taskDeadline then
        scanDeadlines now tasks false
          (if deadline < taskDeadline then taskDeadline else deadline)
      else scanDeadlines now tasks exceeded deadline

/-- The deadline part of `ProcessBatch`: the status of a rejected batch, or `timeout_in_ms` of the
run. -/
def batchTimeout (now : UInt64) (tasks : List TimedTask) :
    Option (Except Status Nat) :=
  (scanDeadlines now tasks true 0).map fun result =>
    if result.1 then
      .error (.resourceExhausted "Run() timeout exceeded while waiting in batching queue")
    else if result.2 = intMax then .ok 0
    else .ok ((result.2 - now.toNat) / 1000)

variable {now : UInt64} {tasks : List TimedTask}

/-- A batch with a task without timeout runs without timeout. Any other batch is rejected if all
tasks are over, and runs for a positive time that some task has left. -/
def TimeoutRespected (now : UInt64) (tasks : List TimedTask) : Prop :=
  ∃ result, batchTimeout now tasks = some result ∧
    if ∃ task ∈ tasks, task.timeoutInMs.toInt ≤ 0 then result = .ok 0
    else (result.isOk = false ↔ ∀ task ∈ tasks, task.due ≤ now.toNat) ∧
      ∀ timeout, result = .ok timeout → 0 < timeout ∧
        ∃ task ∈ tasks, now.toNat + timeout * 1000 ≤ task.due

/-- The latest time at which a task that is seen to have time left is over. -/
def Latest (now : UInt64) (tasks : List TimedTask) (time : Nat) : Prop :=
  (∃ task ∈ tasks, task.Alive now ∧ task.due = time) ∧
    ∀ task ∈ tasks, task.Alive now → task.due ≤ time

/-- A deadline that wraps around is in the past. -/
theorem TimedTask.lt_deadline_iff {task : TimedTask}
    (hle : task.enqueueTimeMicros ≤ now) (hfits : task.timeoutMicros < 2 ^ 63) :
    now.toNat < task.due % 2 ^ 64 ↔ task.Alive now := by
  have hle := UInt64.le_iff_toNat_le.mp hle
  rw [Alive, due]
  by_cases hwrap : task.enqueueTimeMicros.toNat + task.timeoutMicros < 2 ^ 64
  · rw [Nat.mod_eq_of_lt hwrap, and_iff_left hwrap]
  · omega

section

variable (hle : ∀ task ∈ tasks, task.enqueueTimeMicros ≤ now)
  (hfits : ∀ task ∈ tasks, task.timeoutMicros < 2 ^ 63)
include hle hfits

/-- The loop returns whether no task has time left, and otherwise the latest deadline. -/
theorem scanDeadlines_spec (exceeded : Bool) (deadline : Nat) : ∃ exceeded' deadline',
      scanDeadlines now tasks exceeded deadline = some (exceeded', deadline') ∧
      (exceeded' = true ↔ exceeded = true ∧ ∀ task ∈ tasks, ¬ task.Alive now) ∧
      deadline ≤ deadline' ∧
      (∀ task ∈ tasks, task.Alive now → task.due ≤ deadline') ∧
      (deadline' = deadline ∨ ∃ task ∈ tasks, task.Alive now ∧ task.due = deadline') := by
  induction tasks generalizing exceeded deadline with
  | nil => exact ⟨exceeded, deadline, rfl, by simp, le_rfl, by simp, .inl rfl⟩
  | cons task tasks ih =>
    rw [List.forall_mem_cons] at hle hfits
    have hiff := TimedTask.lt_deadline_iff hle.1 hfits.1
    simp only [scanDeadlines, TimedTask.deadlineMicros, if_pos hfits.1, Option.bind_some,
      List.forall_mem_cons, List.exists_mem_cons_iff]
    split
    · next hlater =>
      have halive := hiff.mp hlater
      rw [Nat.mod_eq_of_lt halive.2]
      obtain ⟨e, d, hscan, he, hd, hall, hex⟩ := ih hle.2 hfits.2 false
        (if deadline < task.due then task.due else deadline)
      refine ⟨e, d, hscan, ?_, ?_, ⟨fun _ => ?_, hall⟩, ?_⟩
      · rw [he]
        simp [halive]
      · split at hd <;> omega
      · split at hd <;> omega
      · rcases hex with rfl | hex
        · split
          · exact .inr (.inl ⟨halive, rfl⟩)
          · exact .inl rfl
        · exact .inr (.inr hex)
    · next hlater =>
      have hover := mt hiff.mpr hlater
      obtain ⟨e, d, hscan, he, hd, hall, hex⟩ := ih hle.2 hfits.2 exceeded deadline
      refine ⟨e, d, hscan, ?_, hd, ⟨fun halive => absurd halive hover, hall⟩, hex.imp_right .inr⟩
      rw [he, and_iff_right hover]

/-- A batch in which no task has time left is rejected; any other one has a latest deadline. -/
theorem batchTimeout_spec : (∃ status, batchTimeout now tasks = some (.error status) ∧
        ∀ task ∈ tasks, ¬ task.Alive now) ∨
      ∃ time, Latest now tasks time ∧ batchTimeout now tasks =
        some (.ok (if time = intMax then 0 else (time - now.toNat) / 1000)) := by
  obtain ⟨exceeded, deadline, hscan, hexceeded, -, hall, hex⟩ := scanDeadlines_spec hle hfits true 0
  rw [batchTimeout, hscan, Option.map_some]
  cases exceeded with
  | true => exact .inl ⟨_, rfl, (hexceeded.mp rfl).2⟩
  | false =>
    have hlatest : Latest now tasks deadline := by
      refine ⟨hex.resolve_left ?_, hall⟩
      rintro rfl
      refine absurd (hexceeded.mpr ⟨rfl, fun task htask halive => ?_⟩) (by simp)
      have := hall task htask halive
      have := halive.1
      omega
    refine .inr ⟨deadline, hlatest, ?_⟩
    by_cases htime : deadline = intMax
    · rw [if_pos htime, if_pos htime]
      rfl
    · rw [if_neg htime, if_neg htime]
      rfl

end

/-- An overflow of a timeout spoils the whole batch. -/
theorem batchTimeout_eq_none {task : TimedTask} (htask : task ∈ tasks)
    (hbig : ¬ task.timeoutMicros < 2 ^ 63) : batchTimeout now tasks = none := by
  suffices hscan : ∀ exceeded deadline,
      scanDeadlines now tasks exceeded deadline = none by
    rw [batchTimeout, hscan]
    rfl
  induction tasks with
  | nil => cases htask
  | cons head tasks ih =>
    intro exceeded deadline
    rw [scanDeadlines]
    rcases List.mem_cons.mp htask with rfl | htask
    · rw [TimedTask.deadlineMicros, if_neg hbig]
      rfl
    · cases head.deadlineMicros with
      | none => rfl
      | some taskDeadline =>
        rw [Option.bind_some, ih htask, ih htask, ite_self]

/-- The timeout of a batch is as it should be exactly if no timeout overflows and the latest
deadline is `INT_MAX` or less than a millisecond ahead for a batch with a task without timeout,
and otherwise all tasks are over or the latest deadline is another time, at least a millisecond
ahead. -/
theorem timeoutRespected_iff (hle : ∀ task ∈ tasks, task.enqueueTimeMicros ≤ now) :
    TimeoutRespected now tasks ↔
      (∀ task ∈ tasks, task.timeoutMicros < 2 ^ 63) ∧
        if ∃ task ∈ tasks, task.timeoutInMs.toInt ≤ 0 then
          ∃ time, Latest now tasks time ∧
            (time = intMax ∨ time < now.toNat + 1000)
        else (∀ task ∈ tasks, task.due ≤ now.toNat) ∨
          ∃ time, Latest now tasks time ∧ time ≠ intMax ∧
            now.toNat + 1000 ≤ time := by
  by_cases hfits : ∀ task ∈ tasks, task.timeoutMicros < 2 ^ 63
  · rw [and_iff_right hfits, TimeoutRespected]
    rcases batchTimeout_spec hle hfits with ⟨status, heq, hover⟩ | ⟨time, hlatest, heq⟩
    · have hnone : ∀ time, ¬ Latest now tasks time := by
        rintro time ⟨⟨task, htask, halive, -⟩, -⟩
        exact hover task htask halive
      simp [heq, hnone, Except.toBool]
    · obtain ⟨task, htask, halive, hdue⟩ := hlatest.1
      have hunique : ∀ time', Latest now tasks time' ↔ time' = time := by
        refine fun time' => ⟨fun h => ?_, fun h => h ▸ hlatest⟩
        obtain ⟨task', htask', halive', hdue'⟩ := h.1
        exact le_antisymm (hdue' ▸ hlatest.2 task' htask' halive') (hdue ▸ h.2 task htask halive)
      have hahead : ¬ ∀ task ∈ tasks, task.due ≤ now.toNat := fun h =>
        absurd (h task htask) (not_le.mpr halive.1)
      simp only [heq, Option.some.injEq, exists_eq_left', hunique, exists_eq_left]
      by_cases huntimed : ∃ task ∈ tasks, task.timeoutInMs.toInt ≤ 0
      · rw [if_pos huntimed, Except.ok.injEq]
        split <;> omega
      rw [if_neg huntimed, if_neg huntimed, iff_false_intro hahead, false_or]
      refine ⟨fun h => ?_, fun ⟨hne, hfar⟩ => ⟨by simp [Except.toBool], ?_⟩⟩
      · have hpos := (h.2 _ rfl).1
        split at hpos <;> omega
      · rintro timeout heq
        rw [if_neg hne, Except.ok.injEq] at heq
        exact ⟨by omega, task, htask, by omega⟩
  · obtain ⟨task, htask, hbig⟩ := not_forall₂.mp hfits
    refine iff_of_false ?_ fun h => hfits h.1
    rintro ⟨result, hresult, -⟩
    rw [batchTimeout_eq_none htask hbig] at hresult
    cases hresult

/-- Two tasks of a second and of two seconds, the first of which is over. -/
theorem timeoutRespected_seconds : TimeoutRespected 3000000 [⟨1500000, 1000⟩, ⟨1600000, 2000⟩] := by
  refine (timeoutRespected_iff (by decide)).mpr ⟨by decide, ?_⟩
  refine .inr ⟨3600000, ⟨⟨⟨1600000, 2000⟩, by decide, by decide, by decide⟩, ?_⟩, by decide,
    by decide⟩
  decide

/-- A task without timeout that is run at once: the batch is run with a timeout. -/
theorem not_timeoutRespected_untimed :
    batchTimeout 1500000000000000 [⟨1500000000000000, 0⟩] = some (.ok 2147483) ∧
      ¬ TimeoutRespected 1500000000000000 [⟨1500000000000000, 0⟩] := by
  have hresult : batchTimeout 1500000000000000 [⟨1500000000000000, 0⟩] = some (.ok 2147483) := by
    decide
  refine ⟨hresult, ?_⟩
  rintro ⟨result, heq, hspec⟩
  rw [hresult, Option.some.injEq] at heq
  rw [← heq] at hspec
  cases hspec

end Tension.Batching
