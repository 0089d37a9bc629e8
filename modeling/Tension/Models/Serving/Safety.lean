import Tension.Core.Census
import Tension.Models.Serving.Effects

/-!
# Serving safety

Each effect of a step changes one harness at most, together with the stage of the task
that owns it, so that ownership carries over to the next state. The handles map is
rebuilt in the same step in which a harness leaves the states that may be served.
-/

namespace Tension.Serving

open List Option Function

namespace Manager

variable {m m' : Manager}

/-! ## Task steps -/

/-- Task `i` gets another stage, or is new with it, and harness `r` becomes `x`. -/
structure Moves (m m' : Manager) (i : Nat) (stage : Stage) (r : Ref) (x : LoaderHarness) :
    Prop where
  harness : m'.harness = Function.update m.harness r x
  next : m'.next = m.next
  managed : m'.managed = m.managed
  handles : m'.handles = m.handles
  tasks : ∀ {j : Nat} {s : Stage}, m'.tasks[j]? = some s →
    j = i ∧ s = stage ∨ j ≠ i ∧ m.tasks[j]? = some s
  ongoing : m'.numOngoing = m'.tasks.countP Stage.executing

variable {i : Nat} {stage : Stage} {r : Ref} {x : LoaderHarness} {a : Action}

/-- A harness that no other task owns changes together with the stage of a task. -/
theorem Invariant.move (h : m.Invariant) (hm : Moves m m' i stage r x)
    (hfree : ∀ {j : Nat} {s : Stage}, j ≠ i → m.tasks[j]? = some s → ¬ s.Owns m r)
    (hid : x.id = (m.harness r).id) (hlegal : x.faulted = false)
    (hserv : ∀ q, (q, r) ∈ m.handles → x.state.Servable) (hnext : stage.expected = none ∨
      r ∈ m.managed ∧ (∀ y, stage.Owns m y ↔ y = r) ∧ stage.expected = some x.state) :
    m'.Invariant := by
  obtain ⟨hharness, hfresh, hmanaged, hhandles, htasks, hcount⟩ := hm
  have hids : ∀ y, (m'.harness y).id = (m.harness y).id := by
    rw [hharness]
    exact update_id hid
  have howns := Stage.owns_congr hmanaged hids
  have hself : m'.harness r = x := by rw [hharness, update_self]
  have hother : ∀ y, y ≠ r → m'.harness y = m.harness y := by
    intro y hy
    rw [hharness, update_of_ne hy]
  have honly : ∀ y, stage.Owns m y → y = r := by
    intro y hy
    rcases hnext with hnone | ⟨-, hpoint, -⟩
    · exact absurd hy (Stage.not_owns_of_expected_none hnone m y)
    · exact (hpoint y).mp hy
  constructor
  · rw [hmanaged, hfresh]
    exact h.fresh
  · intro y hy y' hy' he
    rw [hmanaged] at hy hy'
    rw [hids, hids] at he
    exact h.unique y hy y' hy' he
  · intro j s state hj he
    rw [hmanaged]
    rcases htasks hj with ⟨-, rfl⟩ | ⟨hji, hj'⟩
    · rcases hnext with hnone | ⟨hmem, hpoint, hexp⟩
      · rw [hnone] at he
        cases he
      · rw [hexp, some.injEq] at he
        exact ⟨r, (howns s r).mpr ((hpoint r).mpr rfl), hmem, by rw [hself, he]⟩
    · obtain ⟨y, hoy, hmy, hsy⟩ := h.owned j s state hj' he
      have hne : y ≠ r := by
        rintro rfl
        exact hfree hji hj' hoy
      exact ⟨y, (howns s y).mpr hoy, hmy, by rw [hother y hne, hsy]⟩
  · intro j k s s' y hj hk hs hs'
    rw [howns] at hs hs'
    rcases htasks hj with ⟨rfl, rfl⟩ | ⟨hji, hj'⟩ <;> rcases htasks hk with ⟨rfl, rfl⟩ | ⟨hki, hk'⟩
    · rfl
    · exact absurd (honly y hs ▸ hs') (hfree hki hk')
    · exact absurd (honly y hs' ▸ hs) (hfree hji hj')
    · exact h.exclusive j k s s' y hj' hk' hs hs'
  · rw [hhandles, hfresh]
    exact h.handles_fresh
  · intro q y hq
    rw [hhandles] at hq
    by_cases hy : y = r
    · subst hy
      rw [hself]
      exact hserv q hq
    · rw [hother y hy]
      exact h.servable q y hq
  · exact h.latest.congr hhandles fun y _ _ => hids y
  · intro y
    by_cases hy : y = r
    · rw [hy, hself, hlegal]
    · rw [hother y hy]
      exact h.legal y
  · exact hcount

/-- What becomes of the stages when one of them is replaced. -/
theorem getElem?_set_cases {tasks : List Stage} {j : Nat} {s : Stage}
    (h : (tasks.set i stage)[j]? = some s) : j = i ∧ s = stage ∨ j ≠ i ∧ tasks[j]? = some s := by
  rw [getElem?_set] at h
  split at h
  · next hij =>
    split at h
    · exact .inl ⟨hij.symm, (some.inj h).symm⟩
    · cases h
  · next hij => exact .inr ⟨Ne.symm hij, h⟩

/-- The counter after a task has got another stage. -/
theorem Invariant.countP_set (h : m.Invariant)
    (hi : m.tasks[i]? = some stage) (stage' : Stage) {n : Int}
    (hn : n + (if stage.executing then 1 else 0) =
      m.numOngoing + if stage'.executing then 1 else 0) :
    n = (m.tasks.set i stage').countP Stage.executing := by
  have hset := Census.countP_set_add hi stage' Stage.executing
  rw [h.ongoing] at hn
  split_ifs at hn hset <;> omega

/-- A task moves on and changes the harness it works on. -/
theorem Works.invariant {stage' : Stage} {state : HarnessState} (hw : m.Works i stage r state)
    (h : m.Invariant) (hsets : m.Sets m' i stage' r x) (hhandles : m'.handles = m.handles)
    (hcount : m'.numOngoing +
        (if state ≠ .loadRequested ∧ state ≠ .unloadRequested then 1 else 0) =
      m.numOngoing + if stage'.executing then 1 else 0)
    (hlegal : x.faulted = false) (hserv : ∀ q, (q, r) ∈ m.handles → x.state.Servable)
    (hnext : stage'.expected = none ∨
      (∀ y, stage'.Owns m y ↔ y = r) ∧ stage'.expected = some x.state) : m'.Invariant := by
  have hexp := (h.of_owns hw.task hw.owns).2
  rw [hw.state] at hexp
  refine h.move ⟨hsets.harness, hsets.next, hsets.managed, hhandles, fun hj => ?_, ?_⟩
    (fun hji hj ho => hji (h.exclusive _ i _ stage r hj hw.task ho hw.owns)) hsets.id_eq hlegal
    hserv (hnext.imp_right fun hn => ⟨hw.mem, hn⟩)
  · rw [hsets.tasks] at hj
    exact getElem?_set_cases hj
  · rw [hsets.tasks]
    refine h.countP_set hw.task stage' ?_
    rw [Stage.executing_of_expected hexp]
    simpa using hcount

/-- A served harness stays servable if its owner keeps it so. -/
theorem Works.servable {source target : HarnessState}
    (hw : m.Works i stage r source) (h : m.Invariant)
    (hst : source.Servable → target.Servable) (q : ServableRequest) (hq : (q, r) ∈ m.handles) :
    target.Servable :=
  hst (hw.state ▸ h.servable q r hq)

/-- A task moves to a stage that owns nothing, and no harness changes. -/
theorem Invariant.retire (h : m.Invariant) {stage' : Stage}
    (hi : m.tasks[i]? = some stage) (hnone : stage'.expected = none)
    (hharness : m'.harness = m.harness) (hfresh : m'.next = m.next)
    (hmanaged : m'.managed = m.managed) (hhandles : m'.handles = m.handles)
    (htasks : m'.tasks = m.tasks.set i stage')
    (hcount : m'.numOngoing + (if stage.executing then 1 else 0) =
      m.numOngoing + if stage'.executing then 1 else 0) : m'.Invariant := by
  -- The next harness to be allocated stands for the one that changes.
  refine h.move (i := i) (x := m.harness m.next)
    ⟨?_, hfresh, hmanaged, hhandles, fun hj => ?_, ?_⟩ (fun _ hj ho => ?_) rfl (h.legal _)
    (fun q hq => h.servable q _ hq) (.inl hnone)
  · rw [hharness, update_eq_self]
  · rw [htasks] at hj
    exact getElem?_set_cases hj
  · rw [htasks]
    exact h.countP_set hi stage' hcount
  · exact absurd (h.fresh _ (h.of_owns hj ho).1) (lt_irrefl _)

/-! ## Calls -/

/-- A new task that owns a harness nobody owned. -/
theorem Invariant.spawn (h : m.Invariant) {kind : Kind} {state : HarnessState} (hr : r ∈ m.managed)
    (hrest : (m.harness r).state = .new ∨ (m.harness r).state = .ready ∨
      (m.harness r).state = .disabled ∨ (m.harness r).state = .error)
    (hexp : (Stage.scheduled kind (m.harness r).id).expected = some state)
    (hserv : (m.harness r).state.Servable → state.Servable) : Invariant { m.setState r state with
      tasks := m.tasks ++ [.scheduled kind (m.harness r).id] } := by
  have howner : ∀ y, (Stage.scheduled kind (m.harness r).id).Owns m y ↔ y = r :=
    fun y => ⟨fun hy => h.unique y hy.1 r hr hy.2, by rintro rfl; exact ⟨hr, rfl⟩⟩
  refine h.move (i := m.tasks.length)
    ⟨rfl, rfl, rfl, rfl, fun hj => ?_, ?_⟩ (fun _ hj => h.not_owns hrest hj) rfl (h.legal r)
    (fun q hq => hserv (h.servable q r hq)) (.inr ⟨hr, howner, hexp⟩)
  · rw [getElem?_append] at hj
    split at hj
    · next hlt => exact .inr ⟨ne_of_lt hlt, hj⟩
    · obtain ⟨hz, hs⟩ := List.getElem?_eq_some_iff.mp hj
      rw [length_singleton] at hz
      rw [getElem_singleton] at hs
      exact .inl ⟨by omega, hs.symm⟩
  · rw [countP_append]
    exact h.ongoing

/-- A new harness with an id that is not managed yet belongs to no task. -/
theorem Invariant.add (h : m.Invariant)
    (hnew : ∀ r ∈ m.managed, (m.harness r).id ≠ x.id) (hlegal : x.faulted = false) :
    Invariant { m.setHarness m.next x with
      next := m.next + 1, managed := m.managed ++ [m.next] } := by
  have hold : ∀ r, r < m.next → update m.harness m.next x r = m.harness r := fun r hr =>
    update_of_ne (ne_of_lt hr) _ _
  have hself : update m.harness m.next x m.next = x := update_self ..
  have hunique : ∀ r ∈ m.managed ++ [m.next], ∀ r' ∈ m.managed ++ [m.next],
      (update m.harness m.next x r).id = (update m.harness m.next x r').id →
        r = r' := by
    intro r hr r' hr' he
    rw [mem_append, mem_singleton] at hr hr'
    rcases hr with hr | rfl <;> rcases hr' with hr' | rfl
    · rw [hold r (h.fresh r hr), hold r' (h.fresh r' hr')] at he
      exact h.unique r hr r' hr' he
    · rw [hold r (h.fresh r hr), hself] at he
      exact absurd he (hnew r hr)
    · rw [hold r' (h.fresh r' hr'), hself] at he
      exact absurd he.symm (hnew r' hr')
    · rfl
  have hfrom : ∀ {stage : Stage} {r : Ref}, stage.Owns m r → stage.Owns { m.setHarness m.next x with
      next := m.next + 1, managed := m.managed ++ [m.next] } r := fun ho =>
    ho.mono fun hr => ⟨mem_append_left _ hr, congrArg LoaderHarness.id (hold _ (h.fresh _ hr))⟩
  have hto : ∀ {i : Nat} {stage : Stage} {r : Ref}, m.tasks[i]? = some stage →
      stage.Owns { m.setHarness m.next x with
        next := m.next + 1, managed := m.managed ++ [m.next] } r → stage.Owns m r := by
    intro i stage r hi ho
    cases he : stage.expected with
    | none => exact absurd ho (Stage.not_owns_of_expected_none he _ r)
    | some state =>
      obtain ⟨y, hy, -⟩ := h.owned i stage state hi he
      obtain rfl : r = y := ho.unique hunique (hfrom hy)
      exact hy
  refine ⟨?_, hunique, ?_, ?_, ?_, ?_, ?_, ?_, h.ongoing⟩
  · exact forall_mem_append.mpr ⟨fun r hr => Nat.lt_succ_of_lt (h.fresh r hr),
      forall_mem_singleton.mpr (Nat.lt_succ_self _)⟩
  · intro i stage state hi he
    obtain ⟨r, ho, hr, hstate⟩ := h.owned i stage state hi he
    exact ⟨r, hfrom ho, mem_append_left _ hr,
      (congrArg LoaderHarness.state (hold r (h.fresh r hr))).trans hstate⟩
  · exact fun i j stage stage' r hi hj ho ho' =>
      h.exclusive i j stage stage' r hi hj (hto hi ho) (hto hj ho')
  · exact fun q r hq => Nat.lt_succ_of_lt (h.handles_fresh q r hq)
  · intro q r hq
    have hserv := h.servable q r hq
    rw [← hold r (h.handles_fresh q r hq)] at hserv
    exact hserv
  · exact h.latest.congr rfl fun r q hq =>
      congrArg LoaderHarness.id (hold r (h.handles_fresh q r hq))
  · intro r
    by_cases hr : r = m.next
    · rw [hr]
      exact (congrArg LoaderHarness.faulted hself).trans hlegal
    · exact (congrArg LoaderHarness.faulted (update_of_ne hr _ _)).trans (h.legal r)

/-- Only harnesses in a resting state are dropped. -/
theorem Invariant.drop (h : m.Invariant)
    (hrest : (m.harness r).state = .new ∨ (m.harness r).state = .ready ∨
      (m.harness r).state = .disabled ∨ (m.harness r).state = .error) :
    Invariant { m with managed := m.managed.erase r } := by
  have hto : ∀ {stage : Stage} {y : Ref},
      stage.Owns { m with managed := m.managed.erase r } y → stage.Owns m y := fun ho =>
    ho.mono fun hy => ⟨mem_of_mem_erase hy, rfl⟩
  exact { h with
    fresh := fun y hy => h.fresh y (mem_of_mem_erase hy)
    unique := fun y hy y' hy' he =>
      h.unique y (mem_of_mem_erase hy) y' (mem_of_mem_erase hy') he
    owned := by
      intro i stage state hi he
      obtain ⟨y, ho, hy, hs⟩ := h.owned i stage state hi he
      have hne : y ≠ r := by
        rintro rfl
        exact h.not_owns hrest hi ho
      have hmem : y ∈ m.managed.erase r := (mem_erase_of_ne hne).mpr hy
      exact ⟨y, ho.mono fun _ => ⟨hmem, rfl⟩, hmem, hs⟩
    exclusive := fun i j stage stage' y hi hj ho ho' =>
      h.exclusive i j stage stage' y hi hj (hto ho) (hto ho') }

/-- Every effect keeps the invariant. -/
theorem Effect.invariant (he : Effect m a m') (h : m.Invariant) : m'.Invariant := by
  cases he with
  | known _ | kept | ignored => exact h
  | @managed id status hnone =>
    refine h.add (fun r hr he => ?_) ?_
    · have hfind := find?_eq_none.mp hnone r hr
      rw [he] at hfind
      split at hfind <;> exact hfind (decide_eq_true rfl)
    · split <;> rfl
  | dropped hmem hstate =>
    rcases hstate with hs | hs | hs
    · exact h.drop (.inl hs)
    · exact h.drop (.inr (.inr (.inr hs)))
    · exact h.drop (.inr (.inr (.inl hs)))
  | loadRequested hmem hstate =>
    exact h.spawn hmem (.inl hstate) rfl (by rw [hstate]; rintro (h | h | h) <;> cases h)
  | unloadRequested hmem hstate =>
    exact h.spawn hmem (.inr (.inl hstate)) rfl fun _ => .inr (.inl rfl)
  | rejected hi _ => exact h.retire hi rfl rfl rfl rfl rfl rfl rfl
  | waiting hw _ _ =>
    exact hw.invariant h ⟨rfl, (update_eq_self _ _).symm, rfl, rfl, rfl⟩ rfl rfl (h.legal _)
      (fun q hq => h.servable q _ hq) (.inr ⟨fun _ => Iff.rfl, congrArg some hw.state.symm⟩)
  | unreserved hw _ _ _ =>
    exact hw.invariant h ⟨rfl, rfl, rfl, rfl, rfl⟩ rfl rfl (h.legal _)
      (hw.servable h (by rintro (h | h | h) <;> cases h)) (.inl rfl)
  | loadApproved hw _ =>
    exact hw.invariant h ⟨rfl, rfl, rfl, rfl, rfl⟩ rfl (Int.add_zero _) (h.legal _)
      (hw.servable h (by rintro (h | h | h) <;> cases h)) (.inr ⟨fun _ => Iff.rfl, rfl⟩)
  | unloadApproved hw =>
    exact hw.invariant h ⟨rfl, rfl, rfl, rfl, rfl⟩ rfl (Int.add_zero _) (h.legal _)
      (hw.servable h fun _ => .inr (.inr rfl)) (.inr ⟨fun _ => Iff.rfl, rfl⟩)
  | loading hw | unloading hw =>
    exact hw.invariant h ⟨rfl, rfl, rfl, rfl, rfl⟩ rfl rfl (h.legal _)
      (hw.servable h (by rintro (h | h | h) <;> cases h)) (.inr ⟨fun _ => Iff.rfl, rfl⟩)
  | loaded hw _ | loadFailed hw _ | unloaded hw =>
    exact hw.invariant h ⟨rfl, rfl, rfl, rfl, rfl⟩ rfl rfl (h.legal _)
      (hw.servable h (by rintro (h | h | h) <;> cases h)) (.inl rfl)
  | served hi => exact h.updateServingMap.retire hi rfl rfl rfl rfl rfl rfl rfl
  | @quiesced i r _ hw =>
    have hw' : m.updateServingMap.Works i (.unloadApproved r) r .quiescing :=
      ⟨hw.task, rfl, hw.mem, hw.state⟩
    refine hw'.invariant h.updateServingMap ⟨rfl, rfl, rfl, rfl, rfl⟩ rfl rfl (h.legal _)
      (fun q hq => ?_) (.inr ⟨fun _ => Iff.rfl, rfl⟩)
    have hready := (mem_handles_updateServingMap hq).2
    rw [hw.state] at hready
    cases hready
  | finished hi =>
    refine h.retire hi rfl rfl rfl rfl rfl rfl ?_
    exact (Int.sub_add_cancel _ _).trans (Int.add_zero _).symm

section

variable (h : m.Invariant)
include h

/-- Every step keeps the invariant. -/
theorem Invariant.step (ha : m.advance a = some m') : m'.Invariant :=
  (h.effect ha).invariant h

/-- An unload starts on a harness that its task has taken out of the states that may be
served. -/
theorem Invariant.not_mem_handles_of_startsUnload (ha : m.StartsUnload a r) (q : ServableRequest) :
    (q, r) ∉ m.handles := by
  obtain ⟨task, outcome, -, hi⟩ := ha
  intro hq
  have hstate : (m.harness r).state = .quiesced := (some.inj (h.of_owns hi rfl).2).symm
  rcases h.servable q r hq with hs | hs | hs <;> rw [hstate] at hs <;> cases hs

/-- The harness of a running loader is loading or unloading. -/
theorem Invariant.state_of_running (hr : m.Running r) :
    (m.harness r).state = .loading ∨ (m.harness r).state = .unloading := by
  rcases hr with hr | hr
  · obtain ⟨i, hi⟩ := mem_iff_getElem?.mp hr
    exact .inl (some.inj (h.of_owns hi rfl).2).symm
  · obtain ⟨i, hi⟩ := mem_iff_getElem?.mp hr
    exact .inr (some.inj (h.of_owns hi rfl).2).symm

/-- A harness whose loader runs stays managed. -/
theorem Invariant.not_running_of_removes (ha : m.Removes a r) : ¬ m.Running r := by
  intro hrun
  obtain ⟨m', hstep, hr, hr'⟩ := ha
  rcases (h.effect hstep).kept_or_dropped hr with hkept | ⟨-, hs⟩
  · exact hr' hkept
  · rcases hs with hs | hs | hs <;> rcases h.state_of_running hrun with hs' | hs' <;>
      rw [hs] at hs' <;> cases hs'

end

/-- What serving safety asks of a state and of the steps from it. -/
structure Safe (m : Manager) : Prop where
  /-- The handles map refers to harnesses that may be served. -/
  servable : ∀ q r, (q, r) ∈ m.handles → (m.harness r).state = .ready ∨
    (m.harness r).state = .unloadRequested ∨ (m.harness r).state = .quiescing
  /-- An unload does not start while the handles map refers to the harness. -/
  unload : ∀ a r, m.StartsUnload a r → ∀ q, (q, r) ∉ m.handles
  /-- The entry for the latest version is the highest version in the map. -/
  latest : m.LatestIsHighest
  /-- No transition has been illegal. -/
  legal : ∀ r, (m.harness r).faulted = false
  /-- A harness whose loader runs is not dropped. -/
  running : ∀ a r, m.Removes a r → ¬ m.Running r
  /-- The counter is the number of approved executions before their final decrement. -/
  ongoing : m.numOngoing = m.tasks.countP Stage.executing

/-- Serving safety holds in every state that any interleaving of calls and task steps
reaches, with or without a resource tracker. -/
theorem safe_of_run (tracked : Bool) (actions : List Action) (m : Manager)
    (hrun : Run.run advance (initial tracked) actions = some m) : m.Safe := by
  have h : m.Invariant := Run.run_invariant (fun _ _ _ hs _ ha => hs.step ha)
    (invariant_initial tracked) (Run.admissible_of_forall (fun _ _ => trivial) _ actions) hrun
  exact { h with
    unload := fun a r => h.not_mem_handles_of_startsUnload
    running := fun a r => h.not_running_of_removes }

/-- Two versions of a stream are loaded concurrently and the unload of the higher one is
under way; the serving map refers to the lower one. -/
def overlappingLoads : List Action :=
  [.manage ⟨"model", 1⟩ .ok, .manage ⟨"model", 2⟩ .ok, .request .load ⟨"model", 2⟩,
    .request .load ⟨"model", 1⟩, .decide 0 .reserved, .decide 1 .reserved, .execute 0 .ok,
    .execute 1 .ok, .execute 1 .ok, .execute 0 .ok, .execute 1 .ok, .request .unload ⟨"model", 2⟩,
    .execute 0 .ok, .decide 2 .reserved, .execute 2 .ok, .execute 2 .ok]

/-- The serving map refers to the version that is still running. -/
theorem safe_overlappingLoads : ∃ m, Run.run advance (initial true) overlappingLoads = some m ∧
      m.handles = [(⟨"model", some 1⟩, 0), (.latest "model", 0)] ∧ m.Running 1 ∧ m.Safe := by
  refine ⟨_, rfl, by decide, ?_, ?_⟩
  · exact .inr (by decide)
  · exact safe_of_run true overlappingLoads _ rfl

end Manager

end Tension.Serving
