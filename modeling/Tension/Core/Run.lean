import Mathlib.Data.Option.Defs
import Mathlib.Logic.Relation

/-!
# Runs of fallible step functions

A component is a step function that may fail to return. A run feeds it a list of
operations. An invariant that every admissible step re-establishes, together with
the fact that an admissible step returns, holds after every admissible run. Rounds that
lower a measure whenever they change the state come to an end.
-/

namespace Tension.Run

variable {σ α : Type*}

/-- Execute a list of operations, stopping at the first one that does not return. -/
def run (step : σ → α → Option σ) : σ → List α → Option σ
  | s, [] => some s
  | s, a :: as => (step s a).bind fun s' => run step s' as

section

variable (step : σ → α → Option σ) (s : σ)

@[simp] theorem run_nil : run step s [] = some s := rfl

@[simp] theorem run_cons (a : α) (as : List α) :
    run step s (a :: as) = (step s a).bind fun s' => run step s' as := rfl

theorem run_append (as bs : List α) :
    run step s (as ++ bs) = (run step s as).bind fun s' => run step s' bs := by
  induction as generalizing s with
  | nil => rfl
  | cons a as ih =>
    rw [List.cons_append, run_cons, run_cons, Option.bind_assoc]
    exact congrArg _ (funext ih)

end

/-- Every operation of the list is admissible in the state it is issued in. -/
def Admissible (step : σ → α → Option σ) (adm : σ → α → Prop) : σ → List α → Prop
  | _, [] => True
  | s, a :: as => adm s a ∧ ∀ s', step s a = some s' → Admissible step adm s' as

@[simp] theorem admissible_nil (step : σ → α → Option σ) (adm : σ → α → Prop) (s : σ) :
    Admissible step adm s [] := trivial

variable {step : σ → α → Option σ} {adm : σ → α → Prop} {s : σ} {as : List α} {I : σ → Prop}

theorem admissible_cons {a : α} : Admissible step adm s (a :: as) ↔
      adm s a ∧ ∀ s', step s a = some s' → Admissible step adm s' as := Iff.rfl

/-- The operations of a later part are issued in the state that the earlier part leads to. -/
theorem admissible_append {bs : List α} : Admissible step adm s (as ++ bs) ↔
      Admissible step adm s as ∧ ∀ s', run step s as = some s' → Admissible step adm s' bs := by
  induction as generalizing s with
  | nil => simp
  | cons a as ih =>
    rw [List.cons_append, admissible_cons, admissible_cons, and_assoc]
    refine and_congr_right fun _ => ⟨fun h => ⟨fun s' hs => (ih.mp (h s' hs)).1, ?_⟩, ?_⟩
    · intro s' hr
      obtain ⟨s₁, h₁, h₂⟩ := Option.bind_eq_some_iff.mp hr
      exact (ih.mp (h s₁ h₁)).2 s' h₂
    · rintro ⟨h₁, h₂⟩ s' hs
      refine ih.mpr ⟨h₁ s' hs, fun s'' hr => h₂ s'' ?_⟩
      rw [run_cons, hs, Option.bind_some, hr]

/-- Whether a concrete list of operations is admissible can be decided. -/
instance decidableAdmissible (step : σ → α → Option σ) (adm : σ → α → Prop)
    [∀ s a, Decidable (adm s a)] : ∀ s as, Decidable (Admissible step adm s as)
  | _, [] => isTrue trivial
  | s, a :: as =>
    match h : step s a with
    | none => decidable_of_iff (adm s a) ⟨fun ha => ⟨ha, fun _ hs => by cases h ▸ hs⟩, And.left⟩
    | some s₁ =>
      have := decidableAdmissible step adm s₁ as
      decidable_of_iff (adm s a ∧ Admissible step adm s₁ as)
        (and_congr_right fun _ => ⟨fun hr s' hs => Option.some.inj (h.symm.trans hs) ▸ hr,
          fun hr => hr s₁ h⟩)

/-- Operations that meet a side condition meet every weaker one. -/
theorem Admissible.mono {adm' : σ → α → Prop}
    (h : ∀ s a, adm s a → adm' s a) (hs : Admissible step adm s as) :
    Admissible step adm' s as := by
  induction as generalizing s with
  | nil => trivial
  | cons a as ih => exact ⟨h s a hs.1, fun s' hs' => ih (hs.2 s' hs')⟩

/-- A side condition that does not depend on the state. -/
theorem admissible_of_mem (h : ∀ a ∈ as, ∀ s, adm s a) (s : σ) : Admissible step adm s as := by
  induction as generalizing s with
  | nil => trivial
  | cons a as ih =>
    exact ⟨h a List.mem_cons_self s,
      fun s' _ => ih (fun b hb => h b (List.mem_cons_of_mem _ hb)) s'⟩

/-- With no side condition every list of operations is admissible. -/
theorem admissible_of_forall
    (h : ∀ s a, adm s a) (s : σ) (as : List α) : Admissible step adm s as :=
  admissible_of_mem (fun a _ s => h s a) s

/-- Total correctness of runs: admissible operations return and keep the invariant. -/
theorem run_total (hstep : ∀ s a, I s → adm s a → ∃ s', step s a = some s' ∧ I s') (hs : I s)
    (ha : Admissible step adm s as) : ∃ s', run step s as = some s' ∧ I s' := by
  induction as generalizing s with
  | nil => exact ⟨s, rfl, hs⟩
  | cons a as ih =>
    obtain ⟨s₁, h₁, hi⟩ := hstep s a hs ha.1
    obtain ⟨s₂, h₂, hi₂⟩ := ih hi (ha.2 s₁ h₁)
    exact ⟨s₂, by simp [h₁, h₂], hi₂⟩

/-- Runs whose operations decrease a measure are bounded by it. -/
theorem run_bounded {μ : σ → Nat}
    (hstep : ∀ s a, I s → adm s a → ∃ s', step s a = some s' ∧ I s' ∧ μ s' < μ s) (hs : I s)
    (ha : Admissible step adm s as) :
    ∃ s', run step s as = some s' ∧ I s' ∧ as.length + μ s' ≤ μ s := by
  induction as generalizing s with
  | nil => exact ⟨s, rfl, hs, by simp⟩
  | cons a as ih =>
    obtain ⟨s₁, h₁, hi, hlt⟩ := hstep s a hs ha.1
    obtain ⟨s₂, h₂, hi₂, hle⟩ := ih hi (ha.2 s₁ h₁)
    exact ⟨s₂, by simp [h₁, h₂], hi₂, by rw [List.length_cons]; omega⟩

/-- Partial correctness of runs: every state that a run returns keeps the invariant. -/
theorem run_invariant (hstep : ∀ s a s', I s → adm s a → step s a = some s' → I s')
    {s' : σ} (hs : I s) (ha : Admissible step adm s as) (hr : run step s as = some s') : I s' := by
  induction as generalizing s with
  | nil => exact (Option.some.inj hr) ▸ hs
  | cons a as ih =>
    obtain ⟨s₁, h₁, h₂⟩ := Option.bind_eq_some_iff.mp hr
    exact ih (hstep s a s₁ hs ha.1 h₁) (ha.2 s₁ h₁) h₂

/-- Two components whose steps return or fail together do so over every run. -/
theorem run_rel {τ : Type*} {step' : τ → α → Option τ}
    {R : σ → τ → Prop} (hstep : ∀ s t a, R s t → Option.Rel R (step s a) (step' t a))
    {t : τ} (hst : R s t) (as : List α) : Option.Rel R (run step s as) (run step' t as) := by
  induction as generalizing s t with
  | nil => exact .some hst
  | cons a as ih =>
    rw [run_cons, run_cons]
    have hnext := hstep s t a hst
    generalize step s a = x, step' t a = y at hnext
    cases hnext with
    | some h => exact ih h
    | none => exact .none

/-! ## Rounds until nothing changes -/

/-- Repeat a round, at most `fuel` times, until nothing changes. -/
def untilStable (round : σ → Option (Bool × σ)) : Nat → σ → Option σ
  | 0, _ => none
  | fuel + 1, s =>
    match round s with
    | none => none
    | some (changed, s') => if changed then untilStable round fuel s' else some s'

/-- Rounds that keep an invariant and lower a measure come to an end. -/
theorem untilStable_total {round : σ → Option (Bool × σ)} {I : σ → Prop} {μ : σ → Nat}
    (h : ∀ s, I s → ∃ changed s', round s = some (changed, s') ∧ I s' ∧
      (changed = true → μ s' < μ s)) {fuel : Nat} {s : σ} (hs : I s) (hfuel : μ s < fuel) :
    ∃ s', untilStable round fuel s = some s' ∧ I s' := by
  induction fuel generalizing s with
  | zero => omega
  | succ fuel ih =>
    obtain ⟨changed, s₁, hround, hs₁, hμ⟩ := h s hs
    rw [untilStable, hround]
    cases changed with
    | false => exact ⟨s₁, rfl, hs₁⟩
    | true =>
      have hlt := hμ rfl
      exact ih hs₁ (by omega)

end Tension.Run
