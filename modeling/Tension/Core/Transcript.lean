import Mathlib.Logic.Basic

/-!
# What a component answers over a run

A step returns an answer and the next state, or does not return. The transcript of a run is the
list of its answers. Two components whose states stay related have the same transcript exactly
when the condition under which a step answers alike holds at every step.
-/

namespace Tension.Transcript

variable {σ τ α ο : Type*}

/-- The answers to a list of operations. -/
def transcript (step : σ → α → Option (ο × σ)) : σ → List α → Option (List ο)
  | _, [] => some []
  | s, a :: as => (step s a).bind fun r => (transcript step r.2 as).map (r.1 :: ·)

/-- A condition holds whenever an operation is issued. -/
def Throughout (step : σ → α → Option (ο × σ)) (P : σ → α → Prop) : σ → List α → Prop
  | _, [] => True
  | s, a :: as => P s a ∧ ∀ r, step s a = some r → Throughout step P r.2 as

variable {step : σ → α → Option (ο × σ)} {step' : τ → α → Option (ο × τ)} {R : σ → τ → Prop}
  {P : σ → α → Prop} {s : σ} {t : τ}

/-- Components that return together and stay related under the operations `A` have the same
transcript exactly when every step answers alike. -/
theorem transcript_eq_iff {A : α → Prop}
    (hstep : ∀ s t a, A a → R s t → ∃ o s' o' t', step s a = some (o, s') ∧
      step' t a = some (o', t') ∧ R s' t' ∧ (o = o' ↔ P s a))
    (h : R s t) (as : List α) (has : ∀ a ∈ as, A a) :
    ∃ os os', transcript step s as = some os ∧ transcript step' t as = some os' ∧
      (os = os' ↔ Throughout step P s as) := by
  induction as generalizing s t with
  | nil => exact ⟨[], [], rfl, rfl, by simp [Throughout]⟩
  | cons a as ih =>
    rw [List.forall_mem_cons] at has
    obtain ⟨o, s', o', t', hs, ht, hnext, hanswer⟩ := hstep s t a has.1 h
    obtain ⟨os, os', hos, hos', hiff⟩ := ih hnext has.2
    refine ⟨o :: os, o' :: os', by simp [transcript, hs, hos], by simp [transcript, ht, hos'], ?_⟩
    rw [List.cons.injEq, hanswer, hiff, Throughout, hs]
    exact and_congr_right fun _ =>
      ⟨fun hrest r hr => Option.some.inj hr ▸ hrest, fun hrest => hrest _ rfl⟩

end Tension.Transcript
